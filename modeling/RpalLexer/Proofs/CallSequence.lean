import RpalLexer.Proofs.CallSegment
import RpalLexer.Proofs.Tokenization

/-!
# Successive calls

A lexer after a number of calls, whatever came of them, and what these calls have to do with the
tokens that a consumer gathers. Main statement: the first call that fails ends the gathering
(`Lexer.gathered_of_error_at`).
-/
namespace RpalLexer
namespace Lexer

variable {s s' : Lexer} {skip : Bool}

def afterCalls : Nat → Lexer → Lexer
  | 0, s => s
  | n + 1, s => afterCalls n s.nextToken.state

theorem afterCalls_succ (n : Nat) (s : Lexer) :
    s.afterCalls (n + 1) = (s.afterCalls n).nextToken.state := by
  induction n generalizing s with
  | zero => rfl
  | succ n ih => exact ih s.nextToken.state

theorem afterCalls_of_not_hasMore (hm : s.hasMore = false) (n : Nat) : s.afterCalls n = s := by
  induction n with
  | zero => rfl
  | succ n ih => rw [afterCalls, nextToken_of_not_hasMore hm, ih]

theorem afterCalls_add (m k : Nat) (s : Lexer) :
    s.afterCalls (m + k) = (s.afterCalls m).afterCalls k := by
  induction m generalizing s with
  | zero => rw [Nat.zero_add, afterCalls]
  | succ m ih => rw [Nat.succ_add, afterCalls, afterCalls, ih]

theorem afterCalls_of_ended {k m : Nat} (h : (s.afterCalls k).nextToken.state.hasMore = false)
    (hm : k < m) : s.afterCalls m = (s.afterCalls k).nextToken.state := by
  obtain ⟨d, rfl⟩ := Nat.exists_eq_add_of_lt hm
  rw [Nat.add_right_comm, afterCalls_add, afterCalls_succ, afterCalls_of_not_hasMore h]

theorem sameSetting_afterCalls (n : Nat) (s : Lexer) : s.SameSetting (s.afterCalls n) := by
  induction n generalizing s with
  | zero => exact .refl s
  | succ n ih => exact (sameSetting_nextToken s).trans (ih s.nextToken.state)

theorem exists_moves_afterCalls (n : Nat) (s : Lexer) :
    ∃ given used, s.Moves given used (s.afterCalls n) := by
  induction n generalizing s with
  | zero => exact ⟨[], [], .refl s⟩
  | succ n ih =>
    obtain ⟨given, used, -, hm⟩ := exists_moves_nextToken s
    obtain ⟨given', used', hm'⟩ := ih s.nextToken.state
    exact ⟨_, _, hm.trans hm'⟩

theorem hasMore_of_result_error {f : Fault} (h : s.nextToken.result = .error f) :
    s.hasMore = true := by
  by_contra hm
  rw [nextToken_of_not_hasMore (by simpa using hm)] at h
  cases h

/-- What a consumer who goes through all the tokens is given. -/
def gathered (skip : Bool) (s : Lexer) : Except Fault (List Token) :=
  (s.harvest skip none).toStep.result

theorem gathered_of_error {f : Fault} (h : s.nextToken.result = .error f) :
    s.gathered skip = .error f := by
  rw [gathered, harvest_of_error (hasMore_of_result_error h) (Step.eq_of_result h)]
  rfl

theorem gathered_of_ok {t : Option Token} (hm : s.hasMore = true)
    (h : s.nextToken.result = .ok t) :
    s.gathered skip = (s.nextToken.state.gathered skip).map (kept skip t.toList ++ ·) := by
  rw [gathered, harvest_of_ok hm (Step.eq_of_result h), Harvest.result_append, gathered]

theorem gathered_of_not_hasMore (hm : s.hasMore = false) : s.gathered skip = .ok [] := by
  rw [gathered, harvest_of_not_hasMore hm]
  rfl

theorem gathered_of_error_at {n : Nat} {f : Fault}
    (hok : ∀ m < n, ∃ t, (s.afterCalls m).nextToken.result = .ok t)
    (he : (s.afterCalls n).nextToken.result = .error f) : s.gathered skip = .error f := by
  induction n generalizing s with
  | zero => exact gathered_of_error he
  | succ n ih =>
    obtain ⟨t, ht⟩ := hok 0 (Nat.zero_lt_succ n)
    have hm : s.hasMore = true := by
      by_contra hm
      have hm : s.hasMore = false := by simpa using hm
      rw [afterCalls_of_not_hasMore hm, nextToken_of_not_hasMore hm] at he
      cases he
    have hrest : s.nextToken.state.gathered skip = .error f :=
      ih (fun m hmn => hok (m + 1) (Nat.succ_lt_succ hmn)) he
    rw [gathered_of_ok hm ht, hrest]
    rfl

theorem tokenize_eq_gathered (text filename : String) (o : Options) (skip : Bool) :
    tokenize text filename o skip = (ofString text filename o).gathered skip := by
  have hq := quiet_ofString text filename o
  rw [tokenize, result_tokensAndClose skip hq, gathered, (result_harvest hq).1]

end Lexer
end RpalLexer
