import RpalLexer.Lexer.Origin
import RpalLexer.Proofs.CallSequence
import RpalLexer.Proofs.Session

/-!
# What calls keep

A property of lexers that is kept when a character is looked at, when it is taken and when malformed
input is put on record is kept by every call for a token. What calls keep is kept by everyone who
goes through the tokens, and by every session in which nothing is closed or closing keeps it too.
Main statements: `Lexer.Invariant.nextToken` and `Session.after_keeps`.
-/
namespace RpalLexer

theorem Step.state_thenAlways {ε σ α : Type} (last : σ → Step ε σ Unit) (step : Step ε σ α) :
    (step.thenAlways last).state = (last step.state).state := by
  rw [Step.thenAlways]
  split
  · rename_i hl
    rw [hl]
  · rename_i hl
    rw [hl]

namespace Lexer

variable {P : Lexer → Prop} {s s' : Lexer} {cs : List Char}

structure Invariant (P : Lexer → Prop) : Prop where
  peek : ∀ s, P s → P s.peek.state
  take : ∀ s c, s.slot = some c → P s → P (s.take c)
  dropped : ∀ s location c, P s → P (s.note (.droppedChar location c))
  discarded : ∀ s location fragment, P s → P (s.note (.discardedString location fragment))

theorem Invariant.of_peek {result : Except Fault (Option Char)} (hP : Invariant P) (h : P s)
    (hp : s.peek = ⟨result, s'⟩) : P s' := by
  have hs := hP.peek s h
  rwa [hp] at hs

theorem Invariant.takes (hP : Invariant P) (ht : s.Takes cs s') (h : P s) : P s' := by
  induction ht with
  | nil s => exact h
  | @cons s _ s' c cs ha _ ih =>
    obtain ⟨s₁, hp, rfl⟩ := exists_peek_of_advance_some ha
    apply ih
    apply hP.take
    · exact slot_of_peek hp
    · exact hP.of_peek h hp

theorem Invariant.answer (hP : Invariant P) (h : P s) (line : Int) (content : Content) :
    P (s.answer line content).state := by
  cases content with
  | lexeme kind text => exact h
  | unknown c =>
    simp only [Lexer.answer, unknownChar]
    split
    · exact h
    · exact hP.dropped s _ c h
  | cutOff body =>
    simp only [Lexer.answer, cutOffString]
    split
    · exact h
    · exact hP.discarded s _ _ h

theorem Invariant.nextToken (hP : Invariant P) (s : Lexer) (h : P s) : P s.nextToken.state := by
  obtain ⟨source, hc⟩ := nextToken_cases s
  generalize s.nextToken = step at hc
  cases hc with
  | ended hp => exact hP.of_peek h hp
  | unread hp => exact hP.of_peek h hp
  | whole hcut ho ht => exact hP.answer (hP.takes ht h) _ _
  | delimited hcut ho ht hp => exact hP.answer (hP.of_peek (hP.takes ht h) hp) _ _
  | broken hcut ho ht hp => exact hP.of_peek (hP.takes ht h) hp

theorem Invariant.nextToken_error {Q : Fault → Prop} {e : Fault} (hP : Invariant P)
    (hpeek : ∀ s s' e, P s → s.peek = ⟨.error e, s'⟩ → Q e)
    (hanswer : ∀ s line content e, P s → (s.answer line content).result = .error e → Q e)
    (h : P s) (he : s.nextToken.result = .error e) : Q e := by
  obtain ⟨source, hc⟩ := nextToken_cases s
  generalize s.nextToken = step at hc he
  cases hc with
  | ended hp => cases he
  | unread hp =>
    cases he
    exact hpeek _ _ _ h hp
  | whole hcut ho ht => exact hanswer _ _ _ _ (hP.takes ht h) he
  | delimited hcut ho ht hp => exact hanswer _ _ _ _ (hP.of_peek (hP.takes ht h) hp) he
  | broken hcut ho ht hp =>
    cases he
    exact hpeek _ _ _ (hP.takes ht h) hp

theorem Invariant.afterCalls (hP : Invariant P) (h : P s) (n : Nat) :
    P (s.afterCalls n) := by
  induction n with
  | zero => exact h
  | succ n ih =>
    rw [afterCalls_succ]
    exact hP.nextToken _ ih

section Calls

variable (hn : ∀ s, P s → P s.nextToken.state)
include hn

theorem nextKept_keeps (skip : Bool) (h : P s) : P (s.nextKept skip).state := by
  fun_induction Lexer.nextKept skip s with
  | case1 s hm e s' hs =>
    have h' := hn s h
    rwa [hs] at h'
  | case2 s hm s' hs ih =>
    have h' := hn s h
    rw [hs] at h'
    exact ih h'
  | case3 s hm t s' hs hd ih =>
    have h' := hn s h
    rw [hs] at h'
    exact ih h'
  | case4 s hm t s' hs hd =>
    have h' := hn s h
    rwa [hs] at h'
  | case5 s hm => exact h

theorem harvest_keeps (skip : Bool) (limit : Option Nat) (h : P s) :
    P (s.harvest skip limit).lexer := by
  fun_induction Lexer.harvest skip limit s with
  | case1 s => exact h
  | case2 limit s hl e s' hk =>
    have h' := nextKept_keeps hn skip h
    rwa [hk] at h'
  | case3 limit s hl s' hk =>
    have h' := nextKept_keeps hn skip h
    rwa [hk] at h'
  | case4 limit s hl t s' hk rest ih =>
    have h' := nextKept_keeps hn skip h
    rw [hk] at h'
    exact ih h'

end Calls

theorem Harvest.state_toStep (h : Harvest) : h.toStep.state = h.lexer := by
  rw [Harvest.toStep]
  split
  · rfl
  · rfl

theorem state_tokensAndClose (skip : Bool) (s : Lexer) :
    (s.tokensAndClose skip).state = (s.harvest skip none).lexer.close.state := by
  rw [tokensAndClose, Step.state_thenAlways, Harvest.state_toStep]

end Lexer

namespace Cursor

variable {cursor : Cursor}

theorem next_of_finished (hf : cursor.finished = true) (s : Lexer) :
    cursor.next s = ⟨.ok none, (cursor, s)⟩ := by
  rw [next, if_pos hf]

theorem next_of_not_finished (hf : ¬cursor.finished = true) (s : Lexer) :
    ∃ finished, cursor.next s = ⟨(s.nextKept cursor.skipDeleted).result,
        ({ cursor with finished }, (s.nextKept cursor.skipDeleted).state)⟩ ∧
      (finished = true → ∀ t, (s.nextKept cursor.skipDeleted).result ≠ .ok (some t)) := by
  rw [next, if_neg hf]
  split
  · rename_i e s' hk
    rw [hk]
    exact ⟨true, rfl, by simp⟩
  · rename_i s' hk
    rw [hk]
    exact ⟨true, rfl, by simp⟩
  · rename_i t s' hk
    rw [hk]
    exact ⟨cursor.finished, rfl, fun h => absurd h hf⟩

end Cursor

namespace Session

variable {P : Lexer → Prop} {u : Session} {cursor : Cursor} {i : Nat}

theorem serve_advance (hc : u.cursors[i]? = some cursor) : u.serve (.advance i) =
    (.token (cursor.next u.lexer).result,
      ⟨(cursor.next u.lexer).state.2, u.cursors.set i (cursor.next u.lexer).state.1⟩) := by
  rw [serve, hc]

theorem serve_advance_of_none (hc : u.cursors[i]? = none) :
    u.serve (.advance i) = (.token (.ok none), u) := by
  rw [serve, hc]

theorem after_append (u : Session) (qs qs' : List Request) :
    u.after (qs ++ qs') = (u.after qs).after qs' := by
  induction qs generalizing u with
  | nil => rfl
  | cons q qs ih => exact ih (u.serve q).2

section Calls

variable (hn : ∀ s, P s → P s.nextToken.state)
include hn

theorem serve_keeps (q : Request) (hc : q = .close → ∀ s, P s → P s.close.state)
    (h : P u.lexer) : P (u.serve q).2.lexer := by
  cases q with
  | next => exact hn u.lexer h
  | hasMore => exact h
  | cursor skip => exact h
  | close => exact hc rfl u.lexer h
  | advance i =>
    cases hi : u.cursors[i]? with
    | none =>
      rw [serve_advance_of_none hi]
      exact h
    | some cursor =>
      rw [serve_advance hi]
      by_cases hf : cursor.finished = true
      · rw [Cursor.next_of_finished hf]
        exact h
      · obtain ⟨finished, hnext, -⟩ := Cursor.next_of_not_finished hf u.lexer
        rw [hnext]
        exact Lexer.nextKept_keeps hn cursor.skipDeleted h

theorem after_keeps (qs : List Request) (hc : .close ∈ qs → ∀ s, P s → P s.close.state)
    (h : P u.lexer) : P (u.after qs).lexer := by
  induction qs generalizing u with
  | nil => exact h
  | cons q qs ih =>
    apply ih
    · intro hmem
      exact hc (List.mem_cons_of_mem q hmem)
    · apply serve_keeps hn q
      · intro hq
        exact hc (hq ▸ List.mem_cons_self)
      · exact h

end Calls

end Session
end RpalLexer
