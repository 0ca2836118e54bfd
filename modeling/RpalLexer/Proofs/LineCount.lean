import RpalLexer.Lexer.Origin
import RpalLexer.Proofs.Consumption
import RpalLexer.Proofs.TokenShape

/-!
# Lines

Which line a lexer is on, and which lines its tokens and errors name, over any reader. Main
statement: `lines_exact`.
-/
namespace RpalLexer

open Segment (newlines)

inductive Operation where
  | next
  | nextKept (skipDeleted : Bool)
  | close

namespace Lexer

variable {s s' s₀ s₁ : Lexer} {given taken lost used : List Char} {e : ScanError}

def perform (s : Lexer) : Operation → Lexer
  | .next => s.nextToken.state
  | .nextKept skipDeleted => (s.nextKept skipDeleted).state
  | .close => s.close.state

/-- `s₀.Reaches given taken lost s`: calls and closings take `s₀` to `s`; meanwhile the reader gives
out `given`, of which the calls use up `taken` and closings throw `lost` out of the slot. -/
inductive Reaches (s₀ : Lexer) : List Char → List Char → List Char → Lexer → Prop
  | start : Reaches s₀ [] [] [] s₀
  | next {given taken lost more used : List Char} {s : Lexer} (h : Reaches s₀ given taken lost s)
      (hm : s.Moves more used s.nextToken.state) :
      Reaches s₀ (given ++ more) (taken ++ used) lost s.nextToken.state
  | close {given taken lost : List Char} {s : Lexer} (h : Reaches s₀ given taken lost s) :
      Reaches s₀ given taken (lost ++ s.slot.toList) s.close.state

/-- The line that a call names is right, if it names one. What the call used up starts after
`taken`, and `given` is all that the reader gave out until the call ended. -/
def NamesLine (filename : String) (taken given used : List Char) :
    Except Fault (Option Token) → Prop
  | .ok (some t) => t.line = 1 + newlines taken ∧
      (used = t.source ∨ t.IsComment ∧ used = t.text.toList)
  | .error (.scan (.invalidCharacter c location)) =>
    location = some ⟨filename, 1 + newlines taken⟩ ∧ used = [c]
  | .error (.scan (.unterminatedString location _)) =>
    location = some ⟨filename, 1 + newlines taken⟩ ∧ ∃ body, used = quoteMark :: body
  | .error (.scan (.unreadable _ _ line)) => line = some (1 + (newlines given : Int))
  | _ => True

theorem CallCase.line_eq {step : Step Fault Lexer (Option Token)} (h : CallCase s used step) :
    step.state.line = s.line + newlines used := by
  cases h with
  | ended hp => simp [line_of_peek hp, newlines]
  | unread hp => simp [line_of_peek hp, newlines]
  | whole hc ho ht => rw [(alike_answer _ _ _).line_eq, ht.line_eq]
  | delimited hc ho ht hp => rw [(alike_answer _ _ _).line_eq, line_of_peek hp, ht.line_eq]
  | broken hc ho ht hp =>
    have hl := line_of_peek hp
    rw [hl, ht.line_eq]

theorem line_of_moves (hm : s.Moves given used s.nextToken.state) :
    s.nextToken.state.line = s.line + newlines used := by
  obtain ⟨given', source, hc, hm'⟩ := exists_moves_nextToken s
  rw [(hm.unique hm').2, hc.line_eq]

theorem Reaches.line_eq (h : s₀.Reaches given taken lost s) :
    s.line = s₀.line + newlines taken := by
  induction h with
  | start => simp [newlines]
  | next _ hm ih =>
    rw [line_of_moves hm, ih, Segment.newlines_append]
    omega
  | close _ ih => exact ih

theorem hasMore_close (s : Lexer) : s.close.state.hasMore = false :=
  hasMore_eq_false_iff.2 ⟨rfl, Reader.exhausted_iff.1 (Reader.exhausted_close s.reader)⟩

theorem slot_close (s : Lexer) : s.close.state.slot = none := rfl

theorem Reaches.lost_eq_nil (h : s₀.Reaches given taken lost s) :
    lost = [] ∨ s.hasMore = false := by
  induction h with
  | start => exact Or.inl rfl
  | @next given taken lost more used s _ hm ih =>
    rcases ih with hl | hn
    · exact Or.inl hl
    · rw [nextToken_of_not_hasMore hn]
      exact Or.inr hn
  | @close given taken lost s _ ih => exact Or.inr (hasMore_close s)

theorem Reaches.length_lost_le (h : s₀.Reaches given taken lost s) : lost.length ≤ 1 := by
  induction h with
  | start => exact Nat.zero_le 1
  | next _ _ ih => exact ih
  | @close given taken lost s h ih =>
    rcases h.lost_eq_nil with rfl | hn
    · cases s.slot <;> simp
    · rw [(hasMore_eq_false_iff.1 hn).1]
      simpa using ih

theorem Reaches.balance (h₀ : s₀.slot = none) (h : s₀.Reaches given taken lost s) :
    given = taken ++ lost ++ s.slot.toList := by
  induction h with
  | start => simp [h₀]
  | @next given taken lost more used s h hm ih =>
    rcases h.lost_eq_nil with rfl | hn
    · rw [ih, List.append_nil, List.append_assoc, hm.balance, List.append_nil, List.append_assoc]
    -- A closing threw something out, so there is no more to read and the call changes nothing.
    · rw [nextToken_of_not_hasMore hn] at hm ⊢
      obtain ⟨rfl, rfl⟩ := hm.unique (.refl s)
      rw [List.append_nil, List.append_nil, ih]
  | @close given taken lost s _ ih => rw [ih, slot_close]; simp

theorem eq_unreadable_of_peek (h : s.peek = ⟨.error (.scan e), s'⟩) :
    ∃ f, e = .unreadable s.filename f (some s.line) := by
  cases PeekCase.of_eq h with
  | fault hs hr => exact Reader.eq_unreadable_of_read (by rw [hr])

theorem namesLine_of_peek_error {f : Fault} {filename : String} (hp : s.peek = ⟨.error f, s'⟩)
    (hl : s.line = 1 + newlines given) : NamesLine filename taken given used (.error f) := by
  cases f with
  | failure f => trivial
  | scan e =>
    obtain ⟨cause, rfl⟩ := eq_unreadable_of_peek hp
    simp only [NamesLine, hl]

theorem namesLine_answer {content : Content} {rest : List Char} (given : List Char)
    (hc : Segment.Cut content used rest) (hl : s.line = 1 + newlines taken) :
    NamesLine s'.filename taken given used (s'.answer s.line content).result := by
  rw [result_answer s' s.line ⟨content, used, rest⟩, hl]
  cases content with
  | lexeme kind text =>
    let t : Token := ⟨kind, String.ofList text, 1 + newlines taken, s'.filename⟩
    have ht : t.text.toList = text := String.toList_ofList
    rw [← ht] at hc
    exact ⟨rfl, (t.source_of_cut hc).imp_right fun h => ⟨h.1, h.2.1⟩⟩
  | unknown c =>
    unfold Segment.outcome
    cases s'.options.chars with
    | drop => trivial
    | raise =>
      cases hc with
      | unknown hc => exact ⟨rfl, rfl⟩
  | cutOff body =>
    unfold Segment.outcome
    cases s'.options.strings with
    | discard => trivial
    | raise =>
      cases hc with
      | cutOff hb => exact ⟨rfl, body, rfl⟩

theorem CallCase.namesLine {step : Step Fault Lexer (Option Token)} (h : CallCase s used step)
    (hl : s.line = 1 + newlines taken) (hg : given = taken ++ used ++ step.state.slot.toList) :
    NamesLine s.filename taken given used step.result := by
  cases h with
  | ended hp => trivial
  | unread hp =>
    have hslot := (moves_of_peek_error hp).2.2
    refine namesLine_of_peek_error hp ?_
    rw [hl, hg, hslot]
    simp
  | whole hc ho ht =>
    rw [← ht.sameSetting.filename]
    exact namesLine_answer given (hc []) hl
  | @delimited content _ next s₁ s' hc ho ht hp =>
    rw [← (ht.sameSetting.trans (.of_peek hp)).filename]
    exact namesLine_answer given (hc next.toList (by cases next <;> rfl)) hl
  | broken hc ho ht hp =>
    have hslot := (moves_of_peek_error hp).2.2
    refine namesLine_of_peek_error hp ?_
    rw [ht.line_eq, hl, hg, hslot, Option.toList_none, List.append_nil, Segment.newlines_append]
    omega

theorem Reaches.call (h₀ : s₀.slot = none) (hl : s₀.line = 1)
    (h : s₀.Reaches given taken lost s) :
    ∃ more used, s.Moves more used s.nextToken.state ∧
      NamesLine s.filename taken (given ++ more) used s.nextToken.result := by
  obtain ⟨more, used, hc, hm⟩ := exists_moves_nextToken s
  refine ⟨more, used, hm, ?_⟩
  rcases h.lost_eq_nil with rfl | hn
  · have hline := h.line_eq
    rw [hl] at hline
    refine hc.namesLine hline ?_
    rw [h.balance h₀, List.append_nil, List.append_assoc, hm.balance, List.append_assoc]
  · rw [nextToken_of_not_hasMore hn]
    trivial

theorem Reaches.exists_next (h : s₀.Reaches given taken lost s) :
    ∃ given' taken', s₀.Reaches given' taken' lost s.nextToken.state := by
  obtain ⟨more, used, -, hm⟩ := exists_moves_nextToken s
  exact ⟨given ++ more, taken ++ used, .next h hm⟩

theorem Reaches.consume (skip : Bool) (h : s₀.Reaches given taken lost s) :
    ∃ given' taken' s', s₀.Reaches given' taken' lost s' ∧
      (s.nextKept skip = s'.nextToken ∨ s.nextKept skip = ⟨.ok none, s'⟩) := by
  fun_induction Lexer.nextKept skip s generalizing given taken with
  | case1 s hm e s' hn => exact ⟨given, taken, s, h, Or.inl hn.symm⟩
  | case2 s hm s' hn ih =>
    obtain ⟨given', taken', h'⟩ := h.exists_next
    rw [hn] at h'
    exact ih h'
  | case3 s hm t s' hn hd ih =>
    obtain ⟨given', taken', h'⟩ := h.exists_next
    rw [hn] at h'
    exact ih h'
  | case4 s hm t s' hn hd => exact ⟨given, taken, s, h, Or.inl hn.symm⟩
  | case5 s hm => exact ⟨given, taken, s, h, Or.inr rfl⟩

theorem Reaches.exists_perform (o : Operation) (h : s₀.Reaches given taken lost s) :
    ∃ given' taken' lost', s₀.Reaches given' taken' lost' (s.perform o) := by
  cases o with
  | next =>
    obtain ⟨given', taken', h'⟩ := h.exists_next
    exact ⟨given', taken', lost, h'⟩
  | close => exact ⟨given, taken, _, .close h⟩
  | nextKept skip =>
    obtain ⟨given', taken', s', h', he⟩ := h.consume skip
    rw [perform]
    rcases he with he | he
    · rw [he]
      obtain ⟨given'', taken'', h''⟩ := h'.exists_next
      exact ⟨given'', taken'', lost, h''⟩
    · rw [he]
      exact ⟨given', taken', lost, h'⟩

theorem exists_reaches (operations : List Operation) (h : s₀.Reaches given taken lost s) :
    ∃ given' taken' lost', s₀.Reaches given' taken' lost' (operations.foldl perform s) := by
  induction operations generalizing s given taken lost with
  | nil => exact ⟨given, taken, lost, h⟩
  | cons o operations ih =>
    obtain ⟨given', taken', lost', h'⟩ := h.exists_perform o
    exact ih h'

/-- Every line is exact, over any reader and under any options. All that a user can do with a new
lexer comes down to calls and closings. After any of them the line counts the newlines used up, and
the next call names the right line, as does the one that answers a consumer. -/
theorem lines_exact (reader : Reader) (options : Options) :
    (∀ operations : List Operation, ∃ given taken lost,
      Reaches { reader, options } given taken lost
        (operations.foldl perform { reader, options })) ∧
    ∀ given taken lost s, Reaches { reader, options } given taken lost s →
      s.line = 1 + newlines taken ∧
      given = taken ++ lost ++ s.slot.toList ∧ lost.length ≤ 1 ∧
      (∃ more used, s.Moves more used s.nextToken.state ∧
        NamesLine s.filename taken (given ++ more) used s.nextToken.result) ∧
      ∀ skip, ∃ given' taken' s', Reaches { reader, options } given' taken' lost s' ∧
        (s.nextKept skip = s'.nextToken ∨ s.nextKept skip = ⟨.ok none, s'⟩) := by
  refine ⟨fun operations => exists_reaches operations .start, fun given taken lost s h => ?_⟩
  exact ⟨h.line_eq, h.balance rfl, h.length_lost_le, h.call rfl rfl, fun skip => h.consume skip⟩

end Lexer
end RpalLexer
