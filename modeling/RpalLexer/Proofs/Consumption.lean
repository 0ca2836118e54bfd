import RpalLexer.Proofs.TokenCall

/-!
# Consumption

Which of the characters that a reader gives out a lexer uses up, on any stream. What waits in the
slot is given out and not used up yet. Main statements: how a lexer got to where it is determines
what it used up (`Lexer.Moves.unique`), and a call uses up the source of its segment
(`Lexer.CallCase.moves`).
-/
namespace RpalLexer
namespace Lexer

variable {s s' s₁ : Lexer} {given given' used used' cs : List Char}

/-- `s.Moves given used s'`: on the way from `s` to `s'` the reader gives out `given`, and of this
and what was in the slot the lexer uses up `used`. -/
structure Moves (s : Lexer) (given used : List Char) (s' : Lexer) : Prop where
  delivers : s.reader.Delivers given s'.reader
  balance : s.slot.toList ++ given = used ++ s'.slot.toList

theorem Moves.refl (s : Lexer) : s.Moves [] [] s := ⟨.refl s.reader, by simp⟩

theorem Moves.trans (h : s.Moves given used s₁) (h' : s₁.Moves given' used' s') :
    s.Moves (given ++ given') (used ++ used') s' := by
  refine ⟨h.delivers.trans h'.delivers, ?_⟩
  rw [← List.append_assoc, h.balance, List.append_assoc, h'.balance, List.append_assoc]

theorem Moves.unique (h : s.Moves given used s') (h' : s.Moves given' used' s') :
    given = given' ∧ used = used' := by
  have hg := h.delivers.unique h'.delivers
  subst hg
  exact ⟨rfl, List.append_cancel_right (h.balance.symm.trans h'.balance)⟩

theorem slot_of_peek {c : Option Char} (h : s.peek = ⟨.ok c, s'⟩) : s'.slot = c := by
  cases PeekCase.of_eq h with
  | full hs => exact hs
  | read hs hr => rfl

theorem moves_of_peek_ok {c : Option Char} (h : s.peek = ⟨.ok c, s'⟩) :
    ∃ given, s.Moves given [] s' := by
  cases PeekCase.of_eq h with
  | full hs => exact ⟨[], .refl s⟩
  | @read _ reader hs hr =>
    have hd := Reader.delivers_read s.reader (some s.line)
    rw [hr] at hd
    refine ⟨_, hd, ?_⟩
    rw [hs]
    cases c <;> rfl

theorem moves_of_peek_error {e : Fault} (h : s.peek = ⟨.error e, s'⟩) :
    s.Moves [] [] s' ∧ s.slot = none ∧ s'.slot = none := by
  cases PeekCase.of_eq h with
  | fault hs hr =>
    have hd := Reader.delivers_read s.reader (some s.line)
    rw [hr] at hd
    exact ⟨⟨hd, by simp⟩, hs, hs⟩

theorem moves_take {c : Char} (h : s.slot = some c) : s.Moves [] [c] (s.take c) :=
  ⟨.refl s.reader, by simp [h, take]⟩

theorem Takes.moves (h : s.Takes cs s') : ∃ given, s.Moves given cs s' := by
  induction h with
  | nil s => exact ⟨[], .refl s⟩
  | cons ha _ ih =>
    obtain ⟨s₁, hp, rfl⟩ := exists_peek_of_advance_some ha
    obtain ⟨given, hm⟩ := moves_of_peek_ok hp
    obtain ⟨given', hm'⟩ := ih
    exact ⟨_, (hm.trans (moves_take (slot_of_peek hp))).trans hm'⟩

def Alike (s s' : Lexer) : Prop := ∃ reader, s.reader.Alike reader ∧ s' = { s with reader }

theorem Alike.refl (s : Lexer) : s.Alike s := ⟨s.reader, .refl s.reader, rfl⟩

theorem alike_note (s : Lexer) (e : Event) : s.Alike (s.note e) :=
  ⟨_, Reader.alike_note s.reader e, rfl⟩

theorem Alike.moves (h : s.Alike s') : s.Moves [] [] s' := by
  obtain ⟨reader, ha, rfl⟩ := h
  exact ⟨ha.delivers, by simp⟩

theorem Alike.reader (h : s.Alike s') : s.reader.Alike s'.reader := by
  obtain ⟨reader, ha, rfl⟩ := h
  exact ha

theorem Alike.line_eq (h : s.Alike s') : s'.line = s.line := by
  obtain ⟨reader, ha, rfl⟩ := h
  rfl

theorem Alike.sameSetting (h : s.Alike s') : s.SameSetting s' := by
  obtain ⟨reader, ha, rfl⟩ := h
  exact ⟨rfl, ha.filename_eq⟩

theorem alike_answer (s : Lexer) (line : Int) (content : Content) :
    s.Alike (s.answer line content).state := by
  cases content with
  | lexeme kind text => exact .refl s
  | unknown c =>
    simp only [answer, unknownChar]
    split
    · exact .refl s
    · exact alike_note s _
  | cutOff body =>
    simp only [answer, cutOffString]
    split
    · exact .refl s
    · exact alike_note s _

theorem CallCase.moves {source : List Char} {step : Step Fault Lexer (Option Token)}
    (h : CallCase s source step) : ∃ given, s.Moves given source step.state := by
  cases h with
  | ended hp => exact moves_of_peek_ok hp
  | unread hp => exact ⟨[], (moves_of_peek_error hp).1⟩
  | @whole content _ s' hc ho ht =>
    obtain ⟨given, hm⟩ := ht.moves
    have ha := (alike_answer s' s.line content).moves
    exact ⟨_, by simpa using hm.trans ha⟩
  | @delimited content _ next s₁ s' hc ho ht hp =>
    obtain ⟨given, hm⟩ := ht.moves
    obtain ⟨given', hm'⟩ := moves_of_peek_ok hp
    have ha := (alike_answer s' s.line content).moves
    exact ⟨_, by simpa using (hm.trans hm').trans ha⟩
  | broken hc ho ht hp =>
    obtain ⟨given, hm⟩ := ht.moves
    exact ⟨_, by simpa using hm.trans (moves_of_peek_error hp).1⟩

theorem exists_moves_nextToken (s : Lexer) :
    ∃ given used, CallCase s used s.nextToken ∧ s.Moves given used s.nextToken.state := by
  obtain ⟨used, hc⟩ := nextToken_cases s
  obtain ⟨given, hm⟩ := hc.moves
  exact ⟨given, used, hc, hm⟩

end Lexer
end RpalLexer
