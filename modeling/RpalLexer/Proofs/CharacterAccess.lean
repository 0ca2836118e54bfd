import RpalLexer.Lexer.Lookahead
import RpalLexer.Proofs.ReadSequence
import RpalLexer.Proofs.SegmentShape

/-!
# Taking characters

Every loop of a lexer takes characters one after the other and ends in front of a character, at the
end of the input or at a fault. For each loop the characters taken and what it ended at are stated
here, for any stream at all (`takeRun_cases`, `takeLine_cases`, `takeLiteral_cases`).
-/
namespace RpalLexer
namespace Lexer

variable {s s' s₁ s₂ : Lexer} {cs ds : List Char}

/-- `s.Takes cs s'`: taking the characters `cs` one after the other brings the lexer to `s'`. -/
inductive Takes : Lexer → List Char → Lexer → Prop
  | nil (s : Lexer) : Takes s [] s
  | cons {s s₁ s' : Lexer} {c : Char} {cs : List Char} :
      s.advance = ⟨.ok (some c), s₁⟩ → Takes s₁ cs s' → Takes s (c :: cs) s'

theorem Takes.single {c : Char} (h : s.advance = ⟨.ok (some c), s'⟩) : s.Takes [c] s' :=
  .cons h (.nil s')

theorem Takes.append (h : s.Takes cs s₁) (h' : s₁.Takes ds s') : s.Takes (cs ++ ds) s' := by
  induction h with
  | nil s => exact h'
  | cons ha _ ih => exact .cons ha (ih h')

theorem peek_of_peek {c : Option Char} (h : s.peek = ⟨.ok c, s'⟩) : s'.peek = ⟨.ok c, s'⟩ := by
  cases PeekCase.of_eq h with
  | full hs => simp [peek, hs]
  | @read _ reader hs hr =>
    cases c with
    | some d => simp [peek]
    | none => simp [peek, Reader.read_of_read_none hr]

theorem hasMore_eq_false_iff : s.hasMore = false ↔
    s.slot = none ∧ s.reader.pending = [] ∧ s.reader.isOpen = false := by
  rw [← Reader.exhausted_iff]
  simp [hasMore]

theorem peek_of_not_hasMore (hm : s.hasMore = false) : s.peek = ⟨.ok none, s⟩ := by
  obtain ⟨hs, hp, ho⟩ := hasMore_eq_false_iff.1 hm
  rw [peek, hs]
  simp only [Reader.read_of_closed hp ho]
  rw [← hs]

theorem hasMore_of_peek_none (hp : s.peek = ⟨.ok none, s'⟩) : s'.hasMore = false := by
  cases PeekCase.of_eq hp with
  | read hs hr => exact hasMore_eq_false_iff.2 ⟨rfl, Reader.closed_of_read_none hr⟩

structure SameSetting (s s' : Lexer) : Prop where
  options : s'.options = s.options
  filename : s'.filename = s.filename

theorem SameSetting.refl (s : Lexer) : s.SameSetting s := ⟨rfl, rfl⟩

theorem SameSetting.trans (h : s.SameSetting s₁) (h' : s₁.SameSetting s') : s.SameSetting s' :=
  ⟨h'.options.trans h.options, h'.filename.trans h.filename⟩

theorem sameSetting_take (s : Lexer) (c : Char) : s.SameSetting (s.take c) := ⟨rfl, rfl⟩

theorem sameSetting_peek (s : Lexer) : s.SameSetting s.peek.state := by
  have hc := peekCase_peek s
  generalize s.peek = step at hc
  cases hc with
  | full hs => exact .refl s
  | read hs hr =>
    have hf := Reader.filename_read s.reader (some s.line)
    rw [hr] at hf
    exact ⟨rfl, hf⟩
  | fault hs hr =>
    have hf := Reader.filename_read s.reader (some s.line)
    rw [hr] at hf
    exact ⟨rfl, hf⟩

theorem line_peek (s : Lexer) : s.peek.state.line = s.line := by
  have hc := peekCase_peek s
  generalize s.peek = step at hc
  cases hc <;> rfl

theorem SameSetting.of_peek {c : Except Fault (Option Char)} (h : s.peek = ⟨c, s'⟩) :
    s.SameSetting s' := by
  have hs := sameSetting_peek s
  rwa [h] at hs

theorem line_of_peek {c : Except Fault (Option Char)} (h : s.peek = ⟨c, s'⟩) :
    s'.line = s.line := by
  have hl := line_peek s
  rwa [h] at hl

theorem Takes.sameSetting (h : s.Takes cs s') : s.SameSetting s' := by
  induction h with
  | nil s => exact .refl s
  | cons ha _ ih =>
    obtain ⟨s₁, hp, rfl⟩ := exists_peek_of_advance_some ha
    exact ((SameSetting.of_peek hp).trans (sameSetting_take s₁ _)).trans ih

theorem Takes.line_eq (h : s.Takes cs s') : s'.line = s.line + Segment.newlines cs := by
  induction h with
  | nil s => simp [Segment.newlines]
  | @cons s _ s' c cs ha _ ih =>
    obtain ⟨s₁, hp, rfl⟩ := exists_peek_of_advance_some ha
    rw [ih, Segment.newlines, Segment.newlines, List.count_cons, take, line_of_peek hp]
    by_cases hc : c = '\n'
    · simp [hc]
      omega
    · simp [hc]

theorem takeRun_of_peek {p : Char → Bool} {taken : List Char} {c : Option Char}
    (h : s.peek = ⟨.ok c, s'⟩) : takeRun p taken s' = takeRun p taken s := by
  rw [takeRun, takeRun, h, peek_of_peek h]

/-- All that taking a run can do: the characters taken have the property, and the run ends in front
of one that has not, at the end of the input or at a fault. -/
inductive RunCase (p : Char → Bool) (taken : List Char) (s : Lexer) :
    Step Fault Lexer (List Char) → Prop
  | ended {run : List Char} {next : Option Char} {s₁ s₂ : Lexer} (ht : s.Takes run s₁)
      (hrun : ∀ c ∈ run, p c = true) (hp : s₁.peek = ⟨.ok next, s₂⟩)
      (hn : ∀ d ∈ next, p d = false) : RunCase p taken s ⟨.ok (taken.reverse ++ run), s₂⟩
  | fault {run : List Char} {e : Fault} {s₁ s₂ : Lexer} (ht : s.Takes run s₁)
      (hrun : ∀ c ∈ run, p c = true) (hp : s₁.peek = ⟨.error e, s₂⟩) :
      RunCase p taken s ⟨.error e, s₂⟩

theorem RunCase.cons {p : Char → Bool} {taken : List Char} {c : Char}
    {step : Step Fault Lexer (List Char)} (ha : s.advance = ⟨.ok (some c), s'⟩)
    (hc : p c = true) (h : RunCase p (c :: taken) s' step) : RunCase p taken s step := by
  cases h with
  | ended ht hrun hp hn =>
    rw [List.reverse_cons, List.append_assoc, List.singleton_append]
    exact .ended (.cons ha ht) (by simpa [hc] using hrun) hp hn
  | fault ht hrun hp => exact .fault (.cons ha ht) (by simpa [hc] using hrun) hp

theorem RunCase.stop {p : Char → Bool} {taken : List Char} {next : Option Char}
    (hp : s.peek = ⟨.ok next, s'⟩) (hn : ∀ d ∈ next, p d = false) :
    RunCase p taken s ⟨.ok taken.reverse, s'⟩ := by
  have hc : RunCase p taken s ⟨.ok (taken.reverse ++ []), s'⟩ := .ended (.nil s) (by simp) hp hn
  rwa [List.append_nil] at hc

theorem takeRun_cases (p : Char → Bool) (taken : List Char) (s : Lexer) :
    RunCase p taken s (takeRun p taken s) := by
  fun_induction takeRun p taken s with
  | case1 taken s e s' h => exact .fault (.nil s) (by simp) h
  | case2 taken s s' h => exact .stop h (by simp)
  | case3 taken s c s' h hc ih => exact ih.cons (advance_of_peek_some h) hc
  | case4 taken s c s' h hc => exact .stop h (by simpa using hc)

inductive LineCase (taken : List Char) (s : Lexer) : Step Fault Lexer (List Char) → Prop
  | stopped {line : List Char} {s₁ : Lexer} (ht : s.Takes (line ++ ['\n']) s₁)
      (hn : '\n' ∉ line) : LineCase taken s ⟨.ok (taken.reverse ++ line), s₁⟩
  | ended {line : List Char} {s₁ s₂ : Lexer} (ht : s.Takes line s₁) (hn : '\n' ∉ line)
      (hp : s₁.peek = ⟨.ok none, s₂⟩) : LineCase taken s ⟨.ok (taken.reverse ++ line), s₂⟩
  | fault {line : List Char} {e : Fault} {s₁ s₂ : Lexer} (ht : s.Takes line s₁)
      (hn : '\n' ∉ line) (hp : s₁.peek = ⟨.error e, s₂⟩) : LineCase taken s ⟨.error e, s₂⟩

theorem LineCase.cons {taken : List Char} {c : Char} {step : Step Fault Lexer (List Char)}
    (ha : s.advance = ⟨.ok (some c), s'⟩) (hc : c ≠ '\n') (h : LineCase (c :: taken) s' step) :
    LineCase taken s step := by
  cases h with
  | @stopped line _ ht hn =>
    rw [List.reverse_cons, List.append_assoc, List.singleton_append]
    exact .stopped (.cons ha ht) (by simp [hn, hc.symm])
  | @ended line _ _ ht hn hp =>
    rw [List.reverse_cons, List.append_assoc, List.singleton_append]
    exact .ended (.cons ha ht) (by simp [hn, hc.symm]) hp
  | fault ht hn hp => exact .fault (.cons ha ht) (by simp [hn, hc.symm]) hp

theorem takeLine_cases (taken : List Char) (s : Lexer) :
    LineCase taken s (takeLine taken s) := by
  fun_induction takeLine taken s with
  | case1 taken s e s' h => exact .fault (.nil s) (by simp) (peek_of_advance_error h)
  | case2 taken s s' h =>
    have hc : LineCase taken s ⟨.ok (taken.reverse ++ []), s'⟩ :=
      .ended (.nil s) (by simp) (peek_of_advance_none h)
    rwa [List.append_nil] at hc
  | case3 taken s s' h =>
    have hc : LineCase taken s ⟨.ok (taken.reverse ++ []), s'⟩ := .stopped (.single h) (by simp)
    rwa [List.append_nil] at hc
  | case4 taken s c s' h hc ih => exact ih.cons h hc

inductive LiteralCase (taken : List Char) (s : Lexer) : Step Fault Lexer Literal → Prop
  | closed {body : List Char} {s₁ : Lexer} (ht : s.Takes (body ++ [quoteMark]) s₁)
      (hb : Segment.StringBody body) :
      LiteralCase taken s ⟨.ok (.closed (taken.reverse ++ body)), s₁⟩
  | ended {body : List Char} {s₁ s₂ : Lexer} (ht : s.Takes body s₁) (hb : Segment.Unclosed body)
      (hp : s₁.peek = ⟨.ok none, s₂⟩) :
      LiteralCase taken s ⟨.ok (.cutOff (taken.reverse ++ body)), s₂⟩
  | fault {body : List Char} {e : Fault} {s₁ s₂ : Lexer} (ht : s.Takes body s₁)
      (hb : Segment.Unclosed body) (hp : s₁.peek = ⟨.error e, s₂⟩) :
      LiteralCase taken s ⟨.error e, s₂⟩

theorem LiteralCase.plain {taken : List Char} {c : Char} {step : Step Fault Lexer Literal}
    (ha : s.advance = ⟨.ok (some c), s'⟩) (hq : c ≠ quoteMark) (he : c ≠ escapeMark)
    (h : LiteralCase (c :: taken) s' step) : LiteralCase taken s step := by
  cases h with
  | closed ht hb =>
    rw [List.reverse_cons, List.append_assoc, List.singleton_append]
    exact .closed (.cons ha ht) (.plain hq he hb)
  | ended ht hb hp =>
    rw [List.reverse_cons, List.append_assoc, List.singleton_append]
    exact .ended (.cons ha ht) (hb.plain hq he) hp
  | fault ht hb hp => exact .fault (.cons ha ht) (hb.plain hq he) hp

theorem LiteralCase.escaped {taken : List Char} {d : Char} {step : Step Fault Lexer Literal}
    (ha : s.advance = ⟨.ok (some escapeMark), s₁⟩) (hd : s₁.advance = ⟨.ok (some d), s₂⟩)
    (h : LiteralCase (d :: escapeMark :: taken) s₂ step) : LiteralCase taken s step := by
  cases h with
  | closed ht hb =>
    simp only [List.reverse_cons, List.append_assoc, List.cons_append, List.nil_append]
    exact .closed (.cons ha (.cons hd ht)) (.escaped hb)
  | ended ht hb hp =>
    simp only [List.reverse_cons, List.append_assoc, List.cons_append, List.nil_append]
    exact .ended (.cons ha (.cons hd ht)) hb.escaped hp
  | fault ht hb hp => exact .fault (.cons ha (.cons hd ht)) hb.escaped hp

theorem takeLiteral_cases (taken : List Char) (s : Lexer) :
    LiteralCase taken s (takeLiteral taken s) := by
  fun_induction takeLiteral taken s with
  | case1 taken s e s₁ h =>
    exact .fault (.nil s) Segment.StringBody.nil.unclosed (peek_of_advance_error h)
  | case2 taken s s₁ h =>
    have hc : LiteralCase taken s ⟨.ok (.cutOff (taken.reverse ++ [])), s₁⟩ :=
      .ended (.nil s) Segment.StringBody.nil.unclosed (peek_of_advance_none h)
    rwa [List.append_nil] at hc
  | case3 taken s s₁ h =>
    have hc : LiteralCase taken s ⟨.ok (.closed (taken.reverse ++ [])), s₁⟩ :=
      .closed (.single h) .nil
    rwa [List.append_nil] at hc
  | case4 taken s s₁ e s₂ h' h hq =>
    exact .fault (.single h) Segment.unclosed_escapeMark (peek_of_advance_error h')
  | case5 taken s s₁ s₂ h' h hq =>
    rw [List.reverse_cons]
    exact .ended (.single h) Segment.unclosed_escapeMark (peek_of_advance_none h')
  | case6 taken s s₁ d s₂ h' h hq ih => exact ih.escaped h h'
  | case7 taken s c s₁ h hq he ih => exact ih.plain h hq he

end Lexer
end RpalLexer
