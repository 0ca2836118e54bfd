import RpalLexer.Lexer.Cursor
import RpalLexer.Proofs.CallSegment

/-!
# Lexers side by side

Two lexers whose readers give the same characters cut the same segments off, and two lexers whose
readers cannot be told apart answer every call alike. Both are stated for any relation between
readers that reading keeps. Main statements: `Lexer.Beside.call` and `Lexer.Twin.nextToken`.
-/
namespace RpalLexer

structure Step.Match {ε σ α : Type} (R : σ → σ → Prop) (a b : Step ε σ α) : Prop where
  result : b.result = a.result
  state : R a.state b.state

theorem Step.Match.exists_eq {ε σ α : Type} {R : σ → σ → Prop} {a b : Step ε σ α}
    {result : Except ε α} {x : σ} (h : Step.Match R a b) (ha : a = ⟨result, x⟩) :
    ∃ y, b = ⟨result, y⟩ ∧ R x y := by
  subst ha
  obtain ⟨result', y⟩ := b
  have hr : result' = result := h.result
  exact ⟨y, by rw [hr], h.state⟩

namespace Reader

/-- Related readers give the same character or both give none, and are related after a
character. -/
def Together (R : Reader → Reader → Prop) : Prop :=
  ∀ r r' line, R r r' →
    (∃ c r₁ r₁', r.read line = ⟨.ok (some c), r₁⟩ ∧ r'.read line = ⟨.ok (some c), r₁'⟩ ∧ R r₁ r₁') ∨
    (∀ c, (r.read line).result ≠ .ok (some c)) ∧ ∀ c, (r'.read line).result ≠ .ok (some c)

/-- Related readers cannot be told apart by what a lexer does with them. -/
structure Bisimulation (R : Reader → Reader → Prop) : Prop where
  filename : ∀ {r r'}, R r r' → r'.filename = r.filename
  exhausted : ∀ {r r'}, R r r' → r'.exhausted = r.exhausted
  read : ∀ {r r'} line, R r r' → Step.Match R (r.read line) (r'.read line)
  close : ∀ {r r'}, R r r' → Step.Match R r.close r'.close
  dropped : ∀ {r r'} location c, R r r' →
    R (r.note (.droppedChar location c)) (r'.note (.droppedChar location c))
  discarded : ∀ {r r'} location fragment, R r r' →
    R (r.note (.discardedString location fragment)) (r'.note (.discardedString location fragment))

theorem Bisimulation.together {R : Reader → Reader → Prop} (hR : Bisimulation R) : Together R := by
  intro r r' line h
  cases hr : r.read line with
  | mk result r₁ =>
    obtain ⟨r₁', hr', h₁⟩ := (hR.read line h).exists_eq hr
    rw [hr']
    match result with
    | .ok (some c) => exact Or.inl ⟨c, r₁, r₁', rfl, rfl, h₁⟩
    | .ok none => exact Or.inr ⟨by simp, by simp⟩
    | .error e => exact Or.inr ⟨by simp, by simp⟩

theorem ReadCase.relog {r : Reader} {line : Option Int} {step : Step Fault Reader (Option Char)}
    (h : ReadCase r line step) (log : List Event) :
    ∃ log', ReadCase { r with log } line ⟨step.result, { step.state with log := log' }⟩ := by
  cases h with
  | waiting hp => exact ⟨log, .waiting hp⟩
  | closed hp ho => exact ⟨log, .closed hp ho⟩
  | piece hp ho hn => exact ⟨log, .piece hp ho hn⟩
  | ended hp ho hn hc => exact ⟨_, .ended hp ho hn hc⟩
  | endedBadly hp ho hn hc => exact ⟨_, .endedBadly hp ho hn hc⟩
  | reported hp ho hn hf hc hr => exact ⟨log, .reported hp ho hn hf hc hr⟩
  | passedOver hp ho hn hf hc hr => exact ⟨_, .passedOver hp ho hn hf hc hr⟩
  | failedBadly hp ho hn hf hc => exact ⟨log, .failedBadly hp ho hn hf hc⟩
  | otherFailure hp ho hn hf => exact ⟨log, .otherFailure hp ho hn hf⟩

theorem Alike.read_match {r r' : Reader} (h : r.Alike r') (line : Option Int) :
    Step.Match Alike (r.read line) (r'.read line) := by
  obtain ⟨log, rfl⟩ := h
  obtain ⟨log', hc⟩ := (readCase_read r line).relog log
  rw [hc.read_eq]
  exact ⟨rfl, log', rfl⟩

theorem Alike.close_match {r r' : Reader} (h : r.Alike r') :
    Step.Match Alike r.close r'.close := by
  refine ⟨h.result_close, ?_⟩
  obtain ⟨log, rfl⟩ := h
  unfold close
  split
  · exact ⟨log, rfl⟩
  · exact ⟨log, rfl⟩

theorem bisimulation_alike : Bisimulation Alike where
  filename := Alike.filename_eq
  exhausted := Alike.exhausted_eq
  read line h := h.read_match line
  close := Alike.close_match
  dropped _ _ h := ((alike_note _ _).symm.trans h).trans (alike_note _ _)
  discarded _ _ h := ((alike_note _ _).symm.trans h).trans (alike_note _ _)

end Reader

namespace Lexer

variable {R : Reader → Reader → Prop} {s s' s₁ : Lexer} {cs rest source : List Char}
  {content : Content}

structure Beside (R : Reader → Reader → Prop) (s s' : Lexer) : Prop where
  reader : R s.reader s'.reader
  slot : s'.slot = s.slot
  line : s'.line = s.line

def AtNoChar (s : Lexer) : Prop := ∀ c, s.peek.result ≠ .ok (some c)

theorem AtNoChar.admits_iff (h : s.AtNoChar) : s.Admits rest ↔ rest = [] := by
  cases hp : s.peek with
  | mk result s₁ =>
    match result with
    | .ok (some c) => exact absurd (by rw [hp]) (h c)
    | .ok none => rw [admits_of_peek_ok hp, List.head?_eq_none_iff]
    | .error e => exact admits_of_peek_error hp

theorem atNoChar_of_admits_nil (h : s.Admits []) : s.AtNoChar := by
  intro c hr
  cases hp : s.peek with
  | mk result s₁ =>
    have hr : result = .ok (some c) := by rwa [hp] at hr
    subst hr
    simpa using (admits_of_peek_ok hp).1 h

theorem peek_of_slot {c : Char} (hs : s.slot = some c) : s.peek = ⟨.ok (some c), s⟩ := by
  simp [Lexer.peek, hs]

theorem peek_of_read_ok {c : Option Char} {reader : Reader} (hs : s.slot = none)
    (hr : s.reader.read (some s.line) = ⟨.ok c, reader⟩) :
    s.peek = ⟨.ok c, { s with reader, slot := c }⟩ := by
  simp [Lexer.peek, hs, hr]

theorem peek_of_read_error {e : Fault} {reader : Reader} (hs : s.slot = none)
    (hr : s.reader.read (some s.line) = ⟨.error e, reader⟩) :
    s.peek = ⟨.error e, { s with reader }⟩ := by
  simp [Lexer.peek, hs, hr]

theorem atNoChar_of_read (hs : s.slot = none)
    (hn : ∀ c, (s.reader.read (some s.line)).result ≠ .ok (some c)) : s.AtNoChar := by
  intro c
  cases hr : s.reader.read (some s.line) with
  | mk result reader =>
    have hn := hn c
    rw [hr] at hn
    cases result with
    | ok next => rwa [peek_of_read_ok hs hr]
    | error e => simp [peek_of_read_error hs hr]

theorem Beside.peek_cases (hR : Reader.Together R) (h : s.Beside R s') :
    (∃ c s₁ s₁', s.peek = ⟨.ok (some c), s₁⟩ ∧ s'.peek = ⟨.ok (some c), s₁'⟩ ∧ s₁.Beside R s₁') ∨
      s.AtNoChar ∧ s'.AtNoChar := by
  cases hs : s.slot with
  | some c => exact Or.inl ⟨c, s, s', peek_of_slot hs, peek_of_slot (h.slot.trans hs), h⟩
  | none =>
    have hs' : s'.slot = none := h.slot.trans hs
    rcases hR _ _ (some s.line) h.reader with ⟨c, r, r', hr, hr', hrel⟩ | ⟨hn, hn'⟩
    · rw [← h.line] at hr'
      exact Or.inl ⟨c, _, _, peek_of_read_ok hs hr, peek_of_read_ok hs' hr', hrel, rfl, h.line⟩
    · rw [← h.line] at hn'
      exact Or.inr ⟨atNoChar_of_read hs hn, atNoChar_of_read hs' hn'⟩

theorem Beside.take (h : s.Beside R s') (c : Char) : (s.take c).Beside R (s'.take c) where
  reader := h.reader
  slot := rfl
  line := by simp only [Lexer.take, h.line]

theorem Beside.takes (hR : Reader.Together R) (h : s.Beside R s') (ht : s.Takes cs s₁) :
    ∃ s₁', s'.Takes cs s₁' ∧ s₁.Beside R s₁' := by
  induction ht generalizing s' with
  | nil s => exact ⟨s', .nil s', h⟩
  | cons ha _ ih =>
    obtain ⟨s₂, hp, rfl⟩ := exists_peek_of_advance_some ha
    rcases h.peek_cases hR with ⟨c, s₃, s₃', hp₃, hp₃', h₃⟩ | ⟨hn, -⟩
    · cases hp.symm.trans hp₃
      obtain ⟨s₁', ht', h'⟩ := ih (h₃.take _)
      exact ⟨s₁', .cons (advance_of_peek_some hp₃') ht', h'⟩
    · exact absurd (by rw [hp]) (hn _)

theorem Beside.admits_iff (hR : Reader.Together R) (h : s.Beside R s') :
    s'.Admits rest ↔ s.Admits rest := by
  rcases h.peek_cases hR with ⟨c, s₁, s₁', hp, hp', -⟩ | ⟨hn, hn'⟩
  · rw [admits_of_peek_ok hp, admits_of_peek_ok hp']
  · rw [hn.admits_iff, hn'.admits_iff]

theorem Beside.cuts (hR : Reader.Together R) (h : s.Beside R s')
    (hc : s.Cuts content source s₁) : ∃ s₁', s'.Cuts content source s₁' ∧ s₁.Beside R s₁' := by
  obtain ⟨s₁', ht, h₁⟩ := h.takes hR hc.takes
  exact ⟨s₁', ⟨ht, fun rest hr => hc.cut rest ((h₁.admits_iff hR).1 hr)⟩, h₁⟩

/-- Side by side, two lexers cut the same segment off, or neither has a character to start with. -/
theorem Beside.call (hR : Reader.Together R) (h : s.Beside R s') :
    (∃ content source s₁ s₁', s.Cuts content source s₁ ∧ s'.Cuts content source s₁' ∧
      s₁.Beside R s₁') ∨ s.AtNoChar ∧ s'.AtNoChar := by
  rcases h.peek_cases hR with ⟨c, s₁, -, hp, -, -⟩ | hn
  · obtain ⟨content, source, s₂, hc⟩ := exists_cuts hp
    obtain ⟨s₂', hc', h₂⟩ := h.cuts hR hc
    exact Or.inl ⟨content, source, s₂, s₂', hc, hc', h₂⟩
  · exact Or.inr hn

theorem Cuts.sameSetting (h : s.Cuts content source s₁) : s.SameSetting s₁ := h.takes.sameSetting

structure Twin (R : Reader → Reader → Prop) (s s' : Lexer) : Prop extends Beside R s s' where
  options : s'.options = s.options

section Bisimulation

variable (hR : Reader.Bisimulation R)
include hR

theorem Beside.filename (h : s.Beside R s') : s'.filename = s.filename := hR.filename h.reader

theorem Beside.location (h : s.Beside R s') (line : Int) : s'.location line = s.location line := by
  rw [Lexer.location, Lexer.location, h.filename hR]

theorem Beside.hasMore (h : s.Beside R s') : s'.hasMore = s.hasMore := by
  rw [Lexer.hasMore, Lexer.hasMore, h.slot, hR.exhausted h.reader]

theorem Twin.close (h : s.Twin R s') : Step.Match (Twin R) s.close s'.close := by
  have hc := hR.close h.reader
  refine ⟨?_, ⟨⟨hc.state, rfl, h.line⟩, h.options⟩⟩
  simp only [Lexer.close, Reader.shut, hc.result]

theorem Beside.peek (h : s.Beside R s') : Step.Match (Beside R) s.peek s'.peek := by
  cases hs : s.slot with
  | some c =>
    rw [peek_of_slot hs, peek_of_slot (h.slot.trans hs)]
    exact ⟨rfl, h⟩
  | none =>
    have hs' : s'.slot = none := h.slot.trans hs
    cases hr : s.reader.read (some s.line) with
    | mk result r =>
      obtain ⟨r', hr', hrel⟩ := (hR.read (some s.line) h.reader).exists_eq hr
      rw [← h.line] at hr'
      cases result with
      | ok c =>
        rw [peek_of_read_ok hs hr, peek_of_read_ok hs' hr']
        exact ⟨rfl, hrel, rfl, h.line⟩
      | error e =>
        rw [peek_of_read_error hs hr, peek_of_read_error hs' hr']
        exact ⟨rfl, hrel, h.slot, h.line⟩

theorem Twin.peek (h : s.Twin R s') : Step.Match (Twin R) s.peek s'.peek := by
  obtain ⟨hresult, hstate⟩ := h.toBeside.peek hR
  refine ⟨hresult, hstate, ?_⟩
  rw [(sameSetting_peek s').options, (sameSetting_peek s).options, h.options]

theorem Twin.answer (h : s.Twin R s') (line : Int) (content : Content) :
    Step.Match (Twin R) (s.answer line content) (s'.answer line content) := by
  cases content with
  | lexeme kind text =>
    refine ⟨?_, h⟩
    simp only [Lexer.answer, Lexer.token, h.toBeside.filename hR]
  | unknown c =>
    simp only [Lexer.answer, unknownChar, h.options, h.toBeside.location hR]
    cases s.options.chars with
    | raise => exact ⟨rfl, h⟩
    | drop => exact ⟨rfl, ⟨⟨hR.dropped _ c h.reader, h.slot, h.line⟩, h.options⟩⟩
  | cutOff body =>
    simp only [Lexer.answer, cutOffString, h.options, h.toBeside.location hR]
    cases s.options.strings with
    | raise => exact ⟨rfl, h⟩
    | discard => exact ⟨rfl, ⟨⟨hR.discarded _ _ h.reader, h.slot, h.line⟩, h.options⟩⟩

theorem Beside.conclude_cases (h : s.Beside R s') (line : Int) (source : List Char)
    (content : Content) :
    (∃ t t', s.conclude line source content = t.answer line content ∧
      s'.conclude line source content = t'.answer line content ∧ t.Beside R t' ∧
      s.SameSetting t ∧ s'.SameSetting t' ∧
      (Segment.isOpen source content = true → s.AtNoChar → t.hasMore = false)) ∨
    ∃ e t t', s.conclude line source content = ⟨.error e, t⟩ ∧
      s'.conclude line source content = ⟨.error e, t'⟩ ∧ t.Beside R t' ∧ s.SameSetting t ∧
      s'.SameSetting t' := by
  cases ho : Segment.isOpen source content with
  | false =>
    exact Or.inl ⟨s, s', conclude_of_not_isOpen ho, conclude_of_not_isOpen ho, h, .refl s, .refl s',
      by simp⟩
  | true =>
    cases hp : s.peek with
    | mk result t =>
      obtain ⟨t', hp', ht⟩ := (h.peek hR).exists_eq hp
      cases result with
      | error e =>
        exact Or.inr ⟨e, t, t', conclude_of_peek_error ho hp, conclude_of_peek_error ho hp', ht,
          .of_peek hp, .of_peek hp'⟩
      | ok next =>
        refine Or.inl ⟨t, t', conclude_of_peek_ok ho hp, conclude_of_peek_ok ho hp', ht,
          .of_peek hp, .of_peek hp', fun _ hn => ?_⟩
        cases next with
        | none => exact hasMore_of_peek_none hp
        | some c => exact absurd (by rw [hp]) (hn c)

theorem Twin.conclude (h : s.Twin R s') (line : Int) (source : List Char) (content : Content) :
    Step.Match (Twin R) (s.conclude line source content) (s'.conclude line source content) := by
  rcases h.toBeside.conclude_cases hR line source content with
    ⟨t, t', hc, hc', ht, hs, hs', -⟩ | ⟨e, t, t', hc, hc', ht, hs, hs'⟩
  · have htw : t.Twin R t' := ⟨ht, by rw [hs'.options, h.options, hs.options]⟩
    rw [hc, hc']
    exact htw.answer hR line content
  · rw [hc, hc']
    exact ⟨rfl, ht, by rw [hs'.options, h.options, hs.options]⟩

theorem Twin.nextToken_of_atNoChar (h : s.Twin R s') (hn : s.AtNoChar) :
    Step.Match (Twin R) s.nextToken s'.nextToken := by
  cases hp : s.peek with
  | mk result s₁ =>
    obtain ⟨s₁', hp', h₁⟩ := (h.peek hR).exists_eq hp
    match result with
    | .ok (some c) => exact absurd (by rw [hp]) (hn c)
    | .ok none =>
      rw [nextToken_of_peek_none hp, nextToken_of_peek_none hp']
      exact ⟨rfl, h₁⟩
    | .error e =>
      rw [nextToken_of_peek_error hp, nextToken_of_peek_error hp']
      exact ⟨rfl, h₁⟩

theorem Twin.nextToken (h : s.Twin R s') : Step.Match (Twin R) s.nextToken s'.nextToken := by
  rcases h.toBeside.call hR.together with ⟨content, source, s₁, s₁', hc, hc', h₁⟩ | ⟨hn, -⟩
  · have ht : s₁.Twin R s₁' :=
      ⟨h₁, hc'.sameSetting.options.trans (h.options.trans hc.sameSetting.options.symm)⟩
    rw [hc.nextToken_eq, hc'.nextToken_eq, h.line]
    exact ht.conclude hR s.line source content
  · exact h.nextToken_of_atNoChar hR hn

end Bisimulation

end Lexer
end RpalLexer
