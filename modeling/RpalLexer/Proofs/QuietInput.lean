import RpalLexer.Lexer.Origin
import RpalLexer.Proofs.Consumption

/-!
# Input that does not fail

Over a reader whose reads and whose closing never fail, all that a lexer will see is known: what
waits in the slot and what the reader has to come. Main statement: a call cuts the first segment off
the text ahead (`Lexer.nextToken_of_ahead`).
-/
namespace RpalLexer
namespace Lexer

variable {s s' : Lexer} {c : Char} {cs : List Char}

def ahead (s : Lexer) : List Char := s.slot.toList ++ s.reader.upcoming

def Quiet (s : Lexer) : Prop := s.reader.Quiet

theorem Quiet.of_peek {c : Except Fault (Option Char)} (h : s.Quiet) (hp : s.peek = ⟨c, s'⟩) :
    s'.Quiet := by
  cases PeekCase.of_eq hp with
  | full hs => exact h
  | read hs hr =>
    have hq := Reader.Quiet.read h (some s.line)
    rwa [hr] at hq
  | fault hs hr =>
    have hq := Reader.Quiet.read h (some s.line)
    rwa [hr] at hq

theorem Quiet.peek_ne_error (h : s.Quiet) (e : Fault) : s.peek ≠ ⟨.error e, s'⟩ := by
  intro hp
  cases PeekCase.of_eq hp with
  | fault hs hr =>
    have he := h.read_ne_error (some s.line) e
    rw [hr] at he
    exact he rfl

theorem Quiet.takes (h : s.Quiet) (ht : s.Takes cs s') : s'.Quiet := by
  induction ht with
  | nil s => exact h
  | cons ha _ ih =>
    obtain ⟨s₁, hp, rfl⟩ := exists_peek_of_advance_some ha
    have hq : s₁.Quiet := h.of_peek hp
    exact ih hq

theorem head?_ahead_of_peek {c : Option Char} (hp : s.peek = ⟨.ok c, s'⟩) :
    s.ahead.head? = c := by
  cases PeekCase.of_eq hp with
  | full hs => simp [ahead, hs]
  | read hs hr =>
    cases c with
    | some c => simp [ahead, hs, Reader.upcoming_of_read_some hr]
    | none =>
      have hn : s.reader.upcoming = [] := Reader.upcoming_eq_nil (some s.line) (by simp [hr])
      simp [ahead, hs, hn]

theorem ahead_of_peek {c : Option Char} (hp : s.peek = ⟨.ok c, s'⟩) : s'.ahead = s.ahead := by
  cases PeekCase.of_eq hp with
  | full hs => rfl
  | @read _ reader hs hr =>
    cases c with
    | some c => simp [ahead, hs, Reader.upcoming_of_read_some hr]
    | none =>
      have hn : s.reader.upcoming = [] := Reader.upcoming_eq_nil (some s.line) (by simp [hr])
      have hn' : reader.upcoming = [] :=
        Reader.upcoming_eq_nil none (by simp [Reader.read_of_read_none hr])
      simp [ahead, hs, hn, hn']

theorem ahead_take (h : s.slot = some c) : s.ahead = c :: (s.take c).ahead := by
  simp [ahead, take, h]

theorem Takes.ahead_eq (h : s.Takes cs s') : s.ahead = cs ++ s'.ahead := by
  induction h with
  | nil s => rfl
  | cons ha _ ih =>
    obtain ⟨s₁, hp, rfl⟩ := exists_peek_of_advance_some ha
    rw [← ahead_of_peek hp, ahead_take (slot_of_peek hp), ih, List.cons_append]

theorem Alike.ahead_eq (h : s.Alike s') : s'.ahead = s.ahead := by
  obtain ⟨reader, ha, rfl⟩ := h
  simp only [ahead, ha.upcoming_eq]

theorem Alike.hasMore_eq (h : s.Alike s') : s'.hasMore = s.hasMore := by
  obtain ⟨reader, ha, rfl⟩ := h
  simp only [hasMore, ha.exhausted_eq]

theorem Quiet.ahead_of_moves {given used : List Char} (hq : s.Quiet) (h : s.Moves given used s') :
    s.ahead = used ++ s'.ahead := by
  rw [ahead, Reader.Quiet.upcoming_of_delivers hq h.delivers, ← List.append_assoc, h.balance,
    List.append_assoc, ahead]

theorem Quiet.alike (h : s.Quiet) (ha : s.Alike s') : s'.Quiet := by
  obtain ⟨reader, ha, rfl⟩ := ha
  exact Reader.Quiet.alike h ha

theorem hasMore_of_ahead (h : s.ahead = c :: cs) : s.hasMore = true := by
  by_contra hm
  have hm : s.hasMore = false := by simpa using hm
  have hh := head?_ahead_of_peek (peek_of_not_hasMore hm)
  simp [h] at hh

/-- `s.Passes source rest s'`: from `s` to `s'` the text `source` is passed and `rest` is ahead. -/
structure Passes (s : Lexer) (source rest : List Char) (s' : Lexer) : Prop where
  quiet : s'.Quiet
  ahead : s'.ahead = rest
  line : s'.line = s.line + Segment.newlines source
  setting : s.SameSetting s'

theorem Passes.alike {source rest : List Char} {s₁ : Lexer} (h : s.Passes source rest s₁)
    (ha : s₁.Alike s') : s.Passes source rest s' where
  quiet := h.quiet.alike ha
  ahead := ha.ahead_eq.trans h.ahead
  line := ha.line_eq.trans h.line
  setting := h.setting.trans ha.sameSetting

theorem Quiet.passes_of_takes (hq : s.Quiet) (ht : s.Takes cs s') : s.Passes cs s'.ahead s' where
  quiet := hq.takes ht
  ahead := rfl
  line := ht.line_eq
  setting := ht.sameSetting

theorem Quiet.passes_of_takes_peek {s₁ : Lexer} {d : Option Char} (hq : s.Quiet)
    (ht : s.Takes cs s₁) (hp : s₁.peek = ⟨.ok d, s'⟩) : s.Passes cs s₁.ahead s' where
  quiet := (hq.takes ht).of_peek hp
  ahead := ahead_of_peek hp
  line := (line_of_peek hp).trans ht.line_eq
  setting := ht.sameSetting.trans (.of_peek hp)

theorem answer_of_ahead (hq : s.Quiet) (ha : s.ahead = c :: cs) :
    ∃ s', s.nextToken = s'.answer s.line (Segment.first c cs).content ∧
      s.Passes (Segment.first c cs).source (Segment.first c cs).rest s' ∧
      (Segment.isOpen (Segment.first c cs).source (Segment.first c cs).content = true →
        (Segment.first c cs).rest = [] → s'.hasMore = false) := by
  obtain ⟨source, hc⟩ := nextToken_cases s
  generalize s.nextToken = step at hc
  cases hc with
  | ended hp =>
    have hh := head?_ahead_of_peek hp
    simp [ha] at hh
  | unread hp => exact absurd hp (hq.peek_ne_error _)
  | @whole content _ s' hcut ho ht =>
    rw [(hcut s'.ahead).first_eq (ht.ahead_eq.symm.trans ha)]
    exact ⟨s', rfl, hq.passes_of_takes ht, fun h => by simp [ho] at h⟩
  | @delimited content _ next s₁ s' hcut ho ht hp =>
    -- What ends the segment was only looked at, so it is still ahead.
    have hh := head?_ahead_of_peek hp
    rw [(hcut s₁.ahead hh).first_eq (ht.ahead_eq.symm.trans ha)]
    refine ⟨s', rfl, hq.passes_of_takes_peek ht hp, fun _ hr => ?_⟩
    rw [show s₁.ahead = [] from hr] at hh
    subst hh
    exact hasMore_of_peek_none hp
  | broken hcut ho ht hp => exact absurd hp ((hq.takes ht).peek_ne_error _)

theorem SameSetting.outcome_eq (h : s.SameSetting s') (line : Int) (g : Segment) :
    g.outcome s'.options s'.filename line = g.outcome s.options s.filename line := by
  rw [h.options, h.filename]

/-- A call cuts the first segment off the text ahead and gives what the policies make of it. If only
the end of the text shows that the segment is complete, that end has been seen. -/
theorem nextToken_of_ahead (hq : s.Quiet) (ha : s.ahead = c :: cs) :
    ∃ s', s.nextToken =
        ⟨((Segment.first c cs).outcome s.options s.filename s.line).mapError .scan, s'⟩ ∧
      s.Passes (Segment.first c cs).source (Segment.first c cs).rest s' ∧
      (Segment.isOpen (Segment.first c cs).source (Segment.first c cs).content = true →
        (Segment.first c cs).rest = [] → s'.hasMore = false) := by
  obtain ⟨s₁, hn, hp, he⟩ := answer_of_ahead hq ha
  have hr := result_answer s₁ s.line (Segment.first c cs)
  have hal := alike_answer s₁ s.line (Segment.first c cs).content
  rw [← hn] at hr hal
  rw [hp.setting.outcome_eq] at hr
  refine ⟨s.nextToken.state, ?_, hp.alike hal, ?_⟩
  · rw [← hr]
  · rwa [hal.hasMore_eq]

theorem not_takes_of_ahead_nil (ha : s.ahead = []) (hcs : cs ≠ []) : ¬s.Takes cs s' := by
  intro ht
  have happ := ht.ahead_eq
  rw [ha] at happ
  exact hcs (List.append_eq_nil_iff.1 happ.symm).1

theorem nextToken_of_ahead_nil (hq : s.Quiet) (ha : s.ahead = []) :
    ∃ s', s.nextToken = ⟨.ok none, s'⟩ ∧ s'.hasMore = false ∧ s.Passes [] [] s' := by
  obtain ⟨source, hc⟩ := nextToken_cases s
  generalize s.nextToken = step at hc
  cases hc with
  | ended hp =>
    have hpass := hq.passes_of_takes_peek (.nil s) hp
    rw [ha] at hpass
    exact ⟨_, rfl, hasMore_of_peek_none hp, hpass⟩
  | unread hp => exact absurd hp (hq.peek_ne_error _)
  | whole hcut ho ht => exact absurd ht (not_takes_of_ahead_nil ha (hcut []).source_ne_nil)
  | @delimited _ _ next _ _ hcut ho ht hp =>
    have hne := (hcut next.toList (by cases next <;> rfl)).source_ne_nil
    exact absurd ht (not_takes_of_ahead_nil ha hne)
  | broken hcut ho ht hp => exact absurd ht (not_takes_of_ahead_nil ha hcut.source_ne_nil)

theorem quiet_ofString (text filename : String) (o : Options) :
    (ofString text filename o).Quiet :=
  (Reader.textLeft_ofText text.toList filename o.readErrors).quiet

theorem ahead_ofString (text filename : String) (o : Options) :
    (ofString text filename o).ahead = text.toList :=
  (Reader.textLeft_ofText text.toList filename o.readErrors).upcoming_eq

end Lexer
end RpalLexer
