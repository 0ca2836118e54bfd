import RpalLexer.Proofs.Consumption

/-!
# The segment of a call

What a lexer takes and what it meets then say which segment a call cuts off and what it answers, so
the forms of a call exclude one another. Main statement: a segment that the lexer can cut off is the
segment of the next call (`Lexer.Cuts.nextToken_eq`).
-/
namespace RpalLexer
namespace Lexer

variable {s s' s₁ s₂ : Lexer} {cs ds rest : List Char} {content content' : Content}
  {source source' : List Char}

theorem CallCase.sameSetting {step : Step Fault Lexer (Option Token)} (h : CallCase s source step) :
    s.SameSetting step.state := by
  cases h with
  | ended hp => exact .of_peek hp
  | unread hp => exact .of_peek hp
  | whole hc ho ht => exact ht.sameSetting.trans (alike_answer _ _ _).sameSetting
  | delimited hc ho ht hp =>
    exact (ht.sameSetting.trans (.of_peek hp)).trans (alike_answer _ _ _).sameSetting
  | broken hc ho ht hp => exact ht.sameSetting.trans (.of_peek hp)

theorem sameSetting_nextToken (s : Lexer) : s.SameSetting s.nextToken.state := by
  obtain ⟨source, hc⟩ := nextToken_cases s
  exact hc.sameSetting

theorem Takes.compare (h : s.Takes cs s₁) (h' : s.Takes ds s₂) :
    (∃ more, ds = cs ++ more ∧ s₁.Takes more s₂) ∨ ∃ more, cs = ds ++ more ∧ s₂.Takes more s₁ := by
  induction h generalizing ds with
  | nil s => exact Or.inl ⟨ds, rfl, h'⟩
  | @cons s s₁ s' c cs ha ht ih =>
    cases h' with
    | nil => exact Or.inr ⟨c :: cs, rfl, .cons ha ht⟩
    | cons ha' ht' =>
      cases ha.symm.trans ha'
      rcases ih ht' with ⟨more, rfl, hm⟩ | ⟨more, rfl, hm⟩
      · exact Or.inl ⟨more, rfl, hm⟩
      · exact Or.inr ⟨more, rfl, hm⟩

/-- The texts that may follow, as far as a look at the next character tells. -/
def Admits (s : Lexer) (rest : List Char) : Prop :=
  match s.peek.result with
  | .ok next => rest.head? = next
  | .error _ => rest = []

theorem admits_of_peek_ok {next : Option Char} (hp : s.peek = ⟨.ok next, s'⟩) :
    s.Admits rest ↔ rest.head? = next := by
  simp [Admits, hp]

theorem admits_of_peek_error {e : Fault} (hp : s.peek = ⟨.error e, s'⟩) :
    s.Admits rest ↔ rest = [] := by
  simp [Admits, hp]

theorem exists_admits (s : Lexer) : ∃ rest, s.Admits rest := by
  cases hp : s.peek with
  | mk result s' =>
    cases result with
    | error e => exact ⟨[], (admits_of_peek_error hp).2 rfl⟩
    | ok next => exact ⟨next.toList, (admits_of_peek_ok hp).2 (by cases next <;> rfl)⟩

theorem Takes.admits (h : s.Takes cs s') (hr : s'.Admits rest) : s.Admits (cs ++ rest) := by
  cases h with
  | nil => exact hr
  | cons ha _ =>
    obtain ⟨s₁, hp, -⟩ := exists_peek_of_advance_some ha
    exact (admits_of_peek_ok hp).2 rfl

/-- `s.Cuts content source s'`: taking `source` brings the lexer to `s'`, and whatever may follow
there, this is a segment with the content. -/
structure Cuts (s : Lexer) (content : Content) (source : List Char) (s' : Lexer) : Prop where
  takes : s.Takes source s'
  cut : ∀ rest, s'.Admits rest → Segment.Cut content source rest

theorem Cuts.source_ne_nil (h : s.Cuts content source s') : source ≠ [] := by
  obtain ⟨rest, hr⟩ := exists_admits s'
  exact (h.cut rest hr).source_ne_nil

theorem Cuts.eq_of_append {more : List Char} (h : s.Cuts content source s₁)
    (h' : s.Cuts content' (source ++ more) s₂) (hm : s₁.Takes more s₂) :
    content = content' ∧ more = [] := by
  obtain ⟨rest, hr⟩ := exists_admits s₂
  have hc := h.cut (more ++ rest) (hm.admits hr)
  have hc' := h'.cut rest hr
  -- Both are the first segment of one text, and a text has only one.
  obtain ⟨c, cs, htext⟩ := List.exists_cons_of_ne_nil h.source_ne_nil
  have hf : Segment.first c (cs ++ (more ++ rest)) = ⟨content, source, more ++ rest⟩ :=
    hc.first_eq (by rw [htext]; rfl)
  have hf' : Segment.first c (cs ++ (more ++ rest)) = ⟨content', source ++ more, rest⟩ :=
    hc'.first_eq (by rw [htext]; simp)
  have he := Segment.mk.inj (hf.symm.trans hf')
  exact ⟨he.1, by simpa using he.2.2⟩

theorem Cuts.unique (h : s.Cuts content source s₁) (h' : s.Cuts content' source' s₂) :
    content = content' ∧ source = source' ∧ s₁ = s₂ := by
  rcases h.takes.compare h'.takes with ⟨more, rfl, hm⟩ | ⟨more, rfl, hm⟩
  · obtain ⟨hc, rfl⟩ := h.eq_of_append h' hm
    cases hm
    exact ⟨hc, by simp, rfl⟩
  · obtain ⟨hc, rfl⟩ := h'.eq_of_append h hm
    cases hm
    exact ⟨hc.symm, by simp, rfl⟩

/-- What a call answers that has taken the source of a segment: if the segment is open, it first
looks at what follows. -/
def conclude (s : Lexer) (line : Int) (source : List Char) (content : Content) :
    Step Fault Lexer (Option Token) :=
  if Segment.isOpen source content then
    match s.peek with
    | ⟨.error e, s'⟩ => ⟨.error e, s'⟩
    | ⟨.ok _, s'⟩ => s'.answer line content
  else s.answer line content

theorem conclude_of_not_isOpen {line : Int} (ho : Segment.isOpen source content = false) :
    s.conclude line source content = s.answer line content := by
  simp [conclude, ho]

theorem conclude_of_peek_ok {line : Int} {next : Option Char}
    (ho : Segment.isOpen source content = true) (hp : s.peek = ⟨.ok next, s'⟩) :
    s.conclude line source content = s'.answer line content := by
  simp [conclude, ho, hp]

theorem conclude_of_peek_error {line : Int} {e : Fault}
    (ho : Segment.isOpen source content = true) (hp : s.peek = ⟨.error e, s'⟩) :
    s.conclude line source content = ⟨.error e, s'⟩ := by
  simp [conclude, ho, hp]

theorem nextToken_of_peek_none (hp : s.peek = ⟨.ok none, s'⟩) : s.nextToken = ⟨.ok none, s'⟩ := by
  rw [nextToken, advance_of_peek_none hp]

theorem nextToken_of_peek_error {e : Fault} (hp : s.peek = ⟨.error e, s'⟩) :
    s.nextToken = ⟨.error e, s'⟩ := by
  simp [nextToken, advance, hp]

theorem Takes.peek_some (h : s.Takes cs s') (hcs : cs ≠ []) :
    ∃ c s₁, s.peek = ⟨.ok (some c), s₁⟩ := by
  cases h with
  | nil => exact absurd rfl hcs
  | cons ha _ =>
    obtain ⟨s₁, hp, -⟩ := exists_peek_of_advance_some ha
    exact ⟨_, s₁, hp⟩

theorem CallCase.exists_cuts {c : Char} {step : Step Fault Lexer (Option Token)}
    (hp : s.peek = ⟨.ok (some c), s'⟩) (h : CallCase s source step) :
    ∃ content s₁, s.Cuts content source s₁ ∧ step = s₁.conclude s.line source content := by
  cases h with
  | ended hp' => cases hp.symm.trans hp'
  | unread hp' => cases hp.symm.trans hp'
  | whole hc ho ht => exact ⟨_, _, ⟨ht, fun rest _ => hc rest⟩, (conclude_of_not_isOpen ho).symm⟩
  | delimited hc ho ht hp' =>
    refine ⟨_, _, ⟨ht, fun rest hr => ?_⟩, (conclude_of_peek_ok ho hp').symm⟩
    exact hc rest ((admits_of_peek_ok hp').1 hr)
  | broken hc ho ht hp' =>
    refine ⟨_, _, ⟨ht, fun rest hr => ?_⟩, (conclude_of_peek_error ho hp').symm⟩
    rwa [(admits_of_peek_error hp').1 hr]

theorem exists_cuts {c : Char} (hp : s.peek = ⟨.ok (some c), s'⟩) :
    ∃ content source s₁, s.Cuts content source s₁ := by
  obtain ⟨source, hc⟩ := nextToken_cases s
  obtain ⟨content, s₁, hcut, -⟩ := hc.exists_cuts hp
  exact ⟨content, source, s₁, hcut⟩

theorem Cuts.callCase_and_eq (h : s.Cuts content source s₁) :
    CallCase s source s.nextToken ∧ s.nextToken = s₁.conclude s.line source content := by
  obtain ⟨c, s₂, hp⟩ := h.takes.peek_some h.source_ne_nil
  obtain ⟨source', hc⟩ := nextToken_cases s
  obtain ⟨content', s₃, hcut, hn⟩ := hc.exists_cuts hp
  obtain ⟨rfl, rfl, rfl⟩ := h.unique hcut
  exact ⟨hc, hn⟩

theorem Cuts.callCase (h : s.Cuts content source s₁) : CallCase s source s.nextToken :=
  h.callCase_and_eq.1

theorem Cuts.nextToken_eq (h : s.Cuts content source s₁) :
    s.nextToken = s₁.conclude s.line source content :=
  h.callCase_and_eq.2

theorem Cuts.moves (h : s.Cuts content source s₁) :
    ∃ given, s.Moves given source s.nextToken.state :=
  h.callCase.moves

end Lexer
end RpalLexer
