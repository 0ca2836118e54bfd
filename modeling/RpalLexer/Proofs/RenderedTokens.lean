import Mathlib.Data.List.Chain
import RpalLexer.Proofs.TokenShape
import RpalLexer.Proofs.Tokenization

/-!
# Rendered tokens

Under the strict policies the tokens of a text determine it up to a newline at its end, and it is
known of every list of tokens whether some text has it. Main statement: `tokenize_strict_image`.
-/
namespace RpalLexer

def render (ts : List Token) : List Char := ts.flatMap Token.source

/-- `Spells filename line text ts`: the text, which starts on the line, is made of segments that
give the tokens `ts`. -/
inductive Spells (filename : String) : Int → List Char → List Token → Prop
  | nil (line : Int) : Spells filename line [] []
  | cons {t : Token} {source rest : List Char} {ts : List Token}
      (hc : Segment.Cut (.lexeme t.kind t.text.toList) source rest) (hf : t.filename = filename)
      (h : Spells filename (t.line + Segment.newlines source) rest ts) :
      Spells filename t.line (source ++ rest) (t :: ts)

/-- The tokens that some text has when it starts on the line. -/
structure Printable (filename : String) (line : Int) (ts : List Token) : Prop where
  wellFormed : ∀ t ∈ ts, t.WellFormed
  apart : ts.IsChain fun t u => ¬t.Merges u
  lines : ∀ front t back, ts = front ++ t :: back →
    t.line = line + Segment.newlines (render front)
  filenames : ∀ t ∈ ts, t.filename = filename

variable {filename encoding : String} {line : Int} {text : List Char} {t : Token}
  {ts us : List Token}

theorem render_cons (t : Token) (ts : List Token) : render (t :: ts) = t.source ++ render ts := rfl

theorem outcome_strict_eq_ok {g : Segment} :
    g.outcome (.strict encoding) filename line = .ok (some t) ↔
      g.content = .lexeme t.kind t.text.toList ∧ t.line = line ∧ t.filename = filename := by
  obtain ⟨kind, tokenText, tokenLine, name⟩ := t
  unfold Segment.outcome
  cases g.content with
  | lexeme k text =>
    constructor
    · intro h
      cases h
      exact ⟨by simp, rfl, rfl⟩
    · rintro ⟨h, rfl, rfl⟩
      cases h
      simp
  | unknown c => simp [Options.strict]
  | cutOff body => simp [Options.strict]

theorem outcome_strict_ne_none {g : Segment} :
    g.outcome (.strict encoding) filename line ≠ .ok none := by
  unfold Segment.outcome
  cases g.content <;> simp [Options.strict]

theorem spells_of_tokens (h : Segment.tokens (.strict encoding) filename line
    (Segment.all text) = .ok ts) : Spells filename line text ts := by
  induction text using Segment.all.induct generalizing line ts with
  | case1 =>
    rw [Segment.all] at h
    cases h
    exact .nil line
  | case2 c cs ih =>
    rw [Segment.all, Segment.tokens] at h
    cases ho : (Segment.first c cs).outcome (.strict encoding) filename line with
    | error e => simp [ho] at h
    | ok t =>
      cases t with
      | none => exact absurd ho outcome_strict_ne_none
      | some t =>
        obtain ⟨hc, rfl, hf⟩ := outcome_strict_eq_ok.1 ho
        cases hr : Segment.tokens (.strict encoding) filename
          (t.line + Segment.newlines (Segment.first c cs).source)
          (Segment.all (Segment.first c cs).rest) with
        | error e => simp [ho, hr] at h
        | ok us =>
          simp only [ho, hr, Option.toList_some, List.singleton_append] at h
          cases h
          have hfirst : Segment.first c cs = ⟨.lexeme t.kind t.text.toList,
              (Segment.first c cs).source, (Segment.first c cs).rest⟩ := by rw [← hc]
          obtain ⟨hcut, happ⟩ := Segment.first_eq_iff.1 hfirst
          rw [← happ]
          exact .cons hcut hf (ih hr)

theorem Spells.tokens_eq (h : Spells filename line text ts) :
    Segment.tokens (.strict encoding) filename line (Segment.all text) = .ok ts := by
  induction h with
  | nil line =>
    rw [Segment.all]
    rfl
  | @cons t source rest ts hc hf _ ih =>
    obtain ⟨c, cs, hs⟩ := List.exists_cons_of_ne_nil
      (List.append_ne_nil_of_left_ne_nil hc.source_ne_nil rest)
    have hfirst := Segment.first_eq_iff.2 ⟨hc, hs⟩
    have ho : (Segment.first c cs).outcome (.strict encoding) filename t.line = .ok (some t) :=
      outcome_strict_eq_ok.2 ⟨by rw [hfirst], rfl, hf⟩
    rw [hs, Segment.all, Segment.tokens, ho, hfirst, ih]
    rfl

theorem tokenize_strict_iff (text : String) :
    tokenize text filename (.strict encoding) false = .ok ts ↔
      Spells filename 1 text.toList ts := by
  rw [tokenize_eq_textTokens, textTokens]
  constructor
  · intro h
    cases hr : Segment.tokens (.strict encoding) filename 1 (Segment.all text.toList) with
    | error e => simp [hr, Except.mapError, Except.map] at h
    | ok us =>
      simp only [hr, Except.mapError, Except.map, kept_false] at h
      cases h
      exact spells_of_tokens hr
  · intro h
    rw [h.tokens_eq]
    simp only [Except.mapError, Except.map, kept_false]

theorem Spells.nil_right (h : Spells filename line [] ts) : ts = [] := by
  generalize hcs : ([] : List Char) = cs at h
  cases h with
  | nil => rfl
  | cons hc hf h => exact absurd (List.append_eq_nil_iff.1 hcs.symm).1 hc.source_ne_nil

theorem Spells.render_eq (h : Spells filename line text ts) :
    render ts = text ∨ ∃ front t, ts = front ++ [t] ∧ t.IsComment ∧
      text = render front ++ t.text.toList := by
  induction h with
  | nil line => exact Or.inl rfl
  | @cons t source rest ts hc hf h ih =>
    rcases t.source_of_cut hc with hs | ⟨ht, hs, hr⟩
    · rw [render_cons, hs]
      rcases ih with ih | ⟨front, u, hts, hu, hrest⟩
      · exact Or.inl (by rw [ih])
      · refine Or.inr ⟨t :: front, u, by rw [hts]; rfl, hu, ?_⟩
        rw [render_cons, hrest, List.append_assoc]
    · rw [hr] at h
      refine Or.inr ⟨[], t, by rw [h.nil_right]; rfl, ht, ?_⟩
      rw [hs, hr, List.append_nil]
      rfl

theorem render_append (ts us : List Token) : render (ts ++ us) = render ts ++ render us :=
  List.flatMap_append

theorem goesOn_render_iff (hts : ∀ u ∈ ts, u.WellFormed) :
    (∀ u ∈ ts.head?, ¬t.Merges u) ↔ ∀ d ∈ (render ts).head?, ¬t.GoesOn d := by
  cases ts with
  | nil => simp [render]
  | cons u us =>
    have hu := hts u List.mem_cons_self
    obtain ⟨d, cs, hs, -⟩ := Token.exists_starts hu
    have hm := Token.merges_iff (t := t) hu
    simp only [render_cons, hs] at hm ⊢
    simpa using not_congr hm

theorem lines_cons_iff : (∀ front u back, t :: ts = front ++ u :: back →
      u.line = line + Segment.newlines (render front)) ↔
    t.line = line ∧ ∀ front u back, ts = front ++ u :: back →
      u.line = line + Segment.newlines t.source + Segment.newlines (render front) := by
  have happ : ∀ front, line + Segment.newlines (render (t :: front)) =
      line + Segment.newlines t.source + Segment.newlines (render front) := by
    intro front
    rw [render_cons, Segment.newlines_append]
    omega
  constructor
  · intro h
    refine ⟨by simpa [render, Segment.newlines] using h [] t ts rfl, fun front u back hts => ?_⟩
    rw [h (t :: front) u back (by rw [hts]; rfl), happ]
  · rintro ⟨ht, h⟩ front u back heq
    cases front with
    | nil =>
      cases heq
      simpa [render, Segment.newlines] using ht
    | cons v front =>
      cases heq
      rw [happ, h front u back rfl]

theorem printable_cons_iff : Printable filename line (t :: ts) ↔
    t.line = line ∧ t.filename = filename ∧ t.WellFormed ∧
      (∀ d ∈ (render ts).head?, ¬t.GoesOn d) ∧
      Printable filename (line + Segment.newlines t.source) ts := by
  constructor
  · rintro ⟨hw, ha, hl, hf⟩
    rw [List.forall_mem_cons] at hw hf
    rw [List.isChain_cons, goesOn_render_iff hw.2] at ha
    obtain ⟨ht, hl⟩ := lines_cons_iff.1 hl
    exact ⟨ht, hf.1, hw.1, ha.1, hw.2, ha.2, hl, hf.2⟩
  · rintro ⟨ht, htf, htw, hr, hw, ha, hl, hf⟩
    rw [← goesOn_render_iff hw] at hr
    exact ⟨List.forall_mem_cons.2 ⟨htw, hw⟩, List.isChain_cons.2 ⟨hr, ha⟩,
      lines_cons_iff.2 ⟨ht, hl⟩, List.forall_mem_cons.2 ⟨htf, hf⟩⟩

theorem printable_nil (filename : String) (line : Int) : Printable filename line [] := by
  refine ⟨by simp, List.isChain_nil, fun front t back h => ?_, by simp⟩
  simp at h

theorem Spells.head?_render (h : Spells filename line text ts) :
    (render ts).head? = text.head? := by
  cases h with
  | nil => rfl
  | @cons t source rest ts hc hf h =>
    obtain ⟨c, cs, hne⟩ := List.exists_cons_of_ne_nil hc.source_ne_nil
    rcases t.source_of_cut hc with hs | ⟨ht, hs, hr⟩
    · rw [render_cons, ← hs, hne]
      rfl
    · rw [render_cons, Token.source_of_isComment ht, ← hs, hne]
      rfl

theorem Spells.printable (h : Spells filename line text ts) : Printable filename line ts := by
  induction h with
  | nil line => exact printable_nil filename line
  | @cons t source rest ts hc hf h ih =>
    obtain ⟨hw, hr⟩ := Token.wellFormed_of_cut hc
    rw [← h.head?_render] at hr
    rw [printable_cons_iff]
    rcases t.source_of_cut hc with hs | ⟨ht, hs, rfl⟩
    · rw [hs] at ih
      exact ⟨rfl, hf, hw, hr, ih⟩
    · cases h.nil_right
      exact ⟨rfl, hf, hw, hr, printable_nil _ _⟩

theorem Printable.spells (h : Printable filename line ts) :
    Spells filename line (render ts) ts := by
  induction ts generalizing line with
  | nil => exact .nil line
  | cons t ts ih =>
    obtain ⟨rfl, hf, hw, hr, h⟩ := printable_cons_iff.1 h
    exact .cons (Token.cut_source_iff.2 ⟨hw, hr⟩) hf (ih h)

/-- What a text is under the strict policies, told from its tokens, and which lists of tokens are
those of a text. -/
theorem tokenize_strict_image (filename encoding : String) :
    (∀ text ts, tokenize text filename (.strict encoding) false = .ok ts →
      render ts = text.toList ∨ render ts = text.toList ++ ['\n'] ∧
        ∃ front t, ts = front ++ [t] ∧ t.IsComment ∧
          text.toList = render front ++ t.text.toList) ∧
    (∀ ts, (∃ text, tokenize text filename (.strict encoding) false = .ok ts) ↔
      Printable filename 1 ts) ∧
    ∀ ts, Printable filename 1 ts →
      tokenize (String.ofList (render ts)) filename (.strict encoding) false = .ok ts := by
  have hback : ∀ ts, Printable filename 1 ts →
      tokenize (String.ofList (render ts)) filename (.strict encoding) false = .ok ts := by
    intro ts h
    rw [tokenize_strict_iff, String.toList_ofList]
    exact h.spells
  refine ⟨?_, fun ts => ⟨?_, fun h => ⟨_, hback ts h⟩⟩, hback⟩
  · intro text ts h
    rw [tokenize_strict_iff] at h
    rcases h.render_eq with hr | ⟨front, t, hts, ht, htext⟩
    · exact Or.inl hr
    · refine Or.inr ⟨?_, front, t, hts, ht, htext⟩
      rw [hts, htext, render_append, render_cons, Token.source_of_isComment ht]
      simp [render]
  · rintro ⟨text, h⟩
    exact ((tokenize_strict_iff text).1 h).printable

end RpalLexer
