import RpalLexer.Proofs.SegmentShape

/-!
# The shapes of tokens

A token alone tells the segment that it came from, but for a comment, which may have ended with the
text. Main statements: which tokens can stand in front of a text (`Token.cut_source_iff`), and which
can stand in front of which (`Token.merges_iff`).
-/
namespace RpalLexer

/-- The texts that a token of the kind can have. -/
def Kind.Admits : Kind → List Char → Prop
  | .identifier, text =>
    ∃ c cs, text = c :: cs ∧ isLetter c = true ∧ ∀ d ∈ cs, isIdentifierChar d = true
  | .integer, text => text ≠ [] ∧ ∀ d ∈ text, isDigit d = true
  | .operator, text =>
    text ≠ [] ∧ (∀ d ∈ text, isOperatorSymbol d = true) ∧ ¬Segment.IsComment text
  | .delete, text =>
    text ≠ [] ∧ (∀ d ∈ text, isSpace d = true) ∨ Segment.IsComment text ∧ '\n' ∉ text
  | .string, text => Segment.StringBody text
  | .leftParen, text => text = ['(']
  | .rightParen, text => text = [')']
  | .semicolon, text => text = [';']
  | .comma, text => text = [',']
  | .reserved, _ => False

namespace Token

variable {t u : Token} {d : Char} {source rest : List Char}

def WellFormed (t : Token) : Prop := t.kind.Admits t.text.toList

def IsComment (t : Token) : Prop := t.kind = .delete ∧ Segment.IsComment t.text.toList

/-- The character would belong to the token if it followed. -/
def GoesOn (t : Token) (d : Char) : Prop :=
  match t.kind with
  | .identifier => isIdentifierChar d = true
  | .integer => isDigit d = true
  | .operator => isOperatorSymbol d = true
  | .delete => ¬t.IsComment ∧ isSpace d = true
  | _ => False

/-- The one token right in front of the other would be read as something else. -/
def Merges (t u : Token) : Prop :=
  match t.kind with
  | .identifier =>
    u.kind = .identifier ∨ u.kind = .integer ∨ u.kind = .operator ∧ ['_'] <+: u.text.toList
  | .integer => u.kind = .integer
  | .operator => u.kind = .operator ∨ u.IsComment
  | .delete => ¬t.IsComment ∧ u.kind = .delete ∧ ¬u.IsComment
  | _ => False

theorem source_of_string (h : t.kind = .string) :
    t.source = quoteMark :: t.text.toList ++ [quoteMark] := by
  rw [source, h]

theorem source_of_isComment (h : t.IsComment) : t.source = t.text.toList ++ ['\n'] := by
  obtain ⟨cs, hcs⟩ := h.2
  rw [source, h.1, ← hcs]
  rfl

theorem source_of_not (hs : t.kind ≠ .string) (hc : ¬t.IsComment) : t.source = t.text.toList := by
  rw [source]
  split
  · contradiction
  · rename_i cs hk ht
    exact absurd ⟨hk, by rw [ht]; exact ⟨cs, rfl⟩⟩ hc
  · rfl

theorem not_isComment_of_kind (h : t.kind ≠ .delete) : ¬t.IsComment := fun hc => h hc.1

theorem not_isComment_of_spaces (h : ∀ d ∈ t.text.toList, isSpace d = true) : ¬t.IsComment := by
  rintro ⟨-, cs, hcs⟩
  have hs : isSpace commentMark = true := h commentMark (by rw [← hcs]; simp)
  exact absurd hs (by decide)

theorem wellFormed_of_cut (h : Segment.Cut (.lexeme t.kind t.text.toList) source rest) :
    t.WellFormed ∧ ∀ d ∈ rest.head?, ¬t.GoesOn d := by
  unfold WellFormed GoesOn
  generalize hk : t.kind = kind at h
  generalize ht : t.text.toList = text at h
  cases h with
  | identifier hc hcs hr => exact ⟨⟨_, _, rfl, hc, hcs⟩, fun d hd hg => by simp [hr d hd] at hg⟩
  | integer hc hcs hr =>
    exact ⟨⟨by simp, by simpa [hc] using hcs⟩, fun d hd hg => by simp [hr d hd] at hg⟩
  | operator hc hcs hn hr =>
    exact ⟨⟨by simp, by simpa [hc] using hcs, hn⟩, fun d hd hg => by simp [hr d hd] at hg⟩
  | space hc hcs hr =>
    exact ⟨Or.inl ⟨by simp, by simpa [hc] using hcs⟩, fun d hd hg => by simp [hr d hd] at hg⟩
  | @comment cs _ hcs =>
    have hi : Segment.IsComment (commentMark :: commentMark :: cs) := ⟨cs, rfl⟩
    refine ⟨Or.inr ⟨hi, by simpa [commentMark] using hcs⟩, fun d hd hg => hg.1 ⟨hk, ?_⟩⟩
    rwa [ht]
  | @lastComment cs hcs => exact ⟨Or.inr ⟨⟨cs, rfl⟩, by simpa [commentMark] using hcs⟩, by simp⟩
  | string hb => exact ⟨hb, fun d hd => id⟩
  | punctuation hc =>
    rcases ofPunctuation?_eq_some hc with ⟨rfl, rfl⟩ | ⟨rfl, rfl⟩ | ⟨rfl, rfl⟩ | ⟨rfl, rfl⟩ <;>
      exact ⟨rfl, fun d hd => id⟩

theorem cut_text (h : t.WellFormed) (hs : t.kind ≠ .string) (hc : ¬t.IsComment)
    (hr : ∀ d ∈ rest.head?, ¬t.GoesOn d) :
    Segment.Cut (.lexeme t.kind t.text.toList) t.text.toList rest := by
  rw [WellFormed] at h
  simp only [GoesOn] at hr
  generalize ht : t.text.toList = text at *
  cases hk : t.kind with
  | identifier =>
    rw [hk] at h hr
    obtain ⟨c, cs, rfl, hl, hall⟩ := h
    exact .identifier hl hall (by simpa [Segment.Stops] using hr)
  | integer =>
    rw [hk] at h hr
    obtain ⟨hne, hall⟩ := h
    obtain ⟨c, cs, rfl⟩ := List.exists_cons_of_ne_nil hne
    rw [List.forall_mem_cons] at hall
    exact .integer hall.1 hall.2 (by simpa [Segment.Stops] using hr)
  | operator =>
    rw [hk] at h hr
    obtain ⟨hne, hall, hn⟩ := h
    obtain ⟨c, cs, rfl⟩ := List.exists_cons_of_ne_nil hne
    rw [List.forall_mem_cons] at hall
    exact .operator hall.1 hall.2 hn (by simpa [Segment.Stops] using hr)
  | delete =>
    rw [hk] at h hr
    rcases h with ⟨hne, hall⟩ | ⟨hi, -⟩
    · obtain ⟨c, cs, rfl⟩ := List.exists_cons_of_ne_nil hne
      rw [List.forall_mem_cons] at hall
      exact .space hall.1 hall.2 (by simpa [Segment.Stops, hc] using hr)
    · rw [← ht] at hi
      exact absurd ⟨hk, hi⟩ hc
  | string => exact absurd hk hs
  | leftParen | rightParen | semicolon | comma =>
    rw [hk] at h
    cases h
    exact .punctuation rfl
  | reserved =>
    rw [hk] at h
    exact absurd h id

theorem cut_of_isComment (h : t.WellFormed) (hc : t.IsComment) (rest : List Char) :
    Segment.Cut (.lexeme t.kind t.text.toList) t.source rest := by
  rw [source_of_isComment hc]
  obtain ⟨hk, hi⟩ := hc
  rw [WellFormed] at h
  rw [hk] at h ⊢
  rcases h with ⟨-, hall⟩ | ⟨-, hnl⟩
  · exact absurd ⟨hk, hi⟩ (not_isComment_of_spaces hall)
  · obtain ⟨cs, hcs⟩ := hi
    rw [← hcs] at hnl ⊢
    exact .comment (by simpa [commentMark] using hnl)

theorem cut_source_iff : Segment.Cut (.lexeme t.kind t.text.toList) t.source rest ↔
    t.WellFormed ∧ ∀ d ∈ rest.head?, ¬t.GoesOn d := by
  refine ⟨wellFormed_of_cut, fun ⟨h, hr⟩ => ?_⟩
  by_cases hs : t.kind = .string
  · rw [source_of_string hs]
    rw [WellFormed] at h
    rw [hs] at h ⊢
    exact .string h
  · by_cases hc : t.IsComment
    · exact cut_of_isComment h hc rest
    · rw [source_of_not hs hc]
      exact cut_text h hs hc hr

theorem source_of_cut (h : Segment.Cut (.lexeme t.kind t.text.toList) source rest) :
    source = t.source ∨ t.IsComment ∧ source = t.text.toList ∧ rest = [] := by
  have hsrc := fun hs hc => source_of_not (t := t) hs hc
  have hcom := fun hc => source_of_isComment (t := t) hc
  have hn : t.kind ≠ .delete → ¬t.IsComment := not_isComment_of_kind
  have hsp : (∀ d ∈ t.text.toList, isSpace d = true) → ¬t.IsComment := not_isComment_of_spaces
  generalize hk : t.kind = kind at *
  generalize ht : t.text.toList = text at *
  cases h with
  | identifier => exact Or.inl (hsrc (by decide) (hn (by decide))).symm
  | integer => exact Or.inl (hsrc (by decide) (hn (by decide))).symm
  | operator => exact Or.inl (hsrc (by decide) (hn (by decide))).symm
  | space hc hcs hr => exact Or.inl (hsrc (by decide) (hsp (by simpa [hc] using hcs))).symm
  | @comment cs _ hcs => exact Or.inl (hcom ⟨hk, by rw [ht]; exact ⟨cs, rfl⟩⟩).symm
  | @lastComment cs hcs => exact Or.inr ⟨⟨hk, by rw [ht]; exact ⟨cs, rfl⟩⟩, rfl, rfl⟩
  | string hb => exact Or.inl (by rw [source_of_string hk, ht])
  | punctuation hc =>
    rcases ofPunctuation?_eq_some hc with ⟨-, rfl⟩ | ⟨-, rfl⟩ | ⟨-, rfl⟩ | ⟨-, rfl⟩ <;>
      exact Or.inl (hsrc (by decide) (hn (by decide))).symm

inductive Starts (u : Token) (d : Char) : Prop
  | identifier (hk : u.kind = .identifier) (hd : classify d = .letter)
  | integer (hk : u.kind = .integer) (hd : classify d = .digit)
  | operator (hk : u.kind = .operator) (hd : classify d = .operator)
      (ht : ['_'] <+: u.text.toList ↔ d = '_')
  | space (hk : u.kind = .delete) (hc : ¬u.IsComment) (hd : classify d = .space)
  | comment (hc : u.IsComment) (hd : d = commentMark)
  | string (hk : u.kind = .string) (hd : classify d = .quote)
  | punctuation (hk : some u.kind = Kind.ofPunctuation? d) (hd : classify d = .punctuation)

theorem exists_starts (h : u.WellFormed) : ∃ d cs, u.source = d :: cs ∧ u.Starts d := by
  have hcut : Segment.Cut (.lexeme u.kind u.text.toList) u.source [] :=
    cut_source_iff.2 ⟨h, by simp⟩
  generalize hk : u.kind = kind at hcut
  generalize ht : u.text.toList = text at hcut
  generalize hs : u.source = source at hcut
  cases hcut with
  | identifier hc => exact ⟨_, _, rfl, .identifier hk (classify_eq_letter_iff.2 hc)⟩
  | integer hc => exact ⟨_, _, rfl, .integer hk (classify_eq_digit_iff.2 hc)⟩
  | operator hc =>
    refine ⟨_, _, rfl, .operator hk (classify_eq_operator_iff.2 hc) ?_⟩
    rw [ht, List.cons_prefix_cons]
    simp [eq_comm]
  | space hc hcs =>
    refine ⟨_, _, rfl, .space hk (not_isComment_of_spaces ?_) (classify_eq_space_iff.2 hc)⟩
    simpa [ht, hc] using hcs
  | @comment cs => exact ⟨_, _, rfl, .comment ⟨hk, by rw [ht]; exact ⟨cs, rfl⟩⟩ rfl⟩
  | @lastComment cs => exact ⟨_, _, rfl, .comment ⟨hk, by rw [ht]; exact ⟨cs, rfl⟩⟩ rfl⟩
  | string => exact ⟨_, _, rfl, .string hk rfl⟩
  | punctuation hc =>
    exact ⟨_, _, rfl, .punctuation (by rw [hk, hc]) (classify_eq_punctuation_iff.2 ⟨_, hc⟩)⟩

theorem isIdentifierChar_iff : isIdentifierChar d = true ↔
    classify d = .letter ∨ classify d = .digit ∨ d = '_' := by
  rw [classify_eq_letter_iff, classify_eq_digit_iff]
  simp [isIdentifierChar, or_assoc]

theorem ne_underscore_of_classify {k : CharClass} (h : classify d = k) (hk : k ≠ .operator) :
    d ≠ '_' := by
  rintro rfl
  exact hk (h.symm.trans (by decide))

theorem merges_iff_of_starts (h : u.Starts d) : t.Merges u ↔ t.GoesOn d := by
  unfold Merges GoesOn
  simp only [isIdentifierChar_iff, ← classify_eq_digit_iff, ← classify_eq_operator_iff,
    ← classify_eq_space_iff]
  have hn : u.kind ≠ .delete → ¬u.IsComment := not_isComment_of_kind
  -- The class of the first character decides, whatever the kind of the token in front.
  cases h with
  | identifier hk hd =>
    have hn := hn (by simp [hk])
    cases t.kind <;> simp [hk, hd, hn]
  | integer hk hd =>
    have hn := hn (by simp [hk])
    cases t.kind <;> simp [hk, hd, hn]
  | operator hk hd ht =>
    have hn := hn (by simp [hk])
    cases t.kind <;> simp [hk, hd, hn, ht]
  | space hk hn hd =>
    have hne := ne_underscore_of_classify hd (by decide)
    cases t.kind <;> simp [hk, hd, hn, hne]
  | comment hc hd =>
    subst hd
    have hk := hc.1
    have hd : classify commentMark = .operator := by decide
    have hne : commentMark ≠ '_' := by decide
    cases t.kind <;> simp [hk, hd, hc, hne]
  | string hk hd =>
    have hn := hn (by simp [hk])
    have hne := ne_underscore_of_classify hd (by decide)
    cases t.kind <;> simp [hk, hd, hn, hne]
  | punctuation hk hd =>
    have hne := ne_underscore_of_classify hd (by decide)
    rcases ofPunctuation?_eq_some hk.symm with ⟨-, hk⟩ | ⟨-, hk⟩ | ⟨-, hk⟩ | ⟨-, hk⟩ <;>
      cases t.kind <;> simp [hk, hd, hne, IsComment]

theorem merges_iff (hu : u.WellFormed) : t.Merges u ↔ ∃ d ∈ u.source.head?, t.GoesOn d := by
  obtain ⟨d, cs, hs, hd⟩ := exists_starts hu
  rw [merges_iff_of_starts hd, hs]
  simp

end Token
end RpalLexer
