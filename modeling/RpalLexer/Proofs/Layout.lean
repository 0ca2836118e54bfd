import Mathlib.Data.List.Forall2
import RpalLexer.Proofs.TokenShape
import RpalLexer.Proofs.Tokenization

/-!
# Layout

Lexemes are kept apart by separators, which start with white space and may hold comments. A consumer
that skips deleted tokens is given the lexemes, whatever separates them. Main statement:
`tokenize_layout`.
-/
namespace RpalLexer

open Segment (newlines)

/-- What a separator is made of. The newline that ends a comment is a part of it. -/
inductive Blank where
  | space (c : Char) (isSpace_c : isSpace c = true)
  | comment (body : List Char) (newline_notMem : '\n' ∉ body)

def Blank.text : Blank → List Char
  | .space c _ => [c]
  | .comment body _ => commentMark :: commentMark :: body ++ ['\n']

/-- A comment must not come first: two slashes after an operator go on with the operator. -/
structure Separator where
  first : Char
  isSpace_first : isSpace first = true
  blanks : List Blank

def Separator.text (s : Separator) : List Char := s.first :: s.blanks.flatMap Blank.text

structure Lexeme where
  kind : Kind
  text : List Char
  admits : kind.Admits text
  ne_delete : kind ≠ .delete

namespace Lexeme

def source (x : Lexeme) : List Char :=
  if x.kind = .string then quoteMark :: x.text ++ [quoteMark] else x.text

def token (filename : String) (line : Int) (x : Lexeme) : Token :=
  ⟨x.kind, String.ofList x.text, line, filename⟩

end Lexeme

/-- Lexemes with a separator after each but the last, and perhaps one on either side. -/
structure Layout where
  lead : Option Separator
  items : List (Lexeme × Separator)
  last : Option Lexeme
  trail : Option Separator

namespace Layout

def text (a : Layout) : List Char :=
  a.lead.toList.flatMap Separator.text ++
    (a.items.flatMap (fun (x, gap) => x.source ++ gap.text) ++
      (a.last.toList.flatMap Lexeme.source ++ a.trail.toList.flatMap Separator.text))

def lexemes (a : Layout) : List Lexeme := a.items.map Prod.fst ++ a.last.toList

def tokensFrom (filename : String) (last : Option Lexeme) :
    Int → List (Lexeme × Separator) → List Token
  | line, [] => last.toList.map (Lexeme.token filename line)
  | line, (x, gap) :: items =>
    x.token filename line ::
      tokensFrom filename last (line + newlines x.source + newlines gap.text) items

def tokens (filename : String) (a : Layout) : List Token :=
  tokensFrom filename a.last (1 + newlines (a.lead.toList.flatMap Separator.text)) a.items

end Layout

variable {o : Options} {filename : String} {skip : Bool} {line : Int} {c d : Char}
  {cs text source rest : List Char} {kind : Kind}

theorem textTokens_of_cut (h : Segment.Cut (.lexeme kind text) source rest) :
    textTokens o filename skip line (source ++ rest) =
      (textTokens o filename skip (line + newlines source) rest).map
        (kept skip [⟨kind, String.ofList text, line, filename⟩] ++ ·) := by
  obtain ⟨c, cs, hs⟩ := List.exists_cons_of_ne_nil (List.append_ne_nil_of_left_ne_nil
    h.source_ne_nil rest)
  have hfirst := h.first_eq hs
  have ho : (Segment.first c cs).outcome o filename line =
      .ok (some ⟨kind, String.ofList text, line, filename⟩) := by
    rw [hfirst]
    rfl
  rw [hs, textTokens_of_ok ho, hfirst]
  rfl

theorem textTokens_deleted (h : Segment.Cut (.lexeme .delete text) source rest) :
    textTokens o filename true line (source ++ rest) =
      textTokens o filename true (line + newlines source) rest := by
  rw [textTokens_of_cut h]
  have hk : kept true [⟨.delete, String.ofList text, line, filename⟩] = [] := rfl
  rw [hk]
  exact congrFun Except.map_id _

theorem textTokens_spaces (cs : List Char) :
    textTokens o filename true line cs =
      textTokens o filename true (line + newlines (cs.takeWhile isSpace))
        (cs.dropWhile isSpace) := by
  cases cs with
  | nil => simp [newlines]
  | cons c cs =>
    by_cases hc : isSpace c = true
    · have hcut : Segment.Cut (.lexeme .delete (c :: cs.takeWhile isSpace))
          (c :: cs.takeWhile isSpace) (cs.dropWhile isSpace) :=
        .space hc (fun d hd => List.mem_takeWhile_imp hd) (Segment.stops_dropWhile isSpace cs)
      have h : textTokens o filename true line (c :: cs.takeWhile isSpace ++ cs.dropWhile isSpace) =
          _ := textTokens_deleted hcut
      rw [List.cons_append, List.takeWhile_append_dropWhile] at h
      rw [h, List.takeWhile_cons_of_pos hc, List.dropWhile_cons_of_pos hc]
    · rw [List.takeWhile_cons_of_neg hc, List.dropWhile_cons_of_neg hc]
      simp [newlines]

theorem textTokens_space (hc : isSpace c = true) (cs : List Char) :
    textTokens o filename true line (c :: cs) =
      textTokens o filename true (line + newlines [c]) cs := by
  rw [textTokens_spaces (c :: cs), textTokens_spaces cs, List.takeWhile_cons_of_pos hc,
    List.dropWhile_cons_of_pos hc, ← List.singleton_append, Segment.newlines_append]
  congr 1
  omega

theorem Blank.textTokens_append (b : Blank) (rest : List Char) :
    textTokens o filename true line (b.text ++ rest) =
      textTokens o filename true (line + newlines b.text) rest := by
  cases b with
  | space c hc => exact textTokens_space hc rest
  | comment body hb => exact textTokens_deleted (.comment hb)

theorem textTokens_blanks (bs : List Blank) (rest : List Char) :
    textTokens o filename true line (bs.flatMap Blank.text ++ rest) =
      textTokens o filename true (line + newlines (bs.flatMap Blank.text)) rest := by
  induction bs generalizing line with
  | nil => simp [newlines]
  | cons b bs ih =>
    rw [List.flatMap_cons, List.append_assoc, b.textTokens_append, ih, Segment.newlines_append]
    congr 1
    omega

theorem Separator.textTokens_append (s : Separator) (rest : List Char) :
    textTokens o filename true line (s.text ++ rest) =
      textTokens o filename true (line + newlines s.text) rest := by
  exact textTokens_blanks (.space s.first s.isSpace_first :: s.blanks) rest

theorem textTokens_separator? (s : Option Separator) (rest : List Char) :
    textTokens o filename true line (s.toList.flatMap Separator.text ++ rest) =
      textTokens o filename true (line + newlines (s.toList.flatMap Separator.text)) rest := by
  cases s with
  | none => simp [newlines]
  | some s => simpa using s.textTokens_append rest

namespace Lexeme

theorem source_token (x : Lexeme) (filename : String) (line : Int) :
    (x.token filename line).source = x.source := by
  have hn : ¬(x.token filename line).IsComment := Token.not_isComment_of_kind x.ne_delete
  rw [source]
  split
  · rename_i hs
    rw [Token.source_of_string hs, token, String.toList_ofList]
  · rename_i hs
    rw [Token.source_of_not hs hn, token, String.toList_ofList]

theorem not_goesOn (x : Lexeme) (hd : isSpace d = true) : ¬(x.token filename line).GoesOn d := by
  have hd := classify_eq_space_iff.2 hd
  have hne := Token.ne_underscore_of_classify hd (by decide)
  have hx := x.ne_delete
  simp only [Token.GoesOn, token, Token.isIdentifierChar_iff, ← classify_eq_digit_iff,
    ← classify_eq_operator_iff]
  cases hk : x.kind <;> simp_all

theorem textTokens_append (x : Lexeme) (hr : ∀ d ∈ rest.head?, isSpace d = true) :
    textTokens o filename true line (x.source ++ rest) =
      (textTokens o filename true (line + newlines x.source) rest).map
        (x.token filename line :: ·) := by
  have hw : (x.token filename line).WellFormed := by
    rw [Token.WellFormed, token, String.toList_ofList]
    exact x.admits
  have hcut := Token.cut_source_iff.2 ⟨hw, fun d hd => x.not_goesOn (hr d hd)⟩
  have hk : kept true [x.token filename line] = [x.token filename line] := by
    simp [kept, Token.isDeleted, token, x.ne_delete]
  have h : textTokens o filename true line ((x.token filename line).source ++ rest) = _ :=
    textTokens_of_cut hcut
  rw [source_token, String.ofList_toList] at h
  rw [h]
  exact congrArg (fun ts => Except.map (ts ++ ·) _) hk

end Lexeme

namespace Layout

theorem textTokens_last (last : Option Lexeme) (trail : Option Separator) :
    textTokens o filename true line (last.toList.flatMap Lexeme.source ++
        trail.toList.flatMap Separator.text) =
      .ok (last.toList.map (Lexeme.token filename line)) := by
  have htrail : ∀ line, textTokens o filename true line
      (trail.toList.flatMap Separator.text) = .ok [] := by
    intro line
    rw [← List.append_nil (trail.toList.flatMap Separator.text), textTokens_separator?,
      textTokens_nil]
  cases last with
  | none => exact htrail line
  | some x =>
    have hr : ∀ d ∈ (trail.toList.flatMap Separator.text).head?, isSpace d = true := by
      cases trail with
      | none => simp
      | some s => simpa [Separator.text] using s.isSpace_first
    have hx : textTokens o filename true line
        (x.source ++ trail.toList.flatMap Separator.text) = _ := x.textTokens_append hr
    rw [htrail] at hx
    simpa [Except.map] using hx

theorem textTokens_items (items : List (Lexeme × Separator)) (last : Option Lexeme)
    (trail : Option Separator) :
    textTokens o filename true line (items.flatMap (fun (x, gap) => x.source ++ gap.text) ++
        (last.toList.flatMap Lexeme.source ++ trail.toList.flatMap Separator.text)) =
      .ok (tokensFrom filename last line items) := by
  induction items generalizing line with
  | nil => exact textTokens_last last trail
  | cons item items ih =>
    obtain ⟨x, gap⟩ := item
    have hr : ∀ rest : List Char, ∀ d ∈ (gap.text ++ rest).head?, isSpace d = true := by
      intro rest
      simpa [Separator.text] using gap.isSpace_first
    rw [List.flatMap_cons, List.append_assoc, List.append_assoc, x.textTokens_append (hr _),
      gap.textTokens_append, ih]
    rfl

theorem textTokens_text (a : Layout) :
    textTokens o filename true 1 a.text = .ok (a.tokens filename) := by
  rw [text, textTokens_separator?, textTokens_items]
  rfl

theorem map_tokensFrom {β : Type} {p : Token → β} {q : Lexeme → β}
    (h : ∀ x : Lexeme, ∀ line, p (x.token filename line) = q x)
    (items : List (Lexeme × Separator)) (last : Option Lexeme) :
    (tokensFrom filename last line items).map p = (items.map Prod.fst ++ last.toList).map q := by
  induction items generalizing line with
  | nil => cases last <;> simp [tokensFrom, h]
  | cons item items ih => simp [tokensFrom, h, ih]

theorem map_tokens {β : Type} {p : Token → β} {q : Lexeme → β}
    (h : ∀ x : Lexeme, ∀ line, p (x.token filename line) = q x) (a : Layout) :
    (a.tokens filename).map p = a.lexemes.map q :=
  map_tokensFrom h a.items a.last

/-- A consumer that skips deleted tokens is given the lexemes that are laid out, and another layout
changes nothing but their lines. -/
theorem tokenize_layout (o : Options) (filename : String) (a : Layout) :
    tokenize (String.ofList a.text) filename o true = .ok (a.tokens filename) ∧
    (a.tokens filename).map (fun t => (t.kind, t.text.toList)) =
      a.lexemes.map (fun x => (x.kind, x.text)) ∧
    ∀ b : Layout, b.lexemes = a.lexemes →
      tokenize (String.ofList b.text) filename o true = .ok (b.tokens filename) ∧
      List.Forall₂ (fun t u => u = { t with line := u.line })
        (a.tokens filename) (b.tokens filename) := by
  have htokens : ∀ a : Layout,
      tokenize (String.ofList a.text) filename o true = .ok (a.tokens filename) := by
    intro a
    rw [tokenize_eq_textTokens, String.toList_ofList, textTokens_text]
  refine ⟨htokens a, ?_, fun b hb => ⟨htokens b, ?_⟩⟩
  · apply map_tokens
    intro x line
    simp [Lexeme.token]
  · have hmap : ∀ a : Layout, (a.tokens filename).map (fun t => { t with line := 1 }) =
        a.lexemes.map (Lexeme.token filename 1) := fun a => map_tokens (fun x line => rfl) a
    have hab := (hmap a).trans ((congrArg _ hb.symm).trans (hmap b).symm)
    rw [← List.forall₂_eq_eq_eq, List.forall₂_map_left_iff, List.forall₂_map_right_iff] at hab
    refine hab.imp fun t u h => ?_
    cases t
    cases u
    simpa using h.symm

theorem tokenize_layout_of_application :
    tokenize "f 1" "a" .strict true = .ok [⟨.identifier, "f", 1, "a"⟩, ⟨.integer, "1", 1, "a"⟩] ∧
    tokenize "f\n//\"\n1" "a" .strict true =
      .ok [⟨.identifier, "f", 1, "a"⟩, ⟨.integer, "1", 3, "a"⟩] := by
  let f : Lexeme :=
    ⟨.identifier, ['f'], ⟨'f', [], rfl, by decide, List.forall_mem_nil _⟩, by decide⟩
  let one : Lexeme :=
    ⟨.integer, ['1'], ⟨by decide, List.forall_mem_singleton.2 (by decide)⟩, by decide⟩
  let space : Separator := ⟨' ', by decide, []⟩
  let comment : Separator := ⟨'\n', by decide, [.comment ['\x22'] (by decide)]⟩
  obtain ⟨hspace, -, hother⟩ :=
    tokenize_layout .strict "a" ⟨none, [(f, space)], some one, none⟩
  obtain ⟨hcomment, -⟩ := hother ⟨none, [(f, comment)], some one, none⟩ rfl
  exact ⟨hspace, hcomment⟩

end Layout
end RpalLexer
