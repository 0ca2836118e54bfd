import RpalLexer.Segment
import Mathlib.Data.List.TakeWhile

/-!
# The shapes of segments

A segment is told by its content, the source it takes up and the text that follows it. The rules
below say which of these go together without mentioning how a text is searched. Main statement: a
text has exactly one first segment by these rules, and it is the one that is cut off
(`Segment.first_eq_iff`).
-/
namespace RpalLexer

theorem classify_eq_letter_iff {c : Char} : classify c = .letter ↔ isLetter c = true := by
  unfold classify
  split_ifs <;> simp_all

theorem isLetter_of_isDigit {c : Char} (h : isDigit c = true) : isLetter c = false := by
  change (decide (c.val ≥ '0'.val) && decide (c.val ≤ '9'.val)) = true at h
  change (decide (c.val ≥ 'A'.val ∧ c.val ≤ 'Z'.val) ||
    decide (c.val ≥ 'a'.val) && decide (c.val ≤ 'z'.val)) = false
  grind

theorem classify_eq_digit_iff {c : Char} : classify c = .digit ↔ isDigit c = true := by
  constructor
  · intro h
    unfold classify at h
    split_ifs at h
    assumption
  · intro h
    simp [classify, isLetter_of_isDigit h, h]

theorem classify_eq_operator_iff {c : Char} :
    classify c = .operator ↔ isOperatorSymbol c = true := by
  constructor
  · intro h
    unfold classify at h
    split_ifs at h
    assumption
  · intro h
    have hall : operatorSymbols.all (fun d => decide (classify d = .operator)) = true := by decide
    have hc : c ∈ operatorSymbols := by simpa [isOperatorSymbol] using h
    exact of_decide_eq_true (List.all_eq_true.1 hall c hc)

theorem classify_eq_quote_iff {c : Char} : classify c = .quote ↔ c = quoteMark := by
  constructor
  · exact Segment.eq_quoteMark_of_classify
  · rintro rfl
    decide

theorem classify_eq_space_iff {c : Char} : classify c = .space ↔ isSpace c = true := by
  constructor
  · intro h
    unfold classify at h
    split_ifs at h
    assumption
  · intro h
    have hall : spaces.all (fun d => decide (classify d = .space)) = true := by decide
    have hc : c ∈ spaces := by simpa [isSpace] using h
    exact of_decide_eq_true (List.all_eq_true.1 hall c hc)

theorem ofPunctuation?_eq_some {c : Char} {kind : Kind} (h : Kind.ofPunctuation? c = some kind) :
    c = '(' ∧ kind = .leftParen ∨ c = ')' ∧ kind = .rightParen ∨ c = ';' ∧ kind = .semicolon ∨
      c = ',' ∧ kind = .comma := by
  unfold Kind.ofPunctuation? at h
  split at h <;> simp_all

theorem classify_eq_punctuation_iff {c : Char} :
    classify c = .punctuation ↔ ∃ kind, Kind.ofPunctuation? c = some kind := by
  constructor
  · intro h
    have hall : punctuationMarks.all (fun d => (Kind.ofPunctuation? d).isSome) = true := by decide
    unfold classify at h
    split_ifs at h with _ _ _ _ _ hp
    have hc : c ∈ punctuationMarks := by simpa [isPunctuation] using hp
    exact Option.isSome_iff_exists.1 (List.all_eq_true.1 hall c hc)
  · rintro ⟨kind, h⟩
    rcases ofPunctuation?_eq_some h with ⟨rfl, -⟩ | ⟨rfl, -⟩ | ⟨rfl, -⟩ | ⟨rfl, -⟩ <;> decide

theorem isOperatorSymbol_commentMark : isOperatorSymbol commentMark = true := by decide

namespace Segment

def Stops (p : Char → Bool) (rest : List Char) : Prop := ∀ d ∈ rest.head?, p d = false

/-- The body of a closed string literal: a character follows every escape mark, and no other
character is a quote. -/
inductive StringBody : List Char → Prop
  | nil : StringBody []
  | plain {c : Char} {cs : List Char} :
      c ≠ quoteMark → c ≠ escapeMark → StringBody cs → StringBody (c :: cs)
  | escaped {c : Char} {cs : List Char} : StringBody cs → StringBody (escapeMark :: c :: cs)

/-- A text in which no quote closes a literal. It may end in an escape mark. -/
def Unclosed (cs : List Char) : Prop :=
  StringBody cs ∨ ∃ body, StringBody body ∧ cs = body ++ [escapeMark]

def IsComment (text : List Char) : Prop := [commentMark, commentMark] <+: text

/-- `Cut content source rest`: in front of the text `rest`, the source `source` is a segment with
this content. -/
inductive Cut : Content → List Char → List Char → Prop
  | identifier {c : Char} {cs rest : List Char} (hc : isLetter c = true)
      (hcs : ∀ d ∈ cs, isIdentifierChar d = true) (hr : Stops isIdentifierChar rest) :
      Cut (.lexeme .identifier (c :: cs)) (c :: cs) rest
  | integer {c : Char} {cs rest : List Char} (hc : isDigit c = true)
      (hcs : ∀ d ∈ cs, isDigit d = true) (hr : Stops isDigit rest) :
      Cut (.lexeme .integer (c :: cs)) (c :: cs) rest
  | operator {c : Char} {cs rest : List Char} (hc : isOperatorSymbol c = true)
      (hcs : ∀ d ∈ cs, isOperatorSymbol d = true) (hn : ¬IsComment (c :: cs))
      (hr : Stops isOperatorSymbol rest) : Cut (.lexeme .operator (c :: cs)) (c :: cs) rest
  | space {c : Char} {cs rest : List Char} (hc : isSpace c = true)
      (hcs : ∀ d ∈ cs, isSpace d = true) (hr : Stops isSpace rest) :
      Cut (.lexeme .delete (c :: cs)) (c :: cs) rest
  | comment {cs rest : List Char} (hcs : '\n' ∉ cs) :
      Cut (.lexeme .delete (commentMark :: commentMark :: cs))
        (commentMark :: commentMark :: cs ++ ['\n']) rest
  | lastComment {cs : List Char} (hcs : '\n' ∉ cs) :
      Cut (.lexeme .delete (commentMark :: commentMark :: cs)) (commentMark :: commentMark :: cs) []
  | string {body rest : List Char} (hb : StringBody body) :
      Cut (.lexeme .string body) (quoteMark :: body ++ [quoteMark]) rest
  | punctuation {c : Char} {kind : Kind} {rest : List Char}
      (hc : Kind.ofPunctuation? c = some kind) :
      Cut (.lexeme kind [c]) [c] rest
  | unknown {c : Char} {rest : List Char} (hc : classify c = .other) : Cut (.unknown c) [c] rest
  | cutOff {body : List Char} (hb : Unclosed body) : Cut (.cutOff body) (quoteMark :: body) []

variable {p : Char → Bool} {run rest : List Char}

theorem newlines_append (cs ds : List Char) : newlines (cs ++ ds) = newlines cs + newlines ds :=
  List.count_append

theorem stops_dropWhile (p : Char → Bool) (cs : List Char) : Stops p (cs.dropWhile p) := by
  intro d hd
  have h := List.head?_dropWhile_not p cs
  rw [Option.mem_def] at hd
  simpa only [hd] using h

theorem takeWhile_append_of_stops (hrun : ∀ d ∈ run, p d = true) (hr : Stops p rest) :
    (run ++ rest).takeWhile p = run := by
  rw [List.takeWhile_append_of_pos hrun]
  cases rest with
  | nil => simp
  | cons d ds => simp [hr d rfl]

theorem dropWhile_append_of_stops (hrun : ∀ d ∈ run, p d = true) (hr : Stops p rest) :
    (run ++ rest).dropWhile p = rest := by
  rw [List.dropWhile_append_of_pos hrun]
  cases rest with
  | nil => rfl
  | cons d ds => simp [hr d rfl]

theorem run_append (kind : Kind) (c : Char) (hrun : ∀ d ∈ run, p d = true) (hr : Stops p rest) :
    Segment.run kind p c (run ++ rest) = ⟨.lexeme kind (c :: run), c :: run, rest⟩ := by
  simp only [Segment.run, takeWhile_append_of_stops hrun hr, dropWhile_append_of_stops hrun hr]

theorem stringBody_splitBody (cs : List Char) : StringBody (splitBody cs).1 := by
  fun_induction splitBody cs with
  | case1 => exact .nil
  | case2 cs => exact .nil
  | case3 => exact .nil
  | case4 d ds hq ih => exact .escaped ih
  | case5 c cs hq he ih => exact .plain hq he ih

theorem splitBody_snd (cs : List Char) :
    (splitBody cs).2 = [] ∨ (splitBody cs).2 = [escapeMark] ∨
      ∃ rest, (splitBody cs).2 = quoteMark :: rest := by
  fun_induction splitBody cs with
  | case1 => exact Or.inl rfl
  | case2 cs => exact Or.inr (Or.inr ⟨cs, rfl⟩)
  | case3 => exact Or.inr (Or.inl rfl)
  | case4 d ds hq ih => exact ih
  | case5 c cs hq he ih => exact ih

theorem splitBody_quote (cs : List Char) :
    splitBody (quoteMark :: cs) = ([], quoteMark :: cs) := by
  cases cs <;> simp [splitBody]

theorem splitBody_plain {c : Char} (hq : c ≠ quoteMark) (he : c ≠ escapeMark) (cs : List Char) :
    splitBody (c :: cs) = (c :: (splitBody cs).1, (splitBody cs).2) := by
  cases cs <;> simp [splitBody, hq, he]

theorem splitBody_escaped (c : Char) (cs : List Char) :
    splitBody (escapeMark :: c :: cs) =
      (escapeMark :: c :: (splitBody cs).1, (splitBody cs).2) := by
  have hn : escapeMark ≠ quoteMark := by decide
  simp [splitBody, hn]

theorem StringBody.splitBody_append {body : List Char} (h : StringBody body) (rest : List Char) :
    splitBody (body ++ rest) = (body ++ (splitBody rest).1, (splitBody rest).2) := by
  induction h with
  | nil => rfl
  | plain hq he _ ih => simp [splitBody_plain hq he, ih]
  | escaped _ ih => simp [splitBody_escaped, ih]

theorem StringBody.unclosed {body : List Char} (h : StringBody body) : Unclosed body := Or.inl h

theorem Unclosed.plain {c : Char} {cs : List Char} (hq : c ≠ quoteMark) (he : c ≠ escapeMark)
    (h : Unclosed cs) : Unclosed (c :: cs) := by
  rcases h with hb | ⟨body, hb, rfl⟩
  · exact (hb.plain hq he).unclosed
  · exact Or.inr ⟨c :: body, hb.plain hq he, rfl⟩

theorem Unclosed.escaped {c : Char} {cs : List Char} (h : Unclosed cs) :
    Unclosed (escapeMark :: c :: cs) := by
  rcases h with hb | ⟨body, hb, rfl⟩
  · exact hb.escaped.unclosed
  · exact Or.inr ⟨escapeMark :: c :: body, hb.escaped, rfl⟩

theorem unclosed_escapeMark : Unclosed [escapeMark] := Or.inr ⟨[], .nil, rfl⟩

theorem literal_of_body {body : List Char} (h : StringBody body) (rest : List Char) :
    literal (body ++ quoteMark :: rest) =
      ⟨.lexeme .string body, quoteMark :: body ++ [quoteMark], rest⟩ := by
  simp [literal, h.splitBody_append, splitBody_quote]

theorem literal_of_unclosed {body : List Char} (h : Unclosed body) :
    literal body = ⟨.cutOff body, quoteMark :: body, []⟩ := by
  rcases h with hb | ⟨front, hf, rfl⟩
  · have hs := hb.splitBody_append []
    simp only [List.append_nil, splitBody] at hs
    simp [literal, hs]
  · have he : splitBody [escapeMark] = ([], [escapeMark]) := by decide
    have hn : escapeMark ≠ quoteMark := by decide
    simp [literal, hf.splitBody_append, he, hn]

theorem cut_literal (cs : List Char) :
    Cut (literal cs).content (literal cs).source (literal cs).rest := by
  have hb := stringBody_splitBody cs
  have happ := append_splitBody cs
  rcases splitBody_snd cs with hs | hs | ⟨rest, hs⟩
  · have hu : Unclosed cs := by
      rw [← happ, hs, List.append_nil]
      exact hb.unclosed
    rw [literal_of_unclosed hu]
    exact .cutOff hu
  · have hu : Unclosed cs := Or.inr ⟨_, hb, by rw [← hs, happ]⟩
    rw [literal_of_unclosed hu]
    exact .cutOff hu
  · have hcs : cs = (splitBody cs).1 ++ quoteMark :: rest := by rw [← hs, happ]
    rw [hcs, literal_of_body hb]
    exact .string hb

theorem comment_append_newline {cs : List Char} (hcs : '\n' ∉ cs) (rest : List Char) :
    comment (cs ++ '\n' :: rest) = ⟨.lexeme .delete (commentMark :: commentMark :: cs),
      commentMark :: commentMark :: cs ++ ['\n'], rest⟩ := by
  have hall : ∀ d ∈ cs, (d != '\n') = true := by
    intro d hd
    simpa using ne_of_mem_of_not_mem hd hcs
  have hr : Stops (· != '\n') ('\n' :: rest) := by simp [Stops]
  simp [comment, takeWhile_append_of_stops hall hr, dropWhile_append_of_stops hall hr]

theorem comment_of_not_mem {cs : List Char} (hcs : '\n' ∉ cs) :
    comment cs = ⟨.lexeme .delete (commentMark :: commentMark :: cs),
      commentMark :: commentMark :: cs, []⟩ := by
  have hall : ∀ d ∈ cs, (d != '\n') = true := by
    intro d hd
    simpa using ne_of_mem_of_not_mem hd hcs
  have hr : Stops (· != '\n') [] := by simp [Stops]
  have ht := takeWhile_append_of_stops hall hr
  have hd := dropWhile_append_of_stops hall hr
  simp only [List.append_nil] at ht hd
  simp [comment, ht, hd]

theorem cut_comment (cs : List Char) :
    Cut (comment cs).content (comment cs).source (comment cs).rest := by
  by_cases hn : '\n' ∈ cs
  · obtain ⟨front, rest, rfl, hf⟩ := List.eq_append_cons_of_mem hn
    rw [comment_append_newline hf]
    exact .comment hf
  · rw [comment_of_not_mem hn]
    exact .lastComment hn

theorem isComment_iff {c d : Char} {cs : List Char} :
    IsComment (c :: d :: cs) ↔ c = commentMark ∧ d = commentMark := by
  simp [IsComment, List.cons_prefix_cons, eq_comm]

theorem not_isComment_singleton (c : Char) : ¬IsComment [c] := by simp [IsComment]

theorem operator_of_not_isComment {c : Char} {run rest : List Char}
    (hcs : ∀ d ∈ run, isOperatorSymbol d = true) (hn : ¬IsComment (c :: run))
    (hr : Stops isOperatorSymbol rest) :
    operator c (run ++ rest) = ⟨.lexeme .operator (c :: run), c :: run, rest⟩ := by
  rw [← run_append .operator c hcs hr]
  cases run with
  | nil =>
    cases rest with
    | nil => rfl
    | cons d ds =>
      have hd : ¬(c = commentMark ∧ d = commentMark) := by
        rintro ⟨-, rfl⟩
        simpa [isOperatorSymbol_commentMark] using hr commentMark rfl
      simp [operator, hd]
  | cons d ds =>
    rw [isComment_iff] at hn
    simp [operator, hn]

theorem cut_run {kind : Kind} {p : Char → Bool} {c : Char} {cs : List Char}
    (h : ∀ run rest, (∀ d ∈ run, p d = true) → Stops p rest →
      Cut (.lexeme kind (c :: run)) (c :: run) rest) :
    Cut (Segment.run kind p c cs).content (Segment.run kind p c cs).source
      (Segment.run kind p c cs).rest :=
  h _ _ (fun _ hd => List.mem_takeWhile_imp hd) (stops_dropWhile p cs)

theorem cut_operator {c : Char} (hc : isOperatorSymbol c = true) (cs : List Char) :
    Cut (operator c cs).content (operator c cs).source (operator c cs).rest := by
  by_cases hn : IsComment (c :: cs)
  · cases cs with
    | nil => exact absurd hn (not_isComment_singleton c)
    | cons d ds =>
      obtain ⟨rfl, rfl⟩ := isComment_iff.1 hn
      exact cut_comment ds
  · have hall : ∀ d ∈ cs.takeWhile isOperatorSymbol, isOperatorSymbol d = true :=
      fun d hd => List.mem_takeWhile_imp hd
    have hn' : ¬IsComment (c :: cs.takeWhile isOperatorSymbol) := by
      intro h
      exact hn (h.trans ((List.prefix_cons_inj c).2 (List.takeWhile_prefix _)))
    have hr := stops_dropWhile isOperatorSymbol cs
    have heq := operator_of_not_isComment hall hn' hr
    rw [List.takeWhile_append_dropWhile] at heq
    rw [heq]
    exact .operator hc hall hn' hr

theorem cut_first (c : Char) (cs : List Char) :
    Cut (first c cs).content (first c cs).source (first c cs).rest := by
  unfold first
  split
  case h_1 hc => exact cut_run fun _ _ => .identifier (classify_eq_letter_iff.1 hc)
  case h_2 hc => exact cut_run fun _ _ => .integer (classify_eq_digit_iff.1 hc)
  case h_3 hc => exact cut_operator (classify_eq_operator_iff.1 hc) cs
  case h_4 hc => exact cut_literal cs
  case h_5 hc => exact cut_run fun _ _ => .space (classify_eq_space_iff.1 hc)
  case h_6 hc =>
    obtain ⟨kind, hk⟩ := classify_eq_punctuation_iff.1 hc
    simp only [hk]
    exact .punctuation hk
  case h_7 hc => exact .unknown hc

theorem first_comment (cs : List Char) : first commentMark (commentMark :: cs) = comment cs := rfl

theorem first_quoteMark (cs : List Char) : first quoteMark cs = literal cs := rfl

theorem Cut.first_eq {content : Content} {source rest : List Char} (h : Cut content source rest)
    {c : Char} {cs : List Char} (hs : source ++ rest = c :: cs) :
    first c cs = ⟨content, source, rest⟩ := by
  cases h with
  | identifier hc hcs hr =>
    obtain ⟨rfl, rfl⟩ := List.cons.inj hs
    simp only [first, classify_eq_letter_iff.2 hc]
    exact run_append _ _ hcs hr
  | integer hc hcs hr =>
    obtain ⟨rfl, rfl⟩ := List.cons.inj hs
    simp only [first, classify_eq_digit_iff.2 hc]
    exact run_append _ _ hcs hr
  | operator hc hcs hn hr =>
    obtain ⟨rfl, rfl⟩ := List.cons.inj hs
    simp only [first, classify_eq_operator_iff.2 hc]
    exact operator_of_not_isComment hcs hn hr
  | space hc hcs hr =>
    obtain ⟨rfl, rfl⟩ := List.cons.inj hs
    simp only [first, classify_eq_space_iff.2 hc]
    exact run_append _ _ hcs hr
  | @comment ds rest hcs =>
    obtain ⟨rfl, rfl⟩ := List.cons.inj hs
    have hc := (first_comment (ds ++ '\n' :: rest)).trans (comment_append_newline hcs rest)
    simpa using hc
  | lastComment hcs =>
    obtain ⟨rfl, rfl⟩ := List.cons.inj hs
    simpa using (first_comment _).trans (comment_of_not_mem hcs)
  | string hb =>
    obtain ⟨rfl, rfl⟩ := List.cons.inj hs
    rw [first_quoteMark]
    simpa using literal_of_body hb rest
  | punctuation hc =>
    obtain ⟨rfl, rfl⟩ := List.cons.inj hs
    simp only [first, classify_eq_punctuation_iff.2 ⟨_, hc⟩, hc]
    rfl
  | unknown hc =>
    obtain ⟨rfl, rfl⟩ := List.cons.inj hs
    simp only [first, hc]
    rfl
  | cutOff hb =>
    obtain ⟨rfl, rfl⟩ := List.cons.inj hs
    rw [first_quoteMark]
    simpa using literal_of_unclosed hb

theorem first_eq_iff {c : Char} {cs : List Char} {content : Content} {source rest : List Char} :
    first c cs = ⟨content, source, rest⟩ ↔ Cut content source rest ∧ source ++ rest = c :: cs := by
  constructor
  · intro h
    have hc := cut_first c cs
    have happ := source_append_rest c cs
    rw [h] at hc happ
    exact ⟨hc, happ⟩
  · rintro ⟨hc, happ⟩
    exact hc.first_eq happ

theorem Cut.source_ne_nil {content : Content} {source rest : List Char}
    (h : Cut content source rest) : source ≠ [] := by
  cases h <;> simp

/-- Whether a segment is known to be complete only from what follows it. -/
def isOpen (source : List Char) : Content → Bool
  | .lexeme .identifier _ => true
  | .lexeme .integer _ => true
  | .lexeme .operator _ => true
  | .lexeme .delete text => source == text
  | .lexeme _ _ => false
  | .unknown _ => false
  | .cutOff _ => true

theorem isOpen_punctuation {c : Char} {kind : Kind} {text source : List Char}
    (h : Kind.ofPunctuation? c = some kind) : isOpen source (.lexeme kind text) = false := by
  rcases ofPunctuation?_eq_some h with ⟨-, rfl⟩ | ⟨-, rfl⟩ | ⟨-, rfl⟩ | ⟨-, rfl⟩ <;> rfl

end Segment
end RpalLexer
