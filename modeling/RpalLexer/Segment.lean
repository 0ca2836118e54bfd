import RpalLexer.Options
import RpalLexer.ScanError
import RpalLexer.Token

/-!
# Segments of a text

A text falls into segments, cut off its front one after the other: lexemes, characters outside the
alphabet, and at most one string literal that is never closed, which takes all that is left. The
segments and their contents depend on the text alone; policies say what becomes of them. Main
statement: a segment's source and what follows it are the text (`Segment.source_append_rest`).
-/
namespace RpalLexer

/-- What a segment is. The text of a lexeme leaves out the quotes of a string literal and the
newline that ends a comment. -/
inductive Content where
  | lexeme (kind : Kind) (text : List Char)
  | unknown (c : Char)
  | cutOff (body : List Char)
  deriving DecidableEq

structure Segment where
  content : Content
  source : List Char
  rest : List Char
  deriving DecidableEq

namespace Segment

/-- The longest front of a text in which every escape mark is followed by a character and no other
character is a quote, and what is left. -/
def splitBody : List Char → List Char × List Char
  | [] => ([], [])
  | c :: cs =>
    if c = quoteMark then ([], c :: cs)
    else if c = escapeMark then
      match cs with
      | [] => ([], [c])
      | d :: ds => (c :: d :: (splitBody ds).1, (splitBody ds).2)
    else (c :: (splitBody cs).1, (splitBody cs).2)

def run (kind : Kind) (p : Char → Bool) (c : Char) (cs : List Char) : Segment where
  content := .lexeme kind (c :: cs.takeWhile p)
  source := c :: cs.takeWhile p
  rest := cs.dropWhile p

/-- A comment up to the end of its line; `cs` follows the two marks. -/
def comment (cs : List Char) : Segment :=
  let text := commentMark :: commentMark :: cs.takeWhile (· != '\n')
  match cs.dropWhile (· != '\n') with
  | [] => ⟨.lexeme .delete text, text, []⟩
  | newline :: rest => ⟨.lexeme .delete text, text ++ [newline], rest⟩

/-- A string literal; `cs` follows the opening quote. -/
def literal (cs : List Char) : Segment :=
  match (splitBody cs).2 with
  | [] => ⟨.cutOff cs, quoteMark :: cs, []⟩
  | c :: rest =>
    if c = quoteMark then
      ⟨.lexeme .string (splitBody cs).1, quoteMark :: (splitBody cs).1 ++ [c], rest⟩
    else ⟨.cutOff cs, quoteMark :: cs, []⟩

def operator (c : Char) (cs : List Char) : Segment :=
  match cs with
  | d :: ds =>
    if c = commentMark ∧ d = commentMark then comment ds else run .operator isOperatorSymbol c cs
  | [] => run .operator isOperatorSymbol c cs

def first (c : Char) (cs : List Char) : Segment :=
  match classify c with
  | .letter => run .identifier isIdentifierChar c cs
  | .digit => run .integer isDigit c cs
  | .operator => operator c cs
  | .quote => literal cs
  | .space => run .delete isSpace c cs
  | .punctuation =>
    match Kind.ofPunctuation? c with
    | some kind => ⟨.lexeme kind [c], [c], cs⟩
    | none => ⟨.unknown c, [c], cs⟩
  | .other => ⟨.unknown c, [c], cs⟩

theorem append_splitBody (cs : List Char) : (splitBody cs).1 ++ (splitBody cs).2 = cs := by
  fun_induction splitBody cs <;> simp_all

theorem source_append_run (kind : Kind) (p : Char → Bool) (c : Char) (cs : List Char) :
    (run kind p c cs).source ++ (run kind p c cs).rest = c :: cs := by
  simp [run, List.takeWhile_append_dropWhile]

theorem source_append_comment (cs : List Char) :
    (comment cs).source ++ (comment cs).rest = commentMark :: commentMark :: cs := by
  have h : cs.takeWhile (· != '\n') ++ cs.dropWhile (· != '\n') = cs :=
    List.takeWhile_append_dropWhile
  unfold comment
  split
  · rename_i hd
    rw [hd] at h
    simpa using h
  · rename_i newline rest hd
    rw [hd] at h
    simpa using h

theorem source_append_literal (cs : List Char) :
    (literal cs).source ++ (literal cs).rest = quoteMark :: cs := by
  have h := append_splitBody cs
  unfold literal
  split
  · simp
  · rename_i c rest hr
    split
    · rw [hr] at h
      simpa using h
    · simp

theorem source_append_operator (c : Char) (cs : List Char) :
    (operator c cs).source ++ (operator c cs).rest = c :: cs := by
  unfold operator
  split
  · rename_i d ds
    split
    · rename_i h
      rw [h.1, h.2]
      exact source_append_comment ds
    · exact source_append_run _ _ _ _
  · exact source_append_run _ _ _ _

theorem eq_quoteMark_of_classify {c : Char} (h : classify c = .quote) : c = quoteMark := by
  unfold classify at h
  split at h
  · cases h
  · split at h
    · cases h
    · split at h
      · cases h
      · split at h
        · assumption
        · split at h
          · cases h
          · split at h <;> cases h

theorem source_append_rest (c : Char) (cs : List Char) :
    (first c cs).source ++ (first c cs).rest = c :: cs := by
  unfold first
  split
  · exact source_append_run _ _ _ _
  · exact source_append_run _ _ _ _
  · exact source_append_operator _ _
  · rename_i h
    rw [eq_quoteMark_of_classify h]
    exact source_append_literal cs
  · exact source_append_run _ _ _ _
  · split <;> rfl
  · rfl

theorem length_source_pos (c : Char) (cs : List Char) : 0 < (first c cs).source.length := by
  unfold first
  split
  · simp [run]
  · simp [run]
  · unfold operator
    split
    · split
      · unfold comment
        split <;> simp
      · simp [run]
    · simp [run]
  · unfold literal
    split
    · simp
    · split <;> simp
  · simp [run]
  · split <;> simp
  · simp

theorem length_rest_lt (c : Char) (cs : List Char) :
    (first c cs).rest.length < (c :: cs).length := by
  have h := congrArg List.length (source_append_rest c cs)
  have := length_source_pos c cs
  rw [List.length_append] at h
  omega

def all : List Char → List Segment
  | [] => []
  | c :: cs => first c cs :: all (first c cs).rest
termination_by text => text.length
decreasing_by exact length_rest_lt c cs

theorem flatMap_source_all (text : List Char) : (all text).flatMap source = text := by
  fun_induction all text with
  | case1 => rfl
  | case2 c cs ih => rw [List.flatMap_cons, ih, source_append_rest]

def newlines (text : List Char) : Nat := text.count '\n'

/-- What the policies make of a segment that starts on a line: a token, nothing, or an error. -/
def outcome (o : Options) (filename : String) (line : Int) (s : Segment) :
    Except ScanError (Option Token) :=
  match s.content with
  | .lexeme kind text => .ok (some ⟨kind, String.ofList text, line, filename⟩)
  | .unknown c =>
    match o.chars with
    | .raise => .error (.invalidCharacter c (some ⟨filename, line⟩))
    | .drop => .ok none
  | .cutOff body =>
    match o.strings with
    | .raise =>
      .error (.unterminatedString (some ⟨filename, line⟩)
        (some (String.ofList (quoteMark :: body.take ScanError.fragmentLimit))))
    | .discard => .ok none

def tokens (o : Options) (filename : String) : Int → List Segment → Except ScanError (List Token)
  | _, [] => .ok []
  | line, s :: segments =>
    match s.outcome o filename line with
    | .error e => .error e
    | .ok t =>
      match tokens o filename (line + newlines s.source) segments with
      | .error e => .error e
      | .ok ts => .ok (t.toList ++ ts)

end Segment

/-- The source text that a token stands for; a comment is taken to end its line. -/
def Token.source (t : Token) : List Char :=
  match t.kind, t.text.toList with
  | .string, text => quoteMark :: text ++ [quoteMark]
  | .delete, '/' :: '/' :: text => '/' :: '/' :: text ++ ['\n']
  | _, text => text

end RpalLexer
