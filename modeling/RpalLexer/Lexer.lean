import RpalLexer.Lexer.Lookahead

/-!
# The lexer

A lexer makes tokens of the characters of a reader, one on each call. The class of the first
character decides how the call goes on. Main statement: a call that answers has moved on
(`Lexer.weight_nextToken_lt`).
-/
namespace RpalLexer

namespace Lexer

def token (s : Lexer) (kind : Kind) (text : List Char) (line : Int) : Token :=
  ⟨kind, String.ofList text, line, s.filename⟩

def runToken (kind : Kind) (p : Char → Bool) (first : Char) (line : Int) (s : Lexer) :
    Step Fault Lexer (Option Token) :=
  match takeRun p [first] s with
  | ⟨.error e, s'⟩ => ⟨.error e, s'⟩
  | ⟨.ok text, s'⟩ => ⟨.ok (some (s.token kind text line)), s'⟩

def commentToken (line : Int) (s : Lexer) : Step Fault Lexer (Option Token) :=
  match takeLine [commentMark, commentMark] s with
  | ⟨.error e, s'⟩ => ⟨.error e, s'⟩
  | ⟨.ok text, s'⟩ => ⟨.ok (some (s.token .delete text line)), s'⟩

def operatorToken (first : Char) (line : Int) (s : Lexer) : Step Fault Lexer (Option Token) :=
  if first = commentMark then
    match s.peek with
    | ⟨.error e, s'⟩ => ⟨.error e, s'⟩
    | ⟨.ok next, s'⟩ =>
      if next = some commentMark then (s'.take commentMark).commentToken line
      else s'.runToken .operator isOperatorSymbol first line
  else s.runToken .operator isOperatorSymbol first line

def cutOffString (text : List Char) (line : Int) (s : Lexer) : Step Fault Lexer (Option Token) :=
  let fragment := String.ofList (quoteMark :: text.take ScanError.fragmentLimit)
  match s.options.strings with
  | .raise => ⟨.error (.scan (.unterminatedString (some (s.location line)) (some fragment))), s⟩
  | .discard => ⟨.ok none, s.note (.discardedString (s.location line) fragment)⟩

def stringToken (line : Int) (s : Lexer) : Step Fault Lexer (Option Token) :=
  match takeLiteral [] s with
  | ⟨.error e, s'⟩ => ⟨.error e, s'⟩
  | ⟨.ok (.closed text), s'⟩ => ⟨.ok (some (s.token .string text line)), s'⟩
  | ⟨.ok (.cutOff text), s'⟩ => s'.cutOffString text line

def unknownChar (c : Char) (line : Int) (s : Lexer) : Step Fault Lexer (Option Token) :=
  match s.options.chars with
  | .raise => ⟨.error (.scan (.invalidCharacter c (some (s.location line)))), s⟩
  | .drop => ⟨.ok none, s.note (.droppedChar (s.location line) c)⟩

def tokenFrom (c : Char) (line : Int) (s : Lexer) : Step Fault Lexer (Option Token) :=
  match classify c with
  | .letter => s.runToken .identifier isIdentifierChar c line
  | .digit => s.runToken .integer isDigit c line
  | .operator => s.operatorToken c line
  | .quote => s.stringToken line
  | .space => s.runToken .delete isSpace c line
  | .punctuation => ⟨.ok ((Kind.ofPunctuation? c).map fun kind => s.token kind [c] line), s⟩
  | .other => s.unknownChar c line

/-- The next token. There is none at the end of the input, and none for input that is passed
over. -/
def nextToken (s : Lexer) : Step Fault Lexer (Option Token) :=
  match s.advance with
  | ⟨.error e, s'⟩ => ⟨.error e, s'⟩
  | ⟨.ok none, s'⟩ => ⟨.ok none, s'⟩
  | ⟨.ok (some c), s'⟩ => s'.tokenFrom c s.line

def close (s : Lexer) : Step Fault Lexer Unit :=
  let step := s.reader.shut
  ⟨step.result, { s with reader := step.state, slot := none }⟩

def pull (n : Nat) (s : Lexer) : Step Fault Lexer (List (Option Token)) :=
  Step.times nextToken n s

def pullAndClose (n : Nat) (s : Lexer) : Step Fault Lexer (List (Option Token)) :=
  (s.pull n).thenAlways close

theorem weight_runToken_le (kind : Kind) (p : Char → Bool) (first : Char) (line : Int)
    (s : Lexer) : (runToken kind p first line s).state.weight ≤ s.weight := by
  have := weight_takeRun_le p [first] s
  unfold runToken
  split <;> simp_all

theorem weight_commentToken_le (line : Int) (s : Lexer) :
    (commentToken line s).state.weight ≤ s.weight := by
  have := weight_takeLine_le [commentMark, commentMark] s
  unfold commentToken
  split <;> simp_all

theorem weight_operatorToken_le (first : Char) (line : Int) (s : Lexer) :
    (operatorToken first line s).state.weight ≤ s.weight := by
  have hle := s.weight_peek_le
  unfold operatorToken
  split
  · split
    · simp_all
    · rename_i next s' hp
      rw [hp] at hle
      split
      · rename_i hn
        subst hn
        exact Nat.le_trans (weight_commentToken_le line _) (Nat.le_of_lt (weight_take_peek hp))
      · exact Nat.le_trans (weight_runToken_le _ _ _ _ _) hle
  · exact weight_runToken_le _ _ _ _ _

theorem weight_stringToken_le (line : Int) (s : Lexer) :
    (stringToken line s).state.weight ≤ s.weight := by
  have hle := weight_takeLiteral_le [] s
  unfold stringToken
  split
  · simp_all
  · simp_all
  · rename_i text s' h
    rw [h] at hle
    unfold cutOffString
    split <;> exact hle

theorem weight_tokenFrom_le (c : Char) (line : Int) (s : Lexer) :
    (tokenFrom c line s).state.weight ≤ s.weight := by
  unfold tokenFrom
  split
  · exact weight_runToken_le _ _ _ _ _
  · exact weight_runToken_le _ _ _ _ _
  · exact weight_operatorToken_le _ _ _
  · exact weight_stringToken_le _ _
  · exact weight_runToken_le _ _ _ _ _
  · exact Nat.le_refl _
  · unfold unknownChar
    split <;> exact Nat.le_refl _

theorem weight_nextToken_lt {s s' : Lexer} {t : Option Token} (hm : s.hasMore = true)
    (h : s.nextToken = ⟨.ok t, s'⟩) : s'.weight < s.weight := by
  unfold nextToken at h
  split at h
  · cases h
  · rename_i s'' ha
    cases h
    exact weight_advance_none ha hm
  · rename_i c s'' ha
    have := weight_tokenFrom_le c s.line s''
    rw [h] at this
    exact Nat.lt_of_le_of_lt this (weight_advance_some ha)

end Lexer
end RpalLexer
