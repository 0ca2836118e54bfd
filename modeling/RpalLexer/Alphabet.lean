/-!
# The alphabet of RPAL source

Every character belongs to exactly one of seven classes. The class of the first character of a
lexeme decides what is read; the membership tests below decide how far it goes on. The underscore
is an operator symbol where it starts a lexeme and continues an identifier that has begun.
-/
namespace RpalLexer

inductive CharClass where
  | letter
  | digit
  | operator
  | quote
  | space
  | punctuation
  | other
  deriving DecidableEq

namespace CharClass

def all : List CharClass :=
  [.letter, .digit, .operator, .quote, .space, .punctuation, .other]

def name : CharClass → String
  | .letter => "LETTER"
  | .digit => "DIGIT"
  | .operator => "OPERATOR"
  | .quote => "QUOTE"
  | .space => "SPACE"
  | .punctuation => "PUNCTUATION"
  | .other => "OTHER"

end CharClass

def quoteMark : Char := '\x27'

def escapeMark : Char := '\\'

def commentMark : Char := '/'

def operatorSymbols : List Char :=
  ['+', '-', '/', '~', ':', '=', '|', '!', '#', '%', '_', '\x7b', '\x7d', '\x22', '*', '<', '>',
    '.', '&', '$', '^', '[', ']', '?', '@']

def spaces : List Char := [' ', '\t', '\n', '\r', '\x0c', '\x0b']

def punctuationMarks : List Char := ['(', ')', ';', ',']

/-- The letters of the alphabet are the 52 ASCII ones. -/
def isLetter (c : Char) : Bool := c.isAlpha

def isDigit (c : Char) : Bool := c.isDigit

def isOperatorSymbol (c : Char) : Bool := operatorSymbols.contains c

def isSpace (c : Char) : Bool := spaces.contains c

def isPunctuation (c : Char) : Bool := punctuationMarks.contains c

def isIdentifierChar (c : Char) : Bool := isLetter c || isDigit c || c == '_'

def classify (c : Char) : CharClass :=
  if isLetter c then .letter
  else if isDigit c then .digit
  else if isOperatorSymbol c then .operator
  else if c = quoteMark then .quote
  else if isSpace c then .space
  else if isPunctuation c then .punctuation
  else .other

def isOneCharacter (p : Char → Bool) (text : String) : Bool :=
  match text.toList with
  | [c] => p c
  | _ => false

def classifyText (text : String) : CharClass :=
  match text.toList with
  | [c] => classify c
  | _ => .other

def asciiMembers (p : Char → Bool) : String :=
  String.ofList (((List.range 128).map Char.ofNat).filter p)

end RpalLexer
