import RpalLexer.Alphabet
import RpalLexer.Failure
import RpalLexer.Location
import RpalLexer.Text.JsonString
import RpalLexer.Text.Quoted

/-!
# Tokens

A token is a classified lexeme with the line its first character stands on. White space and
comments are tokens too, of kind `delete`, so that a consumer can see the whole source.
-/
namespace RpalLexer

/-- The lexical categories. Keywords are identifiers here; `reserved` is for later stages. -/
inductive Kind where
  | identifier
  | integer
  | string
  | operator
  | delete
  | leftParen
  | rightParen
  | semicolon
  | comma
  | reserved
  deriving DecidableEq

namespace Kind

def all : List Kind :=
  [.identifier, .integer, .string, .operator, .delete, .leftParen, .rightParen, .semicolon, .comma,
    .reserved]

def name : Kind → String
  | .identifier => "IDENTIFIER"
  | .integer => "INTEGER"
  | .string => "STRING"
  | .operator => "OPERATOR"
  | .delete => "DELETE"
  | .leftParen => "L_PAREN"
  | .rightParen => "R_PAREN"
  | .semicolon => "SEMICOLON"
  | .comma => "COMMA"
  | .reserved => "RESERVED"

def find (name : String) : Except Failure Kind :=
  match all.find? fun k => k.name == name with
  | some k => .ok k
  | none => .error (.missingKey name)

theorem find_name (k : Kind) : find k.name = .ok k := by cases k <;> rfl

def ofPunctuation? : Char → Option Kind
  | '(' => some .leftParen
  | ')' => some .rightParen
  | ';' => some .semicolon
  | ',' => some .comma
  | _ => none

end Kind

/-- A classified lexeme. The text of a string token has no quotes and keeps its escapes. -/
structure Token where
  kind : Kind
  text : String
  line : Int
  filename : String := unnamedSource
  deriving DecidableEq

namespace Token

def location (t : Token) : Location := ⟨t.filename, t.line⟩

def isDeleted (t : Token) : Bool := t.kind = .delete

def listed (t : Token) : String :=
  "Token[type=" ++ t.kind.name ++ ", value='" ++ t.text ++ "', line=" ++ toString t.line ++ "]"

def debugText (t : Token) : String :=
  "Token(" ++ t.kind.name ++ ", " ++ Text.quoted t.text ++ ", line " ++ toString t.line ++ ")"

def jsonRecord (t : Token) : String :=
  "\x7b\"type\": " ++ Text.jsonString t.kind.name ++ ", \"value\": " ++ Text.jsonString t.text ++
    ", \"line\": " ++ toString t.line ++ "\x7d"

end Token
end RpalLexer
