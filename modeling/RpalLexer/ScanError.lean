import RpalLexer.Failure
import RpalLexer.Location
import RpalLexer.Text.Hex

/-!
# Errors in a source

A message has the form

    filename:line: error: description
        source text
    hint: how to mend it

where the place, the source text and the hint are shown if they are known and not empty. Running
out of input is no error.
-/
namespace RpalLexer

inductive ScanError where
  | unterminatedString (location : Option Location) (sourceText : Option String)
  | invalidCharacter (char : Char) (location : Option Location)
  | unreadable (filename : String) (cause : Failure) (line : Option Int)
  | other (description : String) (location : Option Location) (hint sourceText : Option String)
  deriving DecidableEq

namespace ScanError

def fragmentLimit : Nat := 40

def description : ScanError → String
  | .unterminatedString _ _ => "unterminated string literal"
  | .invalidCharacter c _ =>
    "invalid character " ++ Text.quoted (String.ofList [c]) ++ " (U+" ++
      String.ofList (Text.upperHexDigits 4 c.toNat) ++ ")"
  | .unreadable filename cause _ => "cannot read '" ++ filename ++ "': " ++ cause.message
  | .other description _ _ _ => description

def location? : ScanError → Option Location
  | .unterminatedString location _ => location
  | .invalidCharacter _ location => location
  | .unreadable filename _ line => line.map fun l => ⟨filename, l⟩
  | .other _ location _ _ => location

def hint? : ScanError → Option String
  | .unterminatedString _ _ => some "add a closing ' to complete the string"
  | .invalidCharacter _ _ => none
  | .unreadable _ _ _ => none
  | .other _ _ hint _ => hint

def sourceText? : ScanError → Option String
  | .unterminatedString _ text => text
  | .invalidCharacter _ _ => none
  | .unreadable _ _ _ => none
  | .other _ _ _ text => text

def extraLine (lead : String) : Option String → String
  | none => ""
  | some text => if text.isEmpty then "" else "\n" ++ lead ++ text

def message (e : ScanError) : String :=
  let place := match e.location? with
    | none => ""
    | some l => l.text ++ ": "
  place ++ "error: " ++ e.description ++ extraLine "    " e.sourceText? ++
    extraLine "hint: " e.hint?

def ofInvalidText (text : String) (location : Option Location) : Except Failure ScanError :=
  match text.toList with
  | [c] => .ok (.invalidCharacter c location)
  | cs => .error (.plain .wrongType
      ("ord() expected a character, but string of length " ++ toString cs.length ++ " found"))

end ScanError

inductive Fault where
  | scan (error : ScanError)
  | failure (failure : Failure)
  deriving DecidableEq

def Fault.message : Fault → String
  | .scan e => e.message
  | .failure f => f.message

end RpalLexer
