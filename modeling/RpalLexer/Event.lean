import RpalLexer.Failure
import RpalLexer.Location

/-! What readers, lexers and the command line put on record while they work. -/
namespace RpalLexer

inductive Level where
  | debug
  | info
  | warning
  deriving DecidableEq

def Level.name : Level → String
  | .debug => "DEBUG"
  | .info => "INFO"
  | .warning => "WARNING"

inductive Event where
  | opening (path encoding : String)
  | endOfInput (filename : String)
  | readError (filename : String) (cause : Failure)
  | discardedString (location : Location) (fragment : String)
  | droppedChar (location : Location) (char : Char)
  | finished (count : Nat) (path : String)
  deriving DecidableEq

namespace Event

def level : Event → Level
  | .readError _ _ => .warning
  | .finished _ _ => .info
  | _ => .debug

def message : Event → String
  | .opening path encoding => "Scanning " ++ path ++ " (encoding " ++ encoding ++ ")"
  | .endOfInput filename => "End of input on " ++ filename
  | .readError filename cause =>
    "Read error on " ++ filename ++ ", treating as end of input: " ++ cause.message
  | .discardedString location fragment =>
    location.text ++ ": discarding unterminated string " ++ Text.quoted fragment
  | .droppedChar location c =>
    location.text ++ ": dropping character " ++ Text.quoted (String.ofList [c])
  | .finished count path => "Scanned " ++ toString count ++ " tokens from " ++ path

def line (e : Event) : String := e.level.name ++ ": " ++ e.message

end Event
end RpalLexer
