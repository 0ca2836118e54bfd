import RpalLexer.Policy
import RpalLexer.Text.Quoted

/-! The options of the command line by name, and what can be wrong with arguments. -/
namespace RpalLexer.CommandLine

inductive Setting where
  | skipDeleted
  | format
  | strict
  | strictStrings
  | strictChars
  | readErrors
  | encoding
  | verbose
  | version
  | help
  deriving DecidableEq

namespace Setting

def all : List Setting :=
  [.skipDeleted, .format, .strict, .strictStrings, .strictChars, .readErrors, .encoding, .verbose,
    .version, .help]

def longName : Setting → String
  | .skipDeleted => "--skip-deleted"
  | .format => "--format"
  | .strict => "--strict"
  | .strictStrings => "--strict-strings"
  | .strictChars => "--strict-chars"
  | .readErrors => "--io-errors"
  | .encoding => "--encoding"
  | .verbose => "--verbose"
  | .version => "--version"
  | .help => "--help"

def letter? : Setting → Option Char
  | .skipDeleted => some 's'
  | .format => some 'f'
  | .encoding => some 'e'
  | .verbose => some 'v'
  | _ => none

def takesValue : Setting → Bool
  | .format => true
  | .readErrors => true
  | .encoding => true
  | _ => false

def choices? : Setting → Option (List String)
  | .format => some ["text", "json"]
  | .readErrors => some (ReadPolicy.all.map ReadPolicy.value)
  | _ => none

def ofLongName? (name : String) : Option Setting := all.find? fun s => s.longName == name

def ofLetter? (c : Char) : Option Setting := all.find? fun s => s.letter? == some c

def names (s : Setting) : String :=
  match s.letter? with
  | none => Text.quoted s.longName
  | some c => Text.quoted (String.ofList ['-', c]) ++ " / " ++ Text.quoted s.longName

end Setting

inductive UsageError where
  | unknownOption (name : String)
  | valueMissing (name : String)
  | valueRefused (name : String)
  | notAChoice (setting : Setting) (value : String)
  | operandMissing
  | nullInPath
  | noSuchFile (path : String)
  | isDirectory (path : String)
  | leftOver (operands : List String)
  deriving DecidableEq

namespace UsageError

def message : UsageError → String
  | .unknownOption name => "No such option " ++ Text.quoted name ++ "."
  | .valueMissing name => "Option " ++ Text.quoted name ++ " requires an argument."
  | .valueRefused name => "Option " ++ Text.quoted name ++ " does not take a value."
  | .notAChoice setting value =>
    "Invalid value for " ++ setting.names ++ ": " ++ Text.quoted value ++ " is not one of " ++
      String.intercalate ", " ((setting.choices?.getD []).map Text.quoted) ++ "."
  | .operandMissing => "Missing argument 'INPUT_FILE'."
  | .nullInPath => "embedded null byte"
  | .noSuchFile path =>
    "Invalid value for 'INPUT_FILE': File " ++ Text.quoted path ++ " does not exist."
  | .isDirectory path =>
    "Invalid value for 'INPUT_FILE': File " ++ Text.quoted path ++ " is a directory."
  | .leftOver [operand] => "Got unexpected extra argument (" ++ operand ++ ")"
  | .leftOver operands =>
    "Got unexpected extra arguments (" ++ String.intercalate " " operands ++ ")"

def showsUsage : UsageError → Bool
  | .valueMissing _ => false
  | .valueRefused _ => false
  | _ => true

end UsageError

end RpalLexer.CommandLine
