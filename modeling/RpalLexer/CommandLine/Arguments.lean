import RpalLexer.CommandLine.Setting
import RpalLexer.Files
import RpalLexer.Options

/-!
# Arguments

Options and the operand may come in any order, and two dashes end the options. An option has a long
name, a short one, or both; short ones without a value may be joined, the last of a group may have
one. Of several values for an option the last counts. Faults of the form (unknown names, missing
values) are found first; then help and version act; then the values are checked in the order in
which their options were first given, then the operand, then what is left over.
-/
namespace RpalLexer.CommandLine

structure Given where
  setting : Setting
  value : String := ""
  deriving DecidableEq

structure Awaiting where
  setting : Setting
  name : String
  deriving DecidableEq

structure OptionGroup where
  given : List Given
  awaiting : Option Awaiting := none
  deriving DecidableEq

def readLetters : List Char → Except UsageError OptionGroup
  | [] => .ok ⟨[], none⟩
  | c :: cs =>
    let name := String.ofList ['-', c]
    match Setting.ofLetter? c with
    | none => .error (.unknownOption name)
    | some s =>
      if s.takesValue then
        match cs with
        | [] => .ok ⟨[], some ⟨s, name⟩⟩
        | _ :: _ => .ok ⟨[⟨s, String.ofList cs⟩], none⟩
      else
        match readLetters cs with
        | .error e => .error e
        | .ok group => .ok { group with given := ⟨s, ""⟩ :: group.given }

def splitLong (arg : List Char) : String × Option String :=
  match arg.dropWhile (· != '=') with
  | [] => (String.ofList arg, none)
  | _ :: value => (String.ofList (arg.takeWhile (· != '=')), some (String.ofList value))

def readLong (s : Setting) (name : String) (value : Option String) :
    Except UsageError OptionGroup :=
  if s.takesValue then
    match value with
    | none => .ok ⟨[], some ⟨s, name⟩⟩
    | some v => .ok ⟨[⟨s, v⟩], none⟩
  else
    match value with
    | none => .ok ⟨[⟨s, ""⟩], none⟩
    | some _ => .error (.valueRefused name)

def readOption (arg : List Char) : Except UsageError OptionGroup :=
  let (name, value) := splitLong arg
  match Setting.ofLongName? name, arg with
  | some s, _ => readLong s name value
  | none, '-' :: '-' :: _ => .error (.unknownOption name)
  | none, _ => readLetters (arg.drop 1)

structure Arguments where
  given : List Given
  operands : List String
  deriving DecidableEq

def isOption (arg : List Char) : Bool :=
  match arg with
  | '-' :: _ :: _ => true
  | _ => false

/-- Tells arguments apart; the first of them may be a value that an option waits for. -/
def Arguments.parse : Option Awaiting → List String → Except UsageError Arguments
  | none, [] => .ok ⟨[], []⟩
  | some a, [] => .error (.valueMissing a.name)
  | some a, value :: rest =>
    match parse none rest with
    | .error e => .error e
    | .ok args => .ok { args with given := ⟨a.setting, value⟩ :: args.given }
  | none, arg :: rest =>
    if arg == "--" then .ok ⟨[], rest⟩
    else if isOption arg.toList then
      match readOption arg.toList with
      | .error e => .error e
      | .ok group =>
        match parse group.awaiting rest with
        | .error e => .error e
        | .ok args => .ok { args with given := group.given ++ args.given }
    else
      match parse none rest with
      | .error e => .error e
      | .ok args => .ok { args with operands := arg :: args.operands }

namespace Arguments

def has (args : Arguments) (s : Setting) : Bool := args.given.any fun g => g.setting = s

def value? (args : Arguments) (s : Setting) : Option String :=
  (args.given.reverse.find? fun g => g.setting = s).map Given.value

/-- Words are compared without regard to case; the long s counts as an s. -/
def foldCase (word : String) : String :=
  String.ofList (word.toList.map fun c => if c = 'ſ' then 's' else c.toLower)

def choice? (s : Setting) (value : String) : Option String :=
  (s.choices?.getD []).find? fun choice => foldCase choice == foldCase value

def valueError? (args : Arguments) (s : Setting) : Option UsageError :=
  match s.choices?, args.value? s with
  | some _, some value => if (choice? s value).isNone then some (.notAChoice s value) else none
  | _, _ => none

def chosen? (args : Arguments) (s : Setting) : Option String := (args.value? s).bind (choice? s)

end Arguments

structure Listing where
  path : String
  flags : Flags
  skipDeleted : Bool
  asJson : Bool
  verbose : Bool
  deriving DecidableEq

inductive Request where
  | help
  | version
  | list (listing : Listing)
  deriving DecidableEq

def Arguments.listing (args : Arguments) (path : String) : Listing where
  path := path
  flags :=
    { strict := args.has .strict
      strictStrings := args.has .strictStrings
      strictChars := args.has .strictChars
      readErrors := args.chosen? .readErrors
      encoding := args.value? .encoding }
  skipDeleted := args.has .skipDeleted
  asJson := args.chosen? .format == some "json"
  verbose := args.has .verbose

def Arguments.file (args : Arguments) (files : Files) : Except UsageError String :=
  match args.operands with
  | [] => .error .operandMissing
  | path :: rest =>
    if path.toList.contains '\x00' then .error .nullInPath
    else
      match files path with
      | .error _ => .error (.noSuchFile path)
      | .ok .directory => .error (.isDirectory path)
      | .ok (.file _) => if rest.isEmpty then .ok path else .error (.leftOver rest)

def Arguments.notice? (args : Arguments) : Option Request :=
  args.given.findSome? fun g =>
    match g.setting with
    | .help => some .help
    | .version => some .version
    | _ => none

def Arguments.request (args : Arguments) (files : Files) : Except UsageError Request :=
  match args.notice? with
  | some request => .ok request
  | none =>
    match args.given.findSome? fun g => args.valueError? g.setting with
    | some e => .error e
    | none =>
      match args.file files with
      | .error e => .error e
      | .ok path => .ok (.list (args.listing path))

def Request.parse (args : List String) (files : Files) : Except UsageError Request :=
  match Arguments.parse none args with
  | .error e => .error e
  | .ok args => args.request files

end RpalLexer.CommandLine
