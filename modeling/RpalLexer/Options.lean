import RpalLexer.Encoding
import RpalLexer.Policy

/-!
# Options

By default a string literal that is cut off and an unknown character vanish without a token, and a
read error is reported. Settings come from the defaults, from the environment, which counts for
nothing where it is not understood, and from flags; flags only tighten a policy or replace a value.
-/
namespace RpalLexer

/-- How a lexer treats malformed input, and how it decodes files. The encoding is kept as it was
named. -/
structure Options where
  strings : StringPolicy := .discard
  chars : CharPolicy := .drop
  readErrors : ReadPolicy := .raise
  encoding : String := "utf-8"
  deriving DecidableEq

abbrev Environment := List (String × String)

structure Flags where
  strict : Bool := false
  strictStrings : Bool := false
  strictChars : Bool := false
  readErrors : Option String := none
  encoding : Option String := none
  deriving DecidableEq

namespace Options

def strict (encoding : String := "utf-8") : Options := ⟨.raise, .raise, .raise, encoding⟩

def strictVariable : String := "RPAL_SCAN_STRICT"
def readErrorsVariable : String := "RPAL_SCAN_IO_ERRORS"
def encodingVariable : String := "RPAL_SCAN_ENCODING"

def trueWords : List String := ["1", "true", "yes", "on"]

def settingWord (value : String) : String := Text.lowerAscii (Text.trim value)

def strictWanted (env : Environment) : Bool :=
  match env.lookup strictVariable with
  | none => false
  | some value => trueWords.contains (settingWord value)

def readErrorsFrom (env : Environment) : ReadPolicy :=
  match env.lookup readErrorsVariable with
  | none => .raise
  | some value => (ReadPolicy.find (settingWord value)).toOption.getD .raise

def encodingFrom (env : Environment) : Except Failure String :=
  match env.lookup encodingVariable with
  | none => .ok "utf-8"
  | some name =>
    if name.isEmpty then .ok "utf-8"
    else
      match Encoding.find name with
      | .ok _ => .ok name
      | .error (.plain .unknownName _) => .ok "utf-8"
      | .error f => .error f

def ofEnvironment (env : Environment) : Except Failure Options :=
  match encodingFrom env with
  | .error f => .error f
  | .ok encoding =>
    .ok
      { strings := if strictWanted env then .raise else .discard
        chars := if strictWanted env then .raise else .drop
        readErrors := readErrorsFrom env
        encoding := encoding }

def tighten (o : Options) (flags : Flags) : Options :=
  { o with
    strings := if flags.strict || flags.strictStrings then .raise else o.strings
    chars := if flags.strict || flags.strictChars then .raise else o.chars }

def ofFlags (flags : Flags) (env : Environment) : Except Failure Options :=
  match ofEnvironment env with
  | .error f => .error f
  | .ok base =>
    let o := base.tighten flags
    let o := { o with encoding := flags.encoding.getD o.encoding }
    match flags.readErrors with
    | none => .ok o
    | some value =>
      match ReadPolicy.find value with
      | .ok policy => .ok { o with readErrors := policy }
      | .error f => .error f

end Options
end RpalLexer
