import RpalLexer.Failure

/-!
# Policies for malformed input

Each policy says whether one kind of malformed input is passed over or reported: a string literal
that the input ends in, a character outside the alphabet, and a stream that fails to read. Policies
are looked up by their values.
-/
namespace RpalLexer

inductive StringPolicy where
  | discard
  | raise
  deriving DecidableEq

inductive CharPolicy where
  | drop
  | raise
  deriving DecidableEq

inductive ReadPolicy where
  | raise
  | endOfInput
  deriving DecidableEq

namespace StringPolicy

def all : List StringPolicy := [.discard, .raise]

def name : StringPolicy → String
  | .discard => "DISCARD"
  | .raise => "RAISE"

def value : StringPolicy → String
  | .discard => "discard"
  | .raise => "raise"

def find (value : String) : Except Failure StringPolicy :=
  match all.find? fun p => p.value == value with
  | some p => .ok p
  | none => .error (.notAmong "StringPolicy" value)

end StringPolicy

namespace CharPolicy

def all : List CharPolicy := [.drop, .raise]

def name : CharPolicy → String
  | .drop => "DROP"
  | .raise => "RAISE"

def value : CharPolicy → String
  | .drop => "drop"
  | .raise => "raise"

def find (value : String) : Except Failure CharPolicy :=
  match all.find? fun p => p.value == value with
  | some p => .ok p
  | none => .error (.notAmong "CharacterPolicy" value)

end CharPolicy

namespace ReadPolicy

def all : List ReadPolicy := [.raise, .endOfInput]

def name : ReadPolicy → String
  | .raise => "RAISE"
  | .endOfInput => "END_OF_INPUT"

def value : ReadPolicy → String
  | .raise => "raise"
  | .endOfInput => "eof"

def find (value : String) : Except Failure ReadPolicy :=
  match all.find? fun p => p.value == value with
  | some p => .ok p
  | none => .error (.notAmong "IOErrorPolicy" value)

end ReadPolicy

end RpalLexer
