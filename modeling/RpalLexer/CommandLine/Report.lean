import RpalLexer.ScanError
import RpalLexer.Text.ControlSequence

/-!
# Exit codes and reports

How a run that met a fault ends: errors in the source, files and names that cannot be used, and
everything else have exit codes of their own. What is printed holds no control sequences.
-/
namespace RpalLexer.CommandLine

inductive ExitCode where
  | success
  | scanError
  | invalidArguments
  | internalError
  deriving DecidableEq

namespace ExitCode

def all : List ExitCode := [.success, .scanError, .invalidArguments, .internalError]

def name : ExitCode → String
  | .success => "SUCCESS"
  | .scanError => "SCAN_ERROR"
  | .invalidArguments => "INVALID_ARGS"
  | .internalError => "INTERNAL_ERROR"

def code : ExitCode → Nat
  | .success => 0
  | .scanError => 1
  | .invalidArguments => 2
  | .internalError => 3

def ofFailure : Failure → ExitCode
  | .system ⟨.notFound, _⟩ => .invalidArguments
  | .system ⟨.noPermission, _⟩ => .invalidArguments
  | .plain .badParameter _ => .invalidArguments
  | .plain .unknownName _ => .invalidArguments
  | .plain .missingKey _ => .invalidArguments
  | .plain .badIndex _ => .invalidArguments
  | _ => .internalError

def ofFault : Fault → ExitCode
  | .scan _ => .scanError
  | .failure f => ofFailure f

end ExitCode

structure Outcome where
  exit : ExitCode
  output : String
  errors : String
  deriving DecidableEq

def printed (text : String) : String := Text.plain text ++ "\n"

/-- What is told about a fault. A scan error's message names itself as one. An internal error is
followed in a verbose run by the trace of its handling, of which there is none. -/
def faultText (verbose : Bool) (e : Fault) : String :=
  match ExitCode.ofFault e with
  | .scanError => printed e.message
  | .invalidArguments => printed ("Error: " ++ e.message)
  | _ => printed ("Internal error: " ++ e.message) ++ if verbose then "NoneType: None\n" else ""

def report (verbose : Bool) (e : Fault) : Outcome := ⟨.ofFault e, "", faultText verbose e⟩

end RpalLexer.CommandLine
