import RpalLexer.CommandLine.Run

/-! The program: collects what a run depends on, and writes what it leaves. -/
namespace RpalLexer.CommandLine

def pathsIn (args : List String) : List String :=
  match Arguments.parse none args with
  | .ok ⟨_, path :: _⟩ => [path, shownPath path]
  | _ => []

def entryOfError : IO.Error → Except SystemReason Entry
  | .noFileOrDirectory _ _ _ => .error .notFound
  | .permissionDenied _ _ _ => .error .noPermission
  | .inappropriateType _ code _ => if code = 21 then .ok .directory else .error .notDirectory
  | _ => .error .unspecified

def look (path : String) : IO (String × Except SystemReason Entry) := do
  try
    let bytes ← IO.FS.readBinFile path
    return (path, .ok (.file bytes.toList))
  catch e =>
    return (path, entryOfError e)

def variableNames : List String :=
  [Options.strictVariable, Options.readErrorsVariable, Options.encodingVariable]

def environment : IO Environment :=
  variableNames.filterMapM fun name => do return (← IO.getEnv name).map fun value => (name, value)

end RpalLexer.CommandLine

open RpalLexer RpalLexer.CommandLine in
def main (args : List String) : IO UInt32 := do
  let seen ← (pathsIn args).mapM look
  let files : Files := fun path => (seen.lookup path).getD (.error .notFound)
  let outcome := run args (← environment) files
  IO.print outcome.output
  IO.eprint outcome.errors
  return UInt32.ofNat outcome.exit.code
