import RpalLexer.CommandLine.Arguments
import RpalLexer.CommandLine.Report
import RpalLexer.Lexer.Origin

/-!
# Runs

A run prints the tokens of a file, each on a line of its own, up to the end or the first fault. The
log, which is written as it is, and the report of a fault go to the other stream.
-/
namespace RpalLexer.CommandLine

def version : String := "1.0.0"

def versionText : String := "rpscan, version " ++ version ++ "\n"

def usageLine : String := "Usage: rpscan [OPTIONS] INPUT_FILE\n"

def helpText : String :=
  usageLine ++
  "\n" ++
  "  Print the tokens of an RPAL source file.\n" ++
  "\n" ++
  "  INPUT_FILE is the RPAL source file to scan.\n" ++
  "\n" ++
  "  Examples:\n" ++
  "      rpscan prog.rpal                 # Every token\n" ++
  "      rpscan -s prog.rpal              # Skip whitespace and comments\n" ++
  "      rpscan -f json prog.rpal         # JSON lines\n" ++
  "      rpscan --strict prog.rpal        # Fail on malformed input\n" ++
  "\n" ++
  "Options:\n" ++
  "  -s, --skip-deleted        Omit whitespace and comment (DELETE) tokens\n" ++
  "  -f, --format [text|json]  Output format: one token per line as text or as JSON\n" ++
  "                            objects  [default: text]\n" ++
  "  --strict                  Fail on unterminated strings and unknown characters\n" ++
  "  --strict-strings          Fail on an unterminated string instead of discarding\n" ++
  "                            it\n" ++
  "  --strict-chars            Fail on an unknown character instead of dropping it\n" ++
  "  --io-errors [raise|eof]   On a read failure: 'raise' an error or treat it as\n" ++
  "                            end of input ('eof')\n" ++
  "  -e, --encoding TEXT       Source file encoding (default: utf-8, or\n" ++
  "                            RPAL_SCAN_ENCODING)\n" ++
  "  -v, --verbose             Verbose output\n" ++
  "  --version                 Show the version and exit.\n" ++
  "  --help                    Show this message and exit.\n"

def UsageError.text (e : UsageError) : String :=
  (if e.showsUsage then usageLine ++ "Try 'rpscan --help' for help.\n\n" else "") ++
    printed ("Error: " ++ e.message)

/-- A path that no file can have fails the run without a word. -/
def UsageError.outcome : UsageError → Outcome
  | .nullInPath => ⟨.scanError, "", ""⟩
  | e => ⟨.invalidArguments, "", e.text⟩

def tokenLine (asJson : Bool) (t : Token) : String :=
  printed (if asJson then t.jsonRecord else t.listed)

def tokenLines (asJson : Bool) (tokens : List Token) : String :=
  String.join (tokens.map (tokenLine asJson))

def logText (verbose : Bool) (events : List Event) : String :=
  String.join ((events.filter fun e => verbose || e.level = .warning).map fun e => e.line ++ "\n")

def listTokens (l : Listing) (opening : List Event) (s : Lexer) : Outcome :=
  let harvest := s.harvest l.skipDeleted none
  let step := harvest.toStep.thenAlways Lexer.close
  let output := tokenLines l.asJson harvest.tokens
  let events := opening ++ step.state.reader.events
  match step.result with
  | .error e => ⟨.ofFault e, output, logText l.verbose events ++ faultText l.verbose e⟩
  | .ok tokens =>
    ⟨.success, output,
      logText l.verbose (events ++ [.finished tokens.length (shownPath l.path)])⟩

def Listing.run (l : Listing) (env : Environment) (files : Files) : Outcome :=
  match Options.ofFlags l.flags env with
  | .error f => report l.verbose (.failure f)
  | .ok options =>
    let opened := Lexer.ofFile files l.path options
    match opened.result with
    | .error f =>
      ⟨.ofFailure f, "", logText l.verbose opened.state ++ faultText l.verbose (.failure f)⟩
    | .ok lexer => listTokens l opened.state lexer

def run (args : List String) (env : Environment) (files : Files) : Outcome :=
  match Request.parse args files with
  | .error e => e.outcome
  | .ok .help => ⟨.success, helpText, ""⟩
  | .ok .version => ⟨.success, versionText, ""⟩
  | .ok (.list l) => l.run env files

end RpalLexer.CommandLine
