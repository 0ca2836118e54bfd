import RpalLexer.Files
import RpalLexer.Lexer.Cursor

/-!
# Where lexers start

A lexer starts on a stream of text, a stream of bytes, a text or a file. A file is read as bytes,
one by one, so its line ends reach the lexer as they are.
-/
namespace RpalLexer

namespace Lexer

def ofTextStream (stream : Stream Char) (filename : String) (options : Options) : Lexer :=
  { reader := .ofText stream filename options.readErrors, options }

def ofByteStream (stream : Stream UInt8) (encoding filename : String) (options : Options) :
    Except Failure Lexer :=
  match Reader.ofBytes stream encoding filename options.readErrors with
  | .error f => .error f
  | .ok reader => .ok { reader, options }

def ofString (text filename : String) (options : Options) : Lexer :=
  ofTextStream (.ofItems text.toList) filename options

/-- Opens a file. The encoding is looked up first; the file is on record before it is opened. -/
def ofFile (files : Files) (path : String) (options : Options) :
    Step Failure (List Event) Lexer :=
  match Encoding.find options.encoding with
  | .error f => ⟨.error f, []⟩
  | .ok _ =>
    let shown := shownPath path
    let events := [Event.opening shown options.encoding]
    match files.contents shown with
    | .error f => ⟨.error f, events⟩
    | .ok bytes => ⟨ofByteStream (.ofItems bytes) options.encoding shown options, events⟩

end Lexer

def tokenize (text filename : String) (options : Options) (skipDeleted : Bool) :
    Except Fault (List Token) :=
  ((Lexer.ofString text filename options).tokensAndClose skipDeleted).result

def scanFile (files : Files) (path : String) (options : Options) (skipDeleted : Bool) :
    Except Fault (List Token) :=
  match (Lexer.ofFile files path options).result with
  | .error f => .error (.failure f)
  | .ok lexer => (lexer.tokensAndClose skipDeleted).result

end RpalLexer
