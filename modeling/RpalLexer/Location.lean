/-! A place in a source: tokens and errors know the line and no column. -/
namespace RpalLexer

structure Location where
  filename : String
  line : Int
  deriving DecidableEq

def unnamedSource : String := "<input>"

def Location.text (l : Location) : String := l.filename ++ ":" ++ toString l.line

end RpalLexer
