import RpalLexer.Text.Hex
import RpalLexer.Text.Printable

/-!
# Quoted text

A text between quotes, with every character that cannot be shown written as an escape. The quote
is the single one, or the double one for a text that has single quotes and no double ones.
-/
namespace RpalLexer.Text

def quoteFor (text : List Char) : Char :=
  if text.contains '\x27' && !text.contains '\x22' then '\x22' else '\x27'

/-- The numeric escape of a character: two, four or eight digits, the fewest that hold it. -/
def numericEscape (c : Char) : List Char :=
  if c.toNat < 0x100 then '\\' :: 'x' :: hexDigits 2 c.toNat
  else if c.toNat < 0x10000 then '\\' :: 'u' :: hexDigits 4 c.toNat
  else '\\' :: 'U' :: hexDigits 8 c.toNat

def quotedChar (mark c : Char) : List Char :=
  if c = mark || c = '\\' then ['\\', c]
  else if c = '\t' then ['\\', 't']
  else if c = '\n' then ['\\', 'n']
  else if c = '\r' then ['\\', 'r']
  else if isPrintable c then [c]
  else numericEscape c

def quoted (text : String) : String :=
  let mark := quoteFor text.toList
  String.ofList (mark :: text.toList.flatMap (quotedChar mark) ++ [mark])

end RpalLexer.Text
