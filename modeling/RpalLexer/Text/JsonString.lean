import RpalLexer.Text.Hex

/-!
# JSON strings in printable ASCII

Characters from the space to the tilde stand for themselves, the quote and the backslash apart.
Everything else is escaped: by its letter where JSON has one, otherwise by four hexadecimal digits
for each of its UTF-16 units.
-/
namespace RpalLexer.Text

def utf16Units (c : Char) : List Nat :=
  if c.toNat < 0x10000 then [c.toNat]
  else
    let offset := c.toNat - 0x10000
    [0xD800 + offset / 0x400, 0xDC00 + offset % 0x400]

def jsonChar (c : Char) : List Char :=
  if c = '\x22' then ['\\', '\x22']
  else if c = '\\' then ['\\', '\\']
  else if c = '\n' then ['\\', 'n']
  else if c = '\r' then ['\\', 'r']
  else if c = '\t' then ['\\', 't']
  else if c = '\x08' then ['\\', 'b']
  else if c = '\x0c' then ['\\', 'f']
  else if ' ' ≤ c && c ≤ '~' then [c]
  else (utf16Units c).flatMap fun unit => '\\' :: 'u' :: hexDigits 4 unit

def jsonString (text : String) : String :=
  String.ofList ('\x22' :: text.toList.flatMap jsonChar ++ ['\x22'])

end RpalLexer.Text
