import RpalLexer.Failure

/-!
# Encodings by name

The case of ASCII letters in a name does not matter, and any run of characters other than ASCII
letters, digits and full stops counts as one separator; separators at the ends do not count.
-/
namespace RpalLexer

inductive ByteOrder where
  | little
  | big
  deriving DecidableEq

/-- The supported encodings. `utf8Marked` drops one byte order mark at the start, `utf16Marked`
takes the byte order from it, and `undefined` can decode nothing. -/
inductive Encoding where
  | utf8
  | utf8Marked
  | ascii
  | latin1
  | utf16 (order : ByteOrder)
  | utf16Marked
  | undefined
  deriving DecidableEq

namespace Encoding

def isNameChar (c : Char) : Bool := c.isAlphanum || c == '.'

/-- Lower-case words joined by underscores. `started` says that a word stands before, `gap` that
a separator does. -/
def joinWords (started gap : Bool) : List Char → List Char
  | [] => []
  | c :: cs =>
    if !isNameChar c then joinWords started true cs
    else if started && gap then '_' :: c.toLower :: joinWords true false cs
    else c.toLower :: joinWords true false cs

def normalName (name : String) : String := String.ofList (joinWords false false name.toList)

def properNames : List (String × Encoding) :=
  [ ("utf_8", .utf8), ("utf_8_sig", .utf8Marked), ("ascii", .ascii), ("latin_1", .latin1),
    ("utf_16", .utf16Marked), ("utf_16_le", .utf16 .little), ("utf_16_be", .utf16 .big),
    ("undefined", .undefined) ]

def aliases : List (String × Encoding) :=
  [ ("utf8", .utf8), ("u8", .utf8), ("utf", .utf8), ("utf8_ucs2", .utf8), ("utf8_ucs4", .utf8),
    ("cp65001", .utf8),
    ("us_ascii", .ascii), ("us", .ascii), ("646", .ascii), ("ansi_x3.4_1968", .ascii),
    ("ansi_x3_4_1968", .ascii), ("ansi_x3.4_1986", .ascii), ("cp367", .ascii),
    ("csascii", .ascii), ("ibm367", .ascii), ("iso646_us", .ascii),
    ("iso_646.irv_1991", .ascii), ("iso_ir_6", .ascii),
    ("latin1", .latin1), ("latin", .latin1), ("l1", .latin1), ("iso_8859_1", .latin1),
    ("iso8859_1", .latin1), ("iso8859", .latin1), ("8859", .latin1),
    ("iso_8859_1_1987", .latin1), ("iso_ir_100", .latin1), ("cp819", .latin1),
    ("csisolatin1", .latin1), ("ibm819", .latin1),
    ("utf16", .utf16Marked), ("u16", .utf16Marked),
    ("utf_16le", .utf16 .little), ("unicodelittleunmarked", .utf16 .little),
    ("utf_16be", .utf16 .big), ("unicodebigunmarked", .utf16 .big) ]

def stopsToUnderscores (name : String) : String :=
  String.ofList (name.toList.map fun c => if c = '.' then '_' else c)

def ofName? (name : String) : Option Encoding :=
  let normal := normalName name
  (aliases.lookup normal).or
    ((aliases.lookup (stopsToUnderscores normal)).or (properNames.lookup normal))

def find (name : String) : Except Failure Encoding :=
  if name.toList.contains '\x00' then .error (.plain .badValue "embedded null character")
  else
    match ofName? name with
    | some e => .ok e
    | none => .error (.plain .unknownName ("unknown encoding: " ++ name))

end Encoding
end RpalLexer
