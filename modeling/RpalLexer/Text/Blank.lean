/-!
White space at the ends of a text. The blank characters are those with the Unicode property
White_Space together with the four information separators U+001C to U+001F.
-/
namespace RpalLexer.Text

def blankRanges : List (Nat × Nat) :=
  [(0x09, 0x0D), (0x1C, 0x20), (0x85, 0x85), (0xA0, 0xA0), (0x1680, 0x1680), (0x2000, 0x200A),
    (0x2028, 0x2029), (0x202F, 0x202F), (0x205F, 0x205F), (0x3000, 0x3000)]

def inRanges (ranges : List (Nat × Nat)) (c : Char) : Bool :=
  ranges.any fun r => r.1 ≤ c.toNat && c.toNat ≤ r.2

def isBlank (c : Char) : Bool := inRanges blankRanges c

def trim (text : String) : String :=
  String.ofList (((text.toList.dropWhile isBlank).reverse.dropWhile isBlank).reverse)

def lowerAscii (text : String) : String := String.ofList (text.toList.map Char.toLower)

end RpalLexer.Text
