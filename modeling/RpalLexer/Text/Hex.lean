/-! Numbers in base sixteen, filled up with zeros on the left to a least width. -/
namespace RpalLexer.Text

def padLeft (width : Nat) (digits : List Char) : List Char :=
  List.replicate (width - digits.length) '0' ++ digits

def hexDigits (width n : Nat) : List Char := padLeft width (Nat.toDigits 16 n)

def upperHexDigits (width n : Nat) : List Char := (hexDigits width n).map Char.toUpper

end RpalLexer.Text
