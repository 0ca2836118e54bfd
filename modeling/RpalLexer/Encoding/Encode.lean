import RpalLexer.Encoding
import RpalLexer.Encoding.Utf16
import RpalLexer.Encoding.Utf8
import RpalLexer.Text.JsonString

/-!
The bytes of a text in an encoding, which is what a decoder undoes. A marked encoding has its byte
order mark in front; for `utf16Marked` the order is little-endian.
-/
namespace RpalLexer.Encoding

def unitBytes (order : ByteOrder) (unit : Nat) : List UInt8 :=
  match order with
  | .little => [UInt8.ofNat (unit % 0x100), UInt8.ofNat (unit / 0x100)]
  | .big => [UInt8.ofNat (unit / 0x100), UInt8.ofNat (unit % 0x100)]

def utf16Bytes (order : ByteOrder) (c : Char) : List UInt8 :=
  (Text.utf16Units c).flatMap (unitBytes order)

def encodeChar? : Encoding → Char → Option (List UInt8)
  | .utf8, c => some (String.utf8EncodeChar c)
  | .utf8Marked, c => some (String.utf8EncodeChar c)
  | .ascii, c => if c.toNat < 0x80 then some [UInt8.ofNat c.toNat] else none
  | .latin1, c => if c.toNat < 0x100 then some [UInt8.ofNat c.toNat] else none
  | .utf16 order, c => some (utf16Bytes order c)
  | .utf16Marked, c => some (utf16Bytes .little c)
  | .undefined, _ => none

def mark : Encoding → List UInt8
  | .utf8Marked => Utf8.mark
  | .utf16Marked => unitBytes .little 0xFEFF
  | _ => []

def encodeChars? (e : Encoding) : List Char → Option (List UInt8)
  | [] => some []
  | c :: cs =>
    match e.encodeChar? c, e.encodeChars? cs with
    | some b, some bs => some (b ++ bs)
    | _, _ => none

def encode? (e : Encoding) (text : List Char) : Option (List UInt8) :=
  (e.encodeChars? text).map (e.mark ++ ·)

end RpalLexer.Encoding
