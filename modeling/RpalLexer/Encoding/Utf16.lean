import RpalLexer.Encoding
import RpalLexer.Encoding.Codec

/-!
# UTF-16

Units of two bytes in either order. A high surrogate needs a low one after it, and together they
are one character.
-/
namespace RpalLexer.Utf16

def unit : ByteOrder → UInt8 → UInt8 → Nat
  | .little, b₁, b₂ => b₂.toNat * 0x100 + b₁.toNat
  | .big, b₁, b₂ => b₁.toNat * 0x100 + b₂.toNat

def isHigh (u : Nat) : Bool := 0xD800 ≤ u && u < 0xDC00

def isLow (u : Nat) : Bool := 0xDC00 ≤ u && u < 0xE000

def pairChar (high low : Nat) : Char :=
  Char.ofNat (0x10000 + (high - 0xD800) * 0x400 + (low - 0xDC00))

def front (order : ByteOrder) (b₁ : UInt8) : List UInt8 → Front
  | [] => .partly 0 .truncated
  | b₂ :: bs =>
    let u := unit order b₁ b₂
    if isLow u then .wrong 1 .loneSurrogate
    else if !isHigh u then .char (Char.ofNat u) 1
    else
      match bs with
      | b₃ :: b₄ :: _ =>
        let low := unit order b₃ b₄
        if isLow low then .char (pairChar u low) 3 else .wrong 1 .brokenPair
      | _ => .partly (1 + bs.length) .unexpectedEnd

def orderName : ByteOrder → String
  | .little => "utf-16-le"
  | .big => "utf-16-be"

def codec (order : ByteOrder) : Codec := ⟨orderName order, front order⟩

def markOrder? : List UInt8 → Option ByteOrder
  | b₁ :: b₂ :: _ =>
    if b₁ = 0xFF ∧ b₂ = 0xFE then some .little
    else if b₁ = 0xFE ∧ b₂ = 0xFF then some .big
    else none
  | _ => none

end RpalLexer.Utf16
