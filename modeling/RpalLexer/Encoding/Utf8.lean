import RpalLexer.Encoding.Codec

/-!
# UTF-8

The first byte of a character says how many follow and narrows the range of the second; that range
leaves out overlong forms, surrogates and values above U+10FFFF. A byte that cannot follow is wrong
as soon as it is seen, with one exception: the second byte of a surrogate waits for a third.
-/
namespace RpalLexer.Utf8

def isContinuation (b : UInt8) : Bool := 0x80 ≤ b && b ≤ 0xBF

def payload (b : UInt8) : Nat := b.toNat % 0x40

def isSecond (first second : UInt8) : Bool :=
  isContinuation second &&
    (first != 0xE0 || 0xA0 ≤ second) && (first != 0xED || second ≤ 0x9F) &&
    (first != 0xF0 || 0x90 ≤ second) && (first != 0xF4 || second ≤ 0x8F)

/-- Second byte of a code point kept for UTF-16 pairs. -/
def isSurrogate (first second : UInt8) : Bool :=
  first == 0xED && 0xA0 ≤ second && second ≤ 0xBF

def frontOfTwo (b : UInt8) : List UInt8 → Front
  | [] => .partly 0 .unexpectedEnd
  | b₂ :: _ =>
    if !isContinuation b₂ then .wrong 0 .invalidContinuation
    else .char (Char.ofNat ((b.toNat % 0x20) * 0x40 + payload b₂)) 1

def frontOfThree (b : UInt8) : List UInt8 → Front
  | [] => .partly 0 .unexpectedEnd
  | [b₂] =>
    if isSurrogate b b₂ then .partly 0 .invalidContinuation
    else if !isSecond b b₂ then .wrong 0 .invalidContinuation
    else .partly 1 .unexpectedEnd
  | b₂ :: b₃ :: _ =>
    if !isSecond b b₂ then .wrong 0 .invalidContinuation
    else if !isContinuation b₃ then .wrong 1 .invalidContinuation
    else .char (Char.ofNat ((b.toNat % 0x10) * 0x1000 + payload b₂ * 0x40 + payload b₃)) 2

def frontOfFour (b : UInt8) : List UInt8 → Front
  | [] => .partly 0 .unexpectedEnd
  | [b₂] =>
    if !isSecond b b₂ then .wrong 0 .invalidContinuation else .partly 1 .unexpectedEnd
  | [b₂, b₃] =>
    if !isSecond b b₂ then .wrong 0 .invalidContinuation
    else if !isContinuation b₃ then .wrong 1 .invalidContinuation
    else .partly 2 .unexpectedEnd
  | b₂ :: b₃ :: b₄ :: _ =>
    if !isSecond b b₂ then .wrong 0 .invalidContinuation
    else if !isContinuation b₃ then .wrong 1 .invalidContinuation
    else if !isContinuation b₄ then .wrong 2 .invalidContinuation
    else
      .char (Char.ofNat ((b.toNat % 0x08) * 0x40000 + payload b₂ * 0x1000 + payload b₃ * 0x40 +
        payload b₄)) 3

def front (b : UInt8) (bs : List UInt8) : Front :=
  if b < 0x80 then .char (Char.ofNat b.toNat) 0
  else if b < 0xC2 then .wrong 0 .invalidStart
  else if b < 0xE0 then frontOfTwo b bs
  else if b < 0xF0 then frontOfThree b bs
  else if b < 0xF5 then frontOfFour b bs
  else .wrong 0 .invalidStart

def codec : Codec := ⟨"utf-8", front⟩

def mark : List UInt8 := [0xEF, 0xBB, 0xBF]

end RpalLexer.Utf8
