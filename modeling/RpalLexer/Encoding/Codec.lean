import RpalLexer.Failure

/-!
# Decoding by single characters

A codec is told by what it makes of the front of its input: a character, nothing yet, or bytes that
are no text. Running it over a whole input gives the characters and the bytes left over.
-/
namespace RpalLexer

/-- What stands at the front of the bytes. The count is of the bytes after the first one that
belong to it. `partly` is undecided as long as more bytes may come, and wrong where they end. -/
inductive Front where
  | char (c : Char) (more : Nat)
  | partly (more : Nat) (reason : DecodeReason)
  | wrong (more : Nat) (reason : DecodeReason)
  deriving DecidableEq

structure Codec where
  name : String
  front : UInt8 → List UInt8 → Front

structure Decoded where
  chars : List Char
  rest : List UInt8
  deriving DecidableEq

namespace Codec

/-- Decodes the bytes `data` from position `start` on, of which `bytes` is what lies there. An
unfinished character is left over unless the input is `final`. -/
def decodeFrom (codec : Codec) (final : Bool) (data : List UInt8) (start : Nat) :
    List UInt8 → Except DecodeFailure Decoded
  | [] => .ok ⟨[], []⟩
  | b :: bs =>
    match codec.front b bs with
    | .char c more =>
      match decodeFrom codec final data (start + 1 + more) (bs.drop more) with
      | .ok d => .ok ⟨c :: d.chars, d.rest⟩
      | .error f => .error f
    | .partly more reason =>
      if final then .error ⟨codec.name, data, start, start + 1 + more, reason⟩
      else .ok ⟨[], b :: bs⟩
    | .wrong more reason => .error ⟨codec.name, data, start, start + 1 + more, reason⟩
termination_by bytes => bytes.length
decreasing_by
  simp only [List.length_drop, List.length_cons]
  omega

def decode (codec : Codec) (final : Bool) (data : List UInt8) : Except DecodeFailure Decoded :=
  codec.decodeFrom final data 0 data

theorem length_decodeFrom {codec : Codec} {final : Bool} {data bytes : List UInt8} {start : Nat}
    {d : Decoded} (h : codec.decodeFrom final data start bytes = .ok d) :
    d.chars.length + d.rest.length ≤ bytes.length := by
  fun_induction codec.decodeFrom final data start bytes generalizing d with
  | case1 => cases h; simp
  | case2 start b bs c more hf e he ih =>
    cases h
    have := ih he
    simp only [List.length_cons, List.length_drop] at *
    omega
  | case3 => simp at h
  | case4 => simp at h
  | case5 => cases h; simp
  | case6 => simp at h

theorem length_decode {codec : Codec} {final : Bool} {data : List UInt8} {d : Decoded}
    (h : codec.decode final data = .ok d) : d.chars.length + d.rest.length ≤ data.length :=
  length_decodeFrom h

end Codec

def Codec.ascii : Codec where
  name := "ascii"
  front b _ := if b < 0x80 then .char (Char.ofNat b.toNat) 0 else .wrong 0 .notAscii

def Codec.latin1 : Codec where
  name := "latin-1"
  front b _ := .char (Char.ofNat b.toNat) 0

end RpalLexer
