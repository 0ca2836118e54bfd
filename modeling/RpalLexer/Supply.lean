import RpalLexer.Encoding.Decoder
import RpalLexer.Stream

/-!
# Supplies of text

A supply hands on the contents of a stream as text, piece by piece. Bytes go through a decoder,
which is asked after every read, so that a bad character is met only when all before it are out.
-/
namespace RpalLexer

inductive Supply where
  | text (stream : Stream Char)
  | bytes (encoding : String) (decoder : Decoder) (stream : Stream UInt8)

namespace Supply

def encoding? : Supply → Option String
  | .text _ => none
  | .bytes encoding _ _ => some encoding

def reads : Supply → Nat
  | .text s => s.reads
  | .bytes _ _ s => s.reads

def closes : Supply → Nat
  | .text s => s.closes
  | .bytes _ _ s => s.closes

def size : Supply → Nat
  | .text s => s.size
  | .bytes _ d s => d.held.length + s.size

/-- Reads bytes until they make at least one character. An empty read is the end of the input, and
then the decoder has the last word. -/
def decodeNext (encoding : String) (d : Decoder) (s : Stream UInt8) :
    Step Failure Supply (List Char) :=
  match _h : s.read with
  | ⟨.error f, s'⟩ => ⟨.error f, .bytes encoding d s'⟩
  | ⟨.ok [], s'⟩ =>
    let fed := d.feed true []
    ⟨fed.result, .bytes encoding fed.state s'⟩
  | ⟨.ok (b :: bs), s'⟩ =>
    match d.feed false (b :: bs) with
    | ⟨.ok [], d'⟩ => decodeNext encoding d' s'
    | ⟨.ok (c :: cs), d'⟩ => ⟨.ok (c :: cs), .bytes encoding d' s'⟩
    | ⟨.error f, d'⟩ => ⟨.error f, .bytes encoding d' s'⟩
termination_by s.readings.length
decreasing_by exact Stream.length_readings_read _h

def next : Supply → Step Failure Supply (List Char)
  | .text s =>
    let step := s.read
    ⟨step.result, .text step.state⟩
  | .bytes encoding d s => decodeNext encoding d s

def close : Supply → Step Failure Supply Unit
  | .text s =>
    let step := s.close
    ⟨step.result, .text step.state⟩
  | .bytes encoding d s =>
    let step := s.close
    ⟨step.result, .bytes encoding d step.state⟩

def Bounded (bound : Nat) (step : Step Failure Supply (List Char)) : Prop :=
  step.state.size ≤ bound ∧ ∀ cs, step.result = .ok cs → cs.length + step.state.size ≤ bound

theorem bounded_decodeNext (encoding : String) (d : Decoder) (s : Stream UInt8) :
    Bounded (d.held.length + s.size) (decodeNext encoding d s) := by
  fun_induction decodeNext encoding d s with
  | case1 d s f s' h =>
    have := Stream.size_read_error h
    simp only [Bounded, size]
    exact ⟨by omega, by simp⟩
  | case2 d s s' h fed =>
    have hs := Stream.size_read_ok h
    simp only [List.length_nil] at hs
    have hh := Decoder.length_held_feed d true []
    simp only [List.length_nil] at hh
    refine ⟨by simp only [size, fed]; omega, fun cs hc => ?_⟩
    have := Decoder.length_feed hc
    simp only [size, fed, List.length_nil] at this ⊢
    omega
  | case3 d s b bs s' h d' hf ih =>
    have hs := Stream.size_read_ok h
    have hh := Decoder.length_held_feed d false (b :: bs)
    simp only [hf] at hh
    refine ⟨Nat.le_trans ih.1 (by omega), fun cs hc => Nat.le_trans (ih.2 cs hc) (by omega)⟩
  | case4 d s b bs s' h c cs d' hf =>
    have hs := Stream.size_read_ok h
    have hr : (d.feed false (b :: bs)).result = .ok (c :: cs) := by rw [hf]
    have hh := Decoder.length_feed hr
    simp only [hf] at hh
    refine ⟨by simp only [size]; omega, fun cs' hc => ?_⟩
    cases hc
    simp only [size]
    omega
  | case5 d s b bs s' h f d' hf =>
    have hs := Stream.size_read_ok h
    have hh := Decoder.length_held_feed d false (b :: bs)
    simp only [hf] at hh
    exact ⟨by simp only [size]; omega, by simp⟩

theorem bounded_next (supply : Supply) : Bounded supply.size supply.next := by
  cases supply with
  | text s =>
    cases h : s.read with
    | mk result s' =>
      cases result with
      | error f =>
        have := Stream.size_read_error h
        simp only [next, h, Bounded, size]
        exact ⟨by omega, by simp⟩
      | ok items =>
        have := Stream.size_read_ok h
        simp only [next, h, Bounded, size]
        refine ⟨by omega, fun cs hc => ?_⟩
        cases hc
        omega
  | bytes encoding d s => exact bounded_decodeNext encoding d s

@[simp] theorem size_close (supply : Supply) : supply.close.state.size = supply.size := by
  cases supply <;> rfl

end Supply

end RpalLexer
