import RpalLexer.Failure
import RpalLexer.Step

/-!
# Streams

A stream is known by what its reads will give, one after the other: a piece of its contents or a
failure. After the last of them reads give nothing, which is also how a stream shows its end. A
stream counts its reads and its closings.
-/
namespace RpalLexer

inductive Reading (α : Type) where
  | piece (items : List α)
  | failure (f : Failure)

def Reading.size {α : Type} : Reading α → Nat
  | .piece items => items.length
  | .failure _ => 0

def Reading.total {α : Type} : List (Reading α) → Nat
  | [] => 0
  | r :: rs => r.size + total rs

structure Stream (α : Type) where
  readings : List (Reading α)
  closeFailure : Option Failure := none
  reads : Nat := 0
  closes : Nat := 0

namespace Stream

variable {α : Type}

def ofItems (items : List α) : Stream α := { readings := items.map fun a => .piece [a] }

def read (s : Stream α) : Step Failure (Stream α) (List α) :=
  match s.readings with
  | [] => ⟨.ok [], { s with reads := s.reads + 1 }⟩
  | .piece items :: later => ⟨.ok items, { s with readings := later, reads := s.reads + 1 }⟩
  | .failure f :: later => ⟨.error f, { s with readings := later, reads := s.reads + 1 }⟩

def close (s : Stream α) : Step Failure (Stream α) Unit :=
  ⟨match s.closeFailure with
    | none => .ok ()
    | some f => .error f,
    { s with closes := s.closes + 1 }⟩

def size (s : Stream α) : Nat := Reading.total s.readings

theorem size_read_ok {s s' : Stream α} {items : List α} (h : s.read = ⟨.ok items, s'⟩) :
    items.length + s'.size = s.size := by
  unfold read at h
  split at h <;> cases h <;> simp_all [size, Reading.total, Reading.size]

theorem size_read_error {s s' : Stream α} {f : Failure} (h : s.read = ⟨.error f, s'⟩) :
    s'.size = s.size := by
  unfold read at h
  split at h <;> cases h
  simp_all [size, Reading.total, Reading.size]

theorem length_readings_read {s s' : Stream α} {a : α} {items : List α}
    (h : s.read = ⟨.ok (a :: items), s'⟩) : s'.readings.length < s.readings.length := by
  unfold read at h
  split at h <;> cases h
  simp_all

end Stream
end RpalLexer
