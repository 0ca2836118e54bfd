import RpalLexer.Reader
import RpalLexer.Token

/-!
# Looking ahead

A lexer looks at most one character ahead; that character waits in a slot. A newline counts when it
is taken, so one that waits in the slot has not moved the line yet. Every loop here ends because a
character taken lowers the lexer's weight.
-/
namespace RpalLexer

structure Lexer where
  reader : Reader
  options : Options := {}
  slot : Option Char := none
  line : Int := 1

namespace Lexer

def filename (s : Lexer) : String := s.reader.filename

def location (s : Lexer) (line : Int) : Location := ⟨s.filename, line⟩

/-- A character waits, or the reader has not come to its end. The next call may still give no
token. -/
def hasMore (s : Lexer) : Bool := s.slot.isSome || !s.reader.exhausted

def note (s : Lexer) (e : Event) : Lexer := { s with reader := s.reader.note e }

def peek (s : Lexer) : Step Fault Lexer (Option Char) :=
  match s.slot with
  | some c => ⟨.ok (some c), s⟩
  | none =>
    match s.reader.read (some s.line) with
    | ⟨.ok c, reader⟩ => ⟨.ok c, { s with reader, slot := c }⟩
    | ⟨.error e, reader⟩ => ⟨.error e, { s with reader }⟩

def take (s : Lexer) (c : Char) : Lexer :=
  { s with slot := none, line := if c = '\n' then s.line + 1 else s.line }

def advance (s : Lexer) : Step Fault Lexer (Option Char) :=
  match s.peek with
  | ⟨.error e, s'⟩ => ⟨.error e, s'⟩
  | ⟨.ok none, s'⟩ => ⟨.ok none, s'⟩
  | ⟨.ok (some c), s'⟩ => ⟨.ok (some c), s'.take c⟩

section Cases

variable {s s' : Lexer}

inductive PeekCase (s : Lexer) : Step Fault Lexer (Option Char) → Prop
  | full {c : Char} (hs : s.slot = some c) : PeekCase s ⟨.ok (some c), s⟩
  | read {c : Option Char} {reader : Reader} (hs : s.slot = none)
      (hr : s.reader.read (some s.line) = ⟨.ok c, reader⟩) :
      PeekCase s ⟨.ok c, { s with reader, slot := c }⟩
  | fault {e : Fault} {reader : Reader} (hs : s.slot = none)
      (hr : s.reader.read (some s.line) = ⟨.error e, reader⟩) :
      PeekCase s ⟨.error e, { s with reader }⟩

theorem peekCase_peek (s : Lexer) : PeekCase s s.peek := by
  unfold peek
  split
  · rename_i c hs
    exact .full hs
  · rename_i hs
    split
    · rename_i c reader hr
      exact .read hs hr
    · rename_i e reader hr
      exact .fault hs hr

theorem PeekCase.of_eq {step : Step Fault Lexer (Option Char)} (h : s.peek = step) :
    PeekCase s step :=
  h ▸ peekCase_peek s

theorem advance_of_peek_some {c : Char} (h : s.peek = ⟨.ok (some c), s'⟩) :
    s.advance = ⟨.ok (some c), s'.take c⟩ := by
  simp [advance, h]

theorem advance_of_peek_none (h : s.peek = ⟨.ok none, s'⟩) : s.advance = ⟨.ok none, s'⟩ := by
  simp [advance, h]

theorem peek_of_advance_none (h : s.advance = ⟨.ok none, s'⟩) : s.peek = ⟨.ok none, s'⟩ := by
  unfold advance at h
  split at h
  · cases h
  · rename_i s₁ hp
    cases h
    exact hp
  · cases h

theorem peek_of_advance_error {e : Fault} (h : s.advance = ⟨.error e, s'⟩) :
    s.peek = ⟨.error e, s'⟩ := by
  unfold advance at h
  split at h
  · rename_i e s₁ hp
    cases h
    exact hp
  · cases h
  · cases h

theorem exists_peek_of_advance_some {c : Char} (h : s.advance = ⟨.ok (some c), s'⟩) :
    ∃ s₁, s.peek = ⟨.ok (some c), s₁⟩ ∧ s' = s₁.take c := by
  unfold advance at h
  split at h
  · cases h
  · cases h
  · rename_i c s₁ hp
    cases h
    exact ⟨s₁, hp, rfl⟩

def weight (s : Lexer) : Nat := s.slot.toList.length + s.reader.weight

theorem weight_peek_le (s : Lexer) : s.peek.state.weight ≤ s.weight := by
  have hc := peekCase_peek s
  generalize s.peek = step at hc
  cases hc with
  | full hs => exact Nat.le_refl _
  | @read c reader hs hr =>
    have hle := Reader.weight_read_le s.reader (some s.line)
    rw [hr] at hle
    cases c with
    | none => simpa [weight, hs] using hle
    | some c =>
      have hlt := Reader.weight_read_some hr
      simp only [weight, Option.toList_some, List.length_singleton]
      omega
  | fault hs hr =>
    have hle := Reader.weight_read_le s.reader (some s.line)
    rw [hr] at hle
    simpa [weight, hs] using hle

theorem weight_take_peek {c : Char} (h : s.peek = ⟨.ok (some c), s'⟩) :
    (s'.take c).weight < s.weight := by
  cases PeekCase.of_eq h with
  | full hs => simp [weight, take, hs]
  | read hs hr => simpa [weight, take, hs] using Reader.weight_read_some hr

theorem weight_advance_le (s : Lexer) : s.advance.state.weight ≤ s.weight := by
  have hle := s.weight_peek_le
  unfold advance
  split
  · rename_i e s' hp
    rwa [hp] at hle
  · rename_i s' hp
    rwa [hp] at hle
  · rename_i c s' hp
    exact Nat.le_of_lt (weight_take_peek hp)

theorem weight_advance_some {c : Char} (h : s.advance = ⟨.ok (some c), s'⟩) :
    s'.weight < s.weight := by
  obtain ⟨s₁, hp, rfl⟩ := exists_peek_of_advance_some h
  exact weight_take_peek hp

theorem weight_advance_none (h : s.advance = ⟨.ok none, s'⟩) (hm : s.hasMore = true) :
    s'.weight < s.weight := by
  cases PeekCase.of_eq (peek_of_advance_none h) with
  | read hs hr =>
    have he : s.reader.exhausted = false := by simpa [hasMore, hs] using hm
    simpa [weight, hs] using Reader.weight_read_lt hr he

end Cases

/-- Takes characters as long as they have property `p`; `taken` has the latest first. -/
def takeRun (p : Char → Bool) (taken : List Char) (s : Lexer) : Step Fault Lexer (List Char) :=
  match _h : s.peek with
  | ⟨.error e, s'⟩ => ⟨.error e, s'⟩
  | ⟨.ok none, s'⟩ => ⟨.ok taken.reverse, s'⟩
  | ⟨.ok (some c), s'⟩ =>
    if p c then takeRun p (c :: taken) (s'.take c) else ⟨.ok taken.reverse, s'⟩
termination_by s.weight
decreasing_by exact weight_take_peek _h

/-- Takes the rest of a line with the newline at its end, which does not belong to the result. -/
def takeLine (taken : List Char) (s : Lexer) : Step Fault Lexer (List Char) :=
  match _h : s.advance with
  | ⟨.error e, s'⟩ => ⟨.error e, s'⟩
  | ⟨.ok none, s'⟩ => ⟨.ok taken.reverse, s'⟩
  | ⟨.ok (some c), s'⟩ =>
    if c = '\n' then ⟨.ok taken.reverse, s'⟩ else takeLine (c :: taken) s'
termination_by s.weight
decreasing_by exact weight_advance_some _h

inductive Literal where
  | closed (text : List Char)
  | cutOff (text : List Char)

def takeLiteral (taken : List Char) (s : Lexer) : Step Fault Lexer Literal :=
  match _h : s.advance with
  | ⟨.error e, s₁⟩ => ⟨.error e, s₁⟩
  | ⟨.ok none, s₁⟩ => ⟨.ok (.cutOff taken.reverse), s₁⟩
  | ⟨.ok (some c), s₁⟩ =>
    if c = quoteMark then ⟨.ok (.closed taken.reverse), s₁⟩
    else if c = escapeMark then
      match _h' : s₁.advance with
      | ⟨.error e, s₂⟩ => ⟨.error e, s₂⟩
      | ⟨.ok none, s₂⟩ => ⟨.ok (.cutOff (c :: taken).reverse), s₂⟩
      | ⟨.ok (some d), s₂⟩ => takeLiteral (d :: c :: taken) s₂
    else takeLiteral (c :: taken) s₁
termination_by s.weight
decreasing_by
  · exact Nat.lt_trans (weight_advance_some _h') (weight_advance_some _h)
  · exact weight_advance_some _h

theorem weight_takeRun_le (p : Char → Bool) (taken : List Char) (s : Lexer) :
    (takeRun p taken s).state.weight ≤ s.weight := by
  fun_induction takeRun p taken s with
  | case1 taken s e s' h => simpa [h] using s.weight_peek_le
  | case2 taken s s' h => simpa [h] using s.weight_peek_le
  | case3 taken s c s' h hc ih => exact Nat.le_trans ih (Nat.le_of_lt (weight_take_peek h))
  | case4 taken s c s' h hc => simpa [h] using s.weight_peek_le

theorem weight_takeLine_le (taken : List Char) (s : Lexer) :
    (takeLine taken s).state.weight ≤ s.weight := by
  fun_induction takeLine taken s with
  | case1 taken s e s' h => simpa [h] using s.weight_advance_le
  | case2 taken s s' h => simpa [h] using s.weight_advance_le
  | case3 taken s s' h => simpa [h] using s.weight_advance_le
  | case4 taken s c s' h hc ih => exact Nat.le_trans ih (Nat.le_of_lt (weight_advance_some h))

theorem weight_takeLiteral_le (taken : List Char) (s : Lexer) :
    (takeLiteral taken s).state.weight ≤ s.weight := by
  fun_induction takeLiteral taken s with
  | case1 taken s e s₁ h => simpa [h] using s.weight_advance_le
  | case2 taken s s₁ h => simpa [h] using s.weight_advance_le
  | case3 taken s s₁ h => simpa [h] using s.weight_advance_le
  | case4 taken s s₁ e s₂ h' h _ =>
    have := s₁.weight_advance_le
    simp only [h'] at this
    exact Nat.le_trans this (Nat.le_of_lt (weight_advance_some h))
  | case5 taken s s₁ s₂ h' h _ =>
    have := s₁.weight_advance_le
    simp only [h'] at this
    exact Nat.le_trans this (Nat.le_of_lt (weight_advance_some h))
  | case6 taken s s₁ d s₂ h' h _ ih =>
    exact Nat.le_trans ih
      (Nat.le_of_lt (Nat.lt_trans (weight_advance_some h') (weight_advance_some h)))
  | case7 taken s c s₁ h hq hc ih => exact Nat.le_trans ih (Nat.le_of_lt (weight_advance_some h))

end Lexer
end RpalLexer
