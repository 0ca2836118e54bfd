/-!
# Control sequences of a terminal

A sequence is an escape and an opening bracket, then parameters from zero to the question mark,
intermediates from the space to the slash, and one final character from the at sign to the tilde. A
text is plain once its sequences are taken out, from left to right and once: characters that come
together only by that stay.
-/
namespace RpalLexer.Text

def isParameter (c : Char) : Bool := '0' ≤ c && c ≤ '?'

def isIntermediate (c : Char) : Bool := ' ' ≤ c && c ≤ '/'

def isFinal (c : Char) : Bool := '@' ≤ c && c ≤ '~'

def afterSequence? : List Char → Option (List Char)
  | '\x1b' :: '[' :: cs =>
    match (cs.dropWhile isParameter).dropWhile isIntermediate with
    | c :: rest => if isFinal c then some rest else none
    | [] => none
  | _ => none

theorem length_afterSequence? {cs rest : List Char} (h : afterSequence? cs = some rest) :
    rest.length < cs.length := by
  unfold afterSequence? at h
  split at h
  · rename_i cs
    have h₁ := (List.dropWhile_sublist isParameter (l := cs)).length_le
    have h₂ := (List.dropWhile_sublist isIntermediate (l := cs.dropWhile isParameter)).length_le
    split at h
    · rename_i c tail ht
      rw [ht] at h₂
      split at h
      · cases h
        simp only [List.length_cons] at *
        omega
      · cases h
    · cases h
  · cases h

def plainChars (cs : List Char) : List Char :=
  match _h : afterSequence? cs with
  | some rest => plainChars rest
  | none =>
    match cs with
    | [] => []
    | c :: cs => c :: plainChars cs
termination_by cs.length
decreasing_by
  · exact length_afterSequence? _h
  · simp

def plain (text : String) : String := String.ofList (plainChars text.toList)

end RpalLexer.Text
