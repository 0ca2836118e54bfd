import RpalLexer.Event
import RpalLexer.Options
import RpalLexer.ScanError
import RpalLexer.Supply

/-!
# Readers

A reader gives out the text of a stream character by character. The stream is closed once, as soon
as its end or a read error is seen, and not read after that.
-/
namespace RpalLexer

/-- `pending` is text that was read and not given out yet. `log` has the latest event first. -/
structure Reader where
  supply : Supply
  filename : String := unnamedSource
  policy : ReadPolicy := .raise
  pending : List Char := []
  isOpen : Bool := true
  log : List Event := []

namespace Reader

def ofText (stream : Stream Char) (filename : String) (policy : ReadPolicy) : Reader :=
  { supply := .text stream, filename, policy }

def ofBytes (stream : Stream UInt8) (encoding filename : String) (policy : ReadPolicy) :
    Except Failure Reader :=
  match Encoding.find encoding with
  | .error f => .error f
  | .ok e => .ok { supply := .bytes encoding (.ofEncoding e) stream, filename, policy }

def exhausted (r : Reader) : Bool := !r.isOpen && r.pending.isEmpty

def note (r : Reader) (e : Event) : Reader := { r with log := e :: r.log }

def events (r : Reader) : List Event := r.log.reverse

def close (r : Reader) : Step Failure Reader Unit :=
  if r.isOpen then
    let step := r.supply.close
    ⟨step.result, { r with supply := step.state, pending := [], isOpen := false }⟩
  else ⟨.ok (), { r with pending := [] }⟩

def finish (r : Reader) : Step Fault Reader (Option Char) :=
  match (r.note (.endOfInput r.filename)).close with
  | ⟨.ok _, r'⟩ => ⟨.ok none, r'⟩
  | ⟨.error g, r'⟩ => ⟨.error (.failure g), r'⟩

/-- A failed read. A read error closes the stream and goes by the policy; any other failure leaves
the stream open. -/
def failed (r : Reader) (f : Failure) (line : Option Int) : Step Fault Reader (Option Char) :=
  if f.isReadError then
    match r.close with
    | ⟨.error g, r'⟩ => ⟨.error (.failure g), r'⟩
    | ⟨.ok _, r'⟩ =>
      match r.policy with
      | .raise => ⟨.error (.scan (.unreadable r.filename f line)), r'⟩
      | .endOfInput => ⟨.ok none, r'.note (.readError r.filename f)⟩
  else ⟨.error (.failure f), r⟩

/-- The next character, none at the end of the input. The line only serves to locate an error. -/
def read (r : Reader) (line : Option Int) : Step Fault Reader (Option Char) :=
  match r.pending with
  | c :: cs => ⟨.ok (some c), { r with pending := cs }⟩
  | [] =>
    if !r.isOpen then ⟨.ok none, r⟩
    else
      match r.supply.next with
      | ⟨.ok (c :: cs), supply⟩ => ⟨.ok (some c), { r with supply, pending := cs }⟩
      | ⟨.ok [], supply⟩ => { r with supply }.finish
      | ⟨.error f, supply⟩ => { r with supply }.failed f line

section Cases

variable {r r' : Reader} {line : Option Int} {step : Step Fault Reader (Option Char)}

def closedOn (r : Reader) (supply : Supply) : Reader :=
  { r with supply, pending := [], isOpen := false }

/-- All that a read can do, with what it depends on. -/
inductive ReadCase (r : Reader) (line : Option Int) : Step Fault Reader (Option Char) → Prop
  | waiting {c : Char} {cs : List Char} (hp : r.pending = c :: cs) :
      ReadCase r line ⟨.ok (some c), { r with pending := cs }⟩
  | closed (hp : r.pending = []) (ho : r.isOpen = false) : ReadCase r line ⟨.ok none, r⟩
  | piece {c : Char} {cs : List Char} {supply : Supply} (hp : r.pending = []) (ho : r.isOpen = true)
      (hn : r.supply.next = ⟨.ok (c :: cs), supply⟩) :
      ReadCase r line ⟨.ok (some c), { r with supply, pending := cs }⟩
  | ended {supply supply' : Supply} (hp : r.pending = []) (ho : r.isOpen = true)
      (hn : r.supply.next = ⟨.ok [], supply⟩) (hc : supply.close = ⟨.ok (), supply'⟩) :
      ReadCase r line ⟨.ok none, (r.closedOn supply').note (.endOfInput r.filename)⟩
  | endedBadly {g : Failure} {supply supply' : Supply} (hp : r.pending = []) (ho : r.isOpen = true)
      (hn : r.supply.next = ⟨.ok [], supply⟩) (hc : supply.close = ⟨.error g, supply'⟩) :
      ReadCase r line ⟨.error (.failure g), (r.closedOn supply').note (.endOfInput r.filename)⟩
  | reported {f : Failure} {supply supply' : Supply} (hp : r.pending = []) (ho : r.isOpen = true)
      (hn : r.supply.next = ⟨.error f, supply⟩) (hf : f.isReadError = true)
      (hc : supply.close = ⟨.ok (), supply'⟩) (hr : r.policy = .raise) :
      ReadCase r line ⟨.error (.scan (.unreadable r.filename f line)), r.closedOn supply'⟩
  | passedOver {f : Failure} {supply supply' : Supply} (hp : r.pending = []) (ho : r.isOpen = true)
      (hn : r.supply.next = ⟨.error f, supply⟩) (hf : f.isReadError = true)
      (hc : supply.close = ⟨.ok (), supply'⟩) (hr : r.policy = .endOfInput) :
      ReadCase r line ⟨.ok none, (r.closedOn supply').note (.readError r.filename f)⟩
  | failedBadly {f g : Failure} {supply supply' : Supply} (hp : r.pending = [])
      (ho : r.isOpen = true) (hn : r.supply.next = ⟨.error f, supply⟩) (hf : f.isReadError = true)
      (hc : supply.close = ⟨.error g, supply'⟩) :
      ReadCase r line ⟨.error (.failure g), r.closedOn supply'⟩
  | otherFailure {f : Failure} {supply : Supply} (hp : r.pending = []) (ho : r.isOpen = true)
      (hn : r.supply.next = ⟨.error f, supply⟩) (hf : f.isReadError = false) :
      ReadCase r line ⟨.error (.failure f), { r with supply }⟩

theorem readCase_finish {supply : Supply} (line : Option Int) (hp : r.pending = [])
    (ho : r.isOpen = true) (hn : r.supply.next = ⟨.ok [], supply⟩) :
    ReadCase r line ({ r with supply } : Reader).finish := by
  cases hc : supply.close with
  | mk result supply' =>
    cases result with
    | ok u => simpa [finish, note, close, closedOn, ho, hc] using ReadCase.ended hp ho hn hc
    | error g => simpa [finish, note, close, closedOn, ho, hc] using ReadCase.endedBadly hp ho hn hc

theorem readCase_failed {f : Failure} {supply : Supply} (line : Option Int) (hp : r.pending = [])
    (ho : r.isOpen = true) (hn : r.supply.next = ⟨.error f, supply⟩) :
    ReadCase r line (({ r with supply } : Reader).failed f line) := by
  by_cases hf : f.isReadError = true
  · cases hc : supply.close with
    | mk result supply' =>
      cases result with
      | error g =>
        simpa [failed, close, closedOn, ho, hc, hf] using ReadCase.failedBadly hp ho hn hf hc
      | ok u =>
        cases hr : r.policy with
        | raise =>
          simpa [failed, close, closedOn, ho, hc, hf, hr] using ReadCase.reported hp ho hn hf hc hr
        | endOfInput =>
          simpa [failed, note, close, closedOn, ho, hc, hf, hr] using
            ReadCase.passedOver hp ho hn hf hc hr
  · rw [Bool.not_eq_true] at hf
    simpa [failed, hf] using ReadCase.otherFailure hp ho hn hf

theorem readCase_read (r : Reader) (line : Option Int) : ReadCase r line (r.read line) := by
  unfold read
  split
  · rename_i c cs hp
    exact .waiting hp
  · rename_i hp
    split
    · rename_i ho
      exact .closed hp (by simpa using ho)
    · rename_i ho
      have ho : r.isOpen = true := by simpa using ho
      split
      · rename_i c cs supply hn
        exact .piece hp ho hn
      · rename_i supply hn
        exact readCase_finish line hp ho hn
      · rename_i f supply hn
        exact readCase_failed line hp ho hn

theorem ReadCase.of_eq (h : r.read line = step) : ReadCase r line step :=
  h ▸ readCase_read r line

theorem ReadCase.read_eq (h : ReadCase r line step) : r.read line = step := by
  cases h with
  | waiting hp => simp [read, hp]
  | closed hp ho => simp [read, hp, ho]
  | piece hp ho hn => simp [read, hp, ho, hn]
  | ended hp ho hn hc => simp [read, hp, ho, hn, finish, note, close, closedOn, hc]
  | endedBadly hp ho hn hc => simp [read, hp, ho, hn, finish, note, close, closedOn, hc]
  | reported hp ho hn hf hc hr => simp [read, hp, ho, hn, failed, hf, close, closedOn, hc, hr]
  | passedOver hp ho hn hf hc hr =>
    simp [read, hp, ho, hn, failed, hf, note, close, closedOn, hc, hr]
  | failedBadly hp ho hn hf hc => simp [read, hp, ho, hn, failed, hf, close, closedOn, hc]
  | otherFailure hp ho hn hf => simp [read, hp, ho, hn, failed, hf]

def weight (r : Reader) : Nat :=
  r.pending.length + r.supply.size + if r.isOpen then 1 else 0

theorem weight_closedOn_lt {supply supply' : Supply} {result : Except Failure (List Char)}
    {closed : Except Failure Unit} (ho : r.isOpen = true) (hn : r.supply.next = ⟨result, supply⟩)
    (hc : supply.close = ⟨closed, supply'⟩) : (r.closedOn supply').weight < r.weight := by
  have hnext := r.supply.bounded_next.1
  have hclose := supply.size_close
  simp only [hn] at hnext
  simp only [hc] at hclose
  simp only [weight, closedOn, ho, List.length_nil, if_true, Bool.false_eq_true, if_false]
  omega

/-- A read that takes nothing away from the weight fails or sees the end once more. -/
theorem ReadCase.weight (h : ReadCase r line step) : step.state.weight < r.weight ∨
    step.state.weight ≤ r.weight ∧ ∀ c, step.result = .ok c → r.exhausted = true := by
  cases h with
  | waiting hp =>
    left
    simp only [Reader.weight, hp, List.length_cons]
    omega
  | closed hp ho => exact Or.inr ⟨Nat.le_refl _, fun _ _ => by simp [exhausted, hp, ho]⟩
  | piece hp ho hn =>
    have hnext := r.supply.bounded_next.2 _ (by rw [hn])
    simp only [hn, List.length_cons] at hnext
    left
    simp only [Reader.weight, hp, ho, List.length_nil, if_true]
    omega
  | ended hp ho hn hc => exact Or.inl (weight_closedOn_lt ho hn hc)
  | endedBadly hp ho hn hc => exact Or.inl (weight_closedOn_lt ho hn hc)
  | reported hp ho hn hf hc hr => exact Or.inl (weight_closedOn_lt ho hn hc)
  | passedOver hp ho hn hf hc hr => exact Or.inl (weight_closedOn_lt ho hn hc)
  | failedBadly hp ho hn hf hc => exact Or.inl (weight_closedOn_lt ho hn hc)
  | otherFailure hp ho hn hf =>
    have hnext := r.supply.bounded_next.1
    simp only [hn] at hnext
    refine Or.inr ⟨?_, fun c hc => nomatch hc⟩
    simp only [Reader.weight]
    omega

theorem weight_read_le (r : Reader) (line : Option Int) :
    (r.read line).state.weight ≤ r.weight :=
  (readCase_read r line).weight.elim Nat.le_of_lt And.left

theorem weight_read_lt {c : Option Char} (h : r.read line = ⟨.ok c, r'⟩)
    (he : r.exhausted = false) : r'.weight < r.weight :=
  (ReadCase.of_eq h).weight.resolve_right fun hn => by simp [hn.2 c rfl] at he

theorem weight_read_some {c : Char} (h : r.read line = ⟨.ok (some c), r'⟩) :
    r'.weight < r.weight := by
  refine weight_read_lt h ?_
  cases ReadCase.of_eq h with
  | waiting hp => simp [exhausted, hp]
  | piece hp ho hn => simp [exhausted, ho]

end Cases

def drain (r : Reader) (line : Option Int) : Step Fault Reader (List Char) :=
  match _h : r.read line with
  | ⟨.error e, r'⟩ => ⟨.error e, r'⟩
  | ⟨.ok none, r'⟩ => ⟨.ok [], r'⟩
  | ⟨.ok (some c), r'⟩ =>
    match drain r' line with
    | ⟨.error e, r''⟩ => ⟨.error e, r''⟩
    | ⟨.ok cs, r''⟩ => ⟨.ok (c :: cs), r''⟩
termination_by r.weight
decreasing_by exact weight_read_some _h

def shut (r : Reader) : Step Fault Reader Unit :=
  let step := r.close
  ⟨step.result.mapError .failure, step.state⟩

def readAndClose (r : Reader) (n : Nat) : Step Fault Reader (List (Option Char)) :=
  (Step.times (fun r => read r none) n r).thenAlways shut

end Reader
end RpalLexer
