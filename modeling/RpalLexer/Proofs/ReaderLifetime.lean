import RpalLexer.Proofs.CallInvariant
import RpalLexer.Proofs.SupplyText

/-!
# The lifetime of a reader

A reader reads its stream some number of times and then closes it, at most once, whatever the stream
does and in whatever order the reader is used. Main statement: `stream_closed_once`.
-/
namespace RpalLexer

/-- What is done with a reader. A block over it is entered and left, and leaving closes it. -/
inductive Use where
  | read (line : Option Int)
  | exhausted
  | close
  | enter
  | leave

def Event.isTerminal : Event → Bool
  | .endOfInput _ => true
  | .readError _ _ => true
  | _ => false

namespace Supply

def afterReads (supply : Supply) : Nat → Supply
  | 0 => supply
  | n + 1 => (supply.afterReads n).next.state

theorem closes_afterReads (supply : Supply) (n : Nat) :
    (supply.afterReads n).closes = supply.closes := by
  induction n with
  | zero => rfl
  | succ n ih => rw [afterReads, (closing_next _).1, ih]

theorem Closable.afterReads {supply : Supply} (h : supply.Closable) (n : Nat) :
    (supply.afterReads n).Closable := by
  induction n with
  | zero => exact h
  | succ n ih => exact (closing_next _).2.trans ih

end Supply

namespace Reader

variable {supply next closed : Supply} {r : Reader} {line : Option Int} {log : List Event}

def use (r : Reader) : Use → Reader
  | .read line => (r.read line).state
  | .exhausted => r
  | .close => r.close.state
  | .enter => r
  | .leave => r.close.state

def afterUses (r : Reader) (uses : List Use) : Reader := uses.foldl use r

def terminals (log : List Event) : Nat := log.countP Event.isTerminal

/-- A reader of the supply: it has read it some number of times, and it has closed it after that if
it is closed. -/
structure Lifetime (supply : Supply) (r : Reader) : Prop where
  pending : r.pending ≠ [] → r.isOpen = true
  stream : ∃ n, r.supply =
    if r.isOpen then supply.afterReads n else (supply.afterReads n).close.state
  terminals : terminals r.log ≤ if r.isOpen then 0 else 1

theorem Lifetime.exhausted_eq (h : r.Lifetime supply) : r.exhausted = !r.isOpen := by
  by_cases ho : r.isOpen = true
  · simp [exhausted, ho]
  · have hp : r.pending = [] := by
      by_contra hp
      exact ho (h.pending hp)
    simp [exhausted, hp]

theorem Lifetime.supply_eq (h : r.Lifetime supply) : ∃ n, r.supply =
    if r.exhausted then (supply.afterReads n).close.state else supply.afterReads n := by
  obtain ⟨n, hn⟩ := h.stream
  refine ⟨n, ?_⟩
  rw [hn, h.exhausted_eq]
  by_cases ho : r.isOpen = true
  · simp [ho]
  · simp [ho]

theorem Lifetime.closes_eq (h : r.Lifetime supply) :
    r.supply.closes = supply.closes + if r.exhausted then 1 else 0 := by
  obtain ⟨n, hn⟩ := h.supply_eq
  rw [hn]
  split
  · rw [Supply.closes_close, supply.closes_afterReads n]
  · exact supply.closes_afterReads n

theorem Lifetime.closable (h : r.Lifetime supply) (hc : supply.Closable) :
    r.supply.Closable := by
  obtain ⟨n, hs⟩ := h.stream
  rw [hs]
  split
  · exact hc.afterReads n
  · exact (hc.afterReads n).of_close

theorem Lifetime.terminals_le (h : r.Lifetime supply) : Reader.terminals r.log ≤ 1 := by
  apply h.terminals.trans
  split
  · exact Nat.zero_le 1
  · exact Nat.le_refl 1

theorem Lifetime.opened (h : r.Lifetime supply) (ho : r.isOpen = true) :
    (∃ n, r.supply = supply.afterReads n) ∧ Reader.terminals r.log = 0 := by
  obtain ⟨n, hn⟩ := h.stream
  have ht := h.terminals
  rw [if_pos ho] at hn ht
  exact ⟨⟨n, hn⟩, Nat.le_zero.1 ht⟩

theorem Lifetime.terminals_cons_le (h : r.Lifetime supply) (ho : r.isOpen = true) (e : Event) :
    Reader.terminals (e :: r.log) ≤ 1 := by
  have ht := (h.opened ho).2
  rw [Reader.terminals] at ht ⊢
  rw [List.countP_cons, ht]
  split
  · exact Nat.le_refl 1
  · exact Nat.zero_le 1

theorem Lifetime.isOpen_of_pending {c : Char} {cs : List Char} (h : r.Lifetime supply)
    (hp : r.pending = c :: cs) : r.isOpen = true := by
  apply h.pending
  rw [hp]
  exact List.cons_ne_nil c cs

theorem Lifetime.isOpen_of_read_some {r' : Reader} {c : Char} (h : r.Lifetime supply)
    (hr : r.read line = ⟨.ok (some c), r'⟩) : r'.isOpen = true := by
  cases ReadCase.of_eq hr with
  | waiting hp => exact h.isOpen_of_pending hp
  | piece hp ho hn => exact ho

theorem Lifetime.readOn (h : r.Lifetime supply) (ho : r.isOpen = true)
    (hn : r.supply.next.state = next) (pending : List Char) :
    Lifetime supply { r with supply := next, pending } where
  pending _ := ho
  stream := by
    obtain ⟨⟨n, hs⟩, -⟩ := h.opened ho
    refine ⟨n + 1, ?_⟩
    rw [if_pos ho, Supply.afterReads, ← hs, hn]
  terminals := h.terminals

theorem Lifetime.closedOn (h : r.Lifetime supply) (ho : r.isOpen = true)
    (hn : next = r.supply ∨ next = r.supply.next.state) (hc : next.close.state = closed)
    (ht : Reader.terminals log ≤ 1) : Lifetime supply { r.closedOn closed with log } where
  pending hp := absurd rfl hp
  stream := by
    obtain ⟨⟨n, hs⟩, -⟩ := h.opened ho
    rw [hs] at hn
    rcases hn with rfl | rfl
    · exact ⟨n, hc.symm⟩
    · exact ⟨n + 1, hc.symm⟩
  terminals := ht

theorem Lifetime.readOut {result : Except Failure (List Char)} {ending : Except Failure Unit}
    (h : r.Lifetime supply) (ho : r.isOpen = true) (hn : r.supply.next = ⟨result, next⟩)
    (hc : next.close = ⟨ending, closed⟩) (ht : Reader.terminals log ≤ 1) :
    Lifetime supply { r.closedOn closed with log } := by
  apply h.closedOn ho
  · right
    rw [hn]
  · rw [hc]
  · exact ht

theorem ReadCase.lifetime {step : Step Fault Reader (Option Char)} (hc : ReadCase r line step)
    (h : r.Lifetime supply) : step.state.Lifetime supply := by
  cases hc with
  | waiting hp => exact ⟨fun _ => h.isOpen_of_pending hp, h.stream, h.terminals⟩
  | closed hp ho => exact h
  | piece hp ho hn => exact h.readOn ho (by rw [hn]) _
  | ended hp ho hn hc => exact h.readOut ho hn hc (h.terminals_cons_le ho _)
  | endedBadly hp ho hn hc => exact h.readOut ho hn hc (h.terminals_cons_le ho _)
  | reported hp ho hn hf hc hr => exact h.readOut ho hn hc h.terminals_le
  | passedOver hp ho hn hf hc hr => exact h.readOut ho hn hc (h.terminals_cons_le ho _)
  | failedBadly hp ho hn hf hc => exact h.readOut ho hn hc h.terminals_le
  | otherFailure hp ho hn hf => exact h.readOn ho (by rw [hn]) r.pending

theorem close_of_exhausted (h : r.exhausted = true) : r.close = ⟨.ok (), r⟩ := by
  obtain ⟨hp, ho⟩ := exhausted_iff.1 h
  rw [Reader.close, if_neg (by simp [ho]), ← hp]

theorem Lifetime.close (h : r.Lifetime supply) : r.close.state.Lifetime supply := by
  by_cases ho : r.isOpen = true
  · simp only [Reader.close, ho, if_true]
    exact h.closedOn ho (Or.inl rfl) rfl h.terminals_le
  · have he : r.exhausted = true := by simp [h.exhausted_eq, ho]
    rw [close_of_exhausted he]
    exact h

theorem Lifetime.use (h : r.Lifetime supply) (use : Use) : (r.use use).Lifetime supply := by
  cases use with
  | read line => exact (readCase_read r line).lifetime h
  | exhausted => exact h
  | close => exact h.close
  | enter => exact h
  | leave => exact h.close

theorem Lifetime.afterUses (h : r.Lifetime supply) (uses : List Use) :
    (r.afterUses uses).Lifetime supply := by
  induction uses generalizing r with
  | nil => exact h
  | cons use uses ih => exact ih (h.use use)

theorem lifetime_start (supply : Supply) (filename : String) (policy : ReadPolicy) :
    Lifetime supply { supply, filename, policy } :=
  ⟨fun _ => rfl, ⟨0, rfl⟩, Nat.le_refl 0⟩

theorem use_of_exhausted (h : r.exhausted = true) (use : Use) : r.use use = r := by
  cases use with
  | read line =>
    obtain ⟨hp, ho⟩ := exhausted_iff.1 h
    rw [Reader.use, read_of_closed hp ho]
  | exhausted => rfl
  | close => rw [Reader.use, close_of_exhausted h]
  | enter => rfl
  | leave => rw [Reader.use, close_of_exhausted h]

theorem afterUses_of_exhausted (h : r.exhausted = true) (uses : List Use) :
    r.afterUses uses = r := by
  induction uses with
  | nil => rfl
  | cons use uses ih =>
    rw [afterUses, List.foldl_cons, use_of_exhausted h use]
    exact ih

def Leaves (r : Reader) : Step Fault Reader (Option Char) → Prop
  | ⟨.ok (some c), r'⟩ => ∃ text, (text = [] ∨ r.supply.next.result = .ok text) ∧
      r.pending ++ text = c :: r'.pending
  | ⟨.ok none, r'⟩ => r'.exhausted = true
  | ⟨.error (.scan _), r'⟩ => r'.exhausted = true
  | ⟨.error (.failure _), _⟩ => True

theorem ReadCase.leaves {step : Step Fault Reader (Option Char)} (hc : ReadCase r line step) :
    r.Leaves step := by
  cases hc with
  | waiting hp => exact ⟨[], Or.inl rfl, by rw [hp, List.append_nil]⟩
  | closed hp ho => exact exhausted_iff.2 ⟨hp, ho⟩
  | piece hp ho hn => exact ⟨_, Or.inr (by rw [hn]), by rw [hp, List.nil_append]⟩
  | ended hp ho hn hc => rfl
  | endedBadly hp ho hn hc => trivial
  | reported hp ho hn hf hc hr => rfl
  | passedOver hp ho hn hf hc hr => rfl
  | failedBadly hp ho hn hf hc => trivial
  | otherFailure hp ho hn hf => trivial

theorem Lifetime.closes_close (h : r.Lifetime supply) :
    r.close.state.supply.closes = supply.closes + 1 := by
  rw [h.close.closes_eq, if_pos (exhausted_close r)]

end Reader

namespace Lexer

variable {supply : Supply} {s : Lexer}

theorem lifetime_invariant (supply : Supply) :
    Invariant fun s => s.reader.Lifetime supply where
  peek s h := by
    have hc := peekCase_peek s
    generalize s.peek = step at hc
    cases hc with
    | full hs => exact h
    | read hs hr =>
      have hread := (Reader.readCase_read s.reader (some s.line)).lifetime h
      rwa [hr] at hread
    | fault hs hr =>
      have hread := (Reader.readCase_read s.reader (some s.line)).lifetime h
      rwa [hr] at hread
  take s c hs h := h
  dropped s location c h := ⟨h.pending, h.stream, h.terminals⟩
  discarded s location fragment h := ⟨h.pending, h.stream, h.terminals⟩

theorem lifetime_after {u : Session} (h : u.lexer.reader.Lifetime supply) (qs : List Request) :
    (u.after qs).lexer.reader.Lifetime supply := by
  apply Session.after_keeps (P := fun s => s.reader.Lifetime supply)
  · exact (lifetime_invariant supply).nextToken
  · intro _ s hs
    exact hs.close
  · exact h

theorem closes_tokensAndClose (h : s.reader.Lifetime supply) (skip : Bool) :
    (s.tokensAndClose skip).state.reader.supply.closes = supply.closes + 1 := by
  rw [state_tokensAndClose]
  have hh : (s.harvest skip none).lexer.reader.Lifetime supply :=
    harvest_keeps (P := fun s => s.reader.Lifetime supply)
      (lifetime_invariant supply).nextToken skip none h
  exact hh.closes_close

theorem lifetime_ofSupply (supply : Supply) (filename : String) (o : Options) :
    (ofSupply supply filename o).reader.Lifetime supply :=
  Reader.lifetime_start supply filename o.readErrors

theorem ofFile_cases (files : Files) (path : String) (o : Options) :
    (∃ f, (ofFile files path o).result = .error f ∧
      (Encoding.find o.encoding = .error f ∨ files.contents (shownPath path) = .error f)) ∨
    ∃ e bytes, (ofFile files path o).result =
      .ok (ofSupply (.bytes o.encoding (.ofEncoding e) (.ofItems bytes)) (shownPath path) o) := by
  rw [ofFile]
  cases he : Encoding.find o.encoding with
  | error f => exact Or.inl ⟨f, rfl, Or.inl rfl⟩
  | ok e =>
    cases hf : files.contents (shownPath path) with
    | error f => exact Or.inl ⟨f, by simp only [hf], Or.inr rfl⟩
    | ok bytes =>
      refine Or.inr ⟨e, bytes, ?_⟩
      simp only [hf]
      exact ofByteStream_eq he _ _ o

end Lexer

/-- However a reader is used, also after failures, it reads its stream some number of times and then
closes it at most once; it is exhausted exactly when it has. Nothing is pending then, and nothing
changes any more. A block closes the stream once, whatever its result: one over a reader, one over
a lexer, and those in which the tokens of a text or of a file are gathered. -/
theorem stream_closed_once (supply : Supply) (filename : String) (policy : ReadPolicy) :
    let start : Reader := { supply, filename, policy }
    (∀ uses : List Use,
      let r := start.afterUses uses
      (∃ n, r.supply =
        if r.exhausted then (supply.afterReads n).close.state else supply.afterReads n) ∧
      r.supply.closes = supply.closes + (if r.exhausted then 1 else 0) ∧
      (r.pending ≠ [] → r.isOpen = true) ∧ Reader.terminals r.log ≤ 1 ∧
      (∀ line, r.Leaves (r.read line)) ∧
      (r.exhausted = true → (∀ line, r.read line = ⟨.ok none, r⟩) ∧
        ∀ later, start.afterUses (uses ++ later) = r) ∧
      ∀ (α : Type) (result : Except Fault α),
        (Step.thenAlways Reader.shut ⟨result, r⟩).state.supply.closes = supply.closes + 1) ∧
    (∀ (o : Options) (requests : List Request) (α : Type) (result : Except Fault α),
      let u := (Session.mk (Lexer.ofSupply supply filename o) []).after requests
      (Step.thenAlways Lexer.close ⟨result, u.lexer⟩).state.reader.supply.closes =
        supply.closes + 1) ∧
    (∀ text o skip,
      let step := (Lexer.ofString text filename o).tokensAndClose skip
      tokenize text filename o skip = step.result ∧ step.state.reader.supply.closes = 1) ∧
    ∀ files path o skip,
      (∃ f, scanFile files path o skip = .error (.failure f) ∧
        (Encoding.find o.encoding = .error f ∨ files.contents (shownPath path) = .error f)) ∨
      ∃ s, (Lexer.ofFile files path o).result = .ok s ∧
        scanFile files path o skip = (s.tokensAndClose skip).result ∧
        (s.tokensAndClose skip).state.reader.supply.closes = 1 := by
  intro start
  have hstart : start.Lifetime supply := Reader.lifetime_start supply filename policy
  refine ⟨fun uses => ?_, fun o requests α result => ?_, fun text o skip => ⟨rfl, ?_⟩,
    fun files path o skip => ?_⟩
  · have h := hstart.afterUses uses
    refine ⟨h.supply_eq, h.closes_eq, h.pending, h.terminals_le, fun line => ?_, fun he => ?_, ?_⟩
    · exact (Reader.readCase_read _ line).leaves
    · obtain ⟨hp, ho⟩ := Reader.exhausted_iff.1 he
      refine ⟨Reader.read_of_closed hp ho, fun later => ?_⟩
      rw [Reader.afterUses, List.foldl_append]
      exact Reader.afterUses_of_exhausted he later
    · intro α result
      rw [Step.state_thenAlways]
      exact h.closes_close
  · intro u
    have h : u.lexer.reader.Lifetime supply :=
      Lexer.lifetime_after (Lexer.lifetime_ofSupply supply filename o) requests
    rw [Step.state_thenAlways]
    exact h.closes_close
  · exact Lexer.closes_tokensAndClose (Lexer.lifetime_ofSupply _ filename o) skip
  · rcases Lexer.ofFile_cases files path o with ⟨f, hr, hf⟩ | ⟨e, bytes, hr⟩
    · left
      exact ⟨f, by rw [scanFile, hr], hf⟩
    · right
      refine ⟨_, hr, by rw [scanFile, hr], ?_⟩
      exact Lexer.closes_tokensAndClose (Lexer.lifetime_ofSupply _ _ o) skip

end RpalLexer
