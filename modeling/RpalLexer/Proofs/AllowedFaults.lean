import RpalLexer.Proofs.CallInvariant
import RpalLexer.Proofs.ReaderLifetime
import RpalLexer.Proofs.WholeDecoding

/-!
# Faults that policies ask for

A reader that comes to the end of its input or to undecodable bytes goes by its policy, in whatever
order it is used. A lexer over such a reader has no faults but those that its policies ask for, and
neither has anyone who goes through its tokens. Main statements: `Reader.Sound.read`,
`Lexer.Sound.harvest_fault` and `Session.replies_fault`.
-/
namespace RpalLexer

/-- The faults that the policies ask for where the only failures are those of decoding. -/
def Options.Allows (o : Options) : Fault → Prop
  | .scan (.invalidCharacter _ _) => o.chars = .raise
  | .scan (.unterminatedString _ _) => o.strings = .raise
  | .scan (.unreadable _ (.undecodable _) _) => o.readErrors = .raise
  | _ => False

def Reply.fault? : Reply → Option Fault
  | .token (.error e) => some e
  | .done (.error e) => some e
  | _ => none

namespace Reader

variable {filename : String} {policy : ReadPolicy} {r : Reader} {stop : Option Failure}
  {cs : List Char}

structure Sound (filename : String) (policy : ReadPolicy) (r : Reader) : Prop where
  filename : r.filename = filename
  policy : r.policy = policy
  left : r.exhausted = true ∨
    ∃ stop cs, Leads stop cs r ∧ ∀ f, stop = some f → ∃ g, f = .undecodable g

theorem Leads.note (h : Leads stop cs r) (e : Event) : Leads stop cs (r.note e) :=
  ⟨h.isOpen, h.closable, h.hands⟩

theorem Leads.close_ok (h : Leads stop cs r) : r.close.result = .ok () := by
  rw [close, if_pos h.isOpen]
  exact h.closable

theorem policy_close (r : Reader) : r.close.state.policy = r.policy := by
  unfold close
  split <;> rfl

theorem Sound.note (h : r.Sound filename policy) (e : Event) :
    (r.note e).Sound filename policy where
  filename := h.filename
  policy := h.policy
  left := by
    rcases h.left with he | ⟨stop, cs, hl, hs⟩
    · exact Or.inl he
    · exact Or.inr ⟨stop, cs, hl.note e, hs⟩

theorem Sound.close (h : r.Sound filename policy) : r.close.state.Sound filename policy where
  filename := (filename_close r).trans h.filename
  policy := (policy_close r).trans h.policy
  left := Or.inl (exhausted_close r)

theorem Sound.close_ok (h : r.Sound filename policy) : r.close.result = .ok () := by
  rcases h.left with he | ⟨stop, cs, hl, -⟩
  · rw [close_of_exhausted he]
  · exact hl.close_ok

theorem sound_closedOn (r : Reader) (supply : Supply) :
    (r.closedOn supply).Sound r.filename r.policy :=
  ⟨rfl, rfl, Or.inl rfl⟩

/-- What a read does that goes by the policy. -/
inductive GoesBy (filename : String) (policy : ReadPolicy) (line : Option Int) :
    Step Fault Reader (Option Char) → Prop
  | char {c : Char} {r : Reader} : GoesBy filename policy line ⟨.ok (some c), r⟩
  | ended {r : Reader} (he : r.exhausted = true) : GoesBy filename policy line ⟨.ok none, r⟩
  | reported {f : DecodeFailure} {r : Reader} (hp : policy = .raise) (he : r.exhausted = true) :
      GoesBy filename policy line ⟨.error (.scan (.unreadable filename (.undecodable f) line)), r⟩

theorem Leads.last_sound (h : Leads stop [] r) (hs : ∀ f, stop = some f → ∃ g, f = .undecodable g)
    (line : Option Int) : (r.read line).state.Sound r.filename r.policy ∧
      GoesBy r.filename r.policy line (r.read line) := by
  obtain ⟨supply, -, hr⟩ := h.read_nil
  rw [hr line]
  cases stop with
  | none => exact ⟨(sound_closedOn r supply).note _, .ended rfl⟩
  | some f =>
    obtain ⟨g, rfl⟩ := hs f rfl
    have hg : (Failure.undecodable g).isReadError = true := rfl
    have hclosed := sound_closedOn r supply
    rw [lastStep, if_pos hg]
    generalize r.policy = policy at hclosed ⊢
    cases policy with
    | raise => exact ⟨hclosed, .reported rfl rfl⟩
    | endOfInput => exact ⟨hclosed.note _, .ended rfl⟩

theorem Sound.read (h : r.Sound filename policy) (line : Option Int) :
    (r.read line).state.Sound filename policy ∧ GoesBy filename policy line (r.read line) := by
  rcases h.left with he | ⟨stop, cs, hl, hs⟩
  · obtain ⟨hp, ho⟩ := exhausted_iff.1 he
    rw [read_of_closed hp ho]
    exact ⟨h, .ended he⟩
  · cases cs with
    | nil =>
      have hlast := hl.last_sound hs line
      rwa [h.filename, h.policy] at hlast
    | cons c cs =>
      obtain ⟨supply, pending, hr, hl'⟩ := hl.read_cons
      rw [hr line]
      exact ⟨⟨h.filename, h.policy, Or.inr ⟨stop, cs, hl', hs⟩⟩, .char⟩

theorem Sound.use (h : r.Sound filename policy) (use : Use) :
    (r.use use).Sound filename policy := by
  cases use with
  | read line => exact (h.read line).1
  | exhausted => exact h
  | close => exact h.close
  | enter => exact h
  | leave => exact h.close

theorem Sound.afterUses (h : r.Sound filename policy) (uses : List Use) :
    (r.afterUses uses).Sound filename policy := by
  induction uses generalizing r with
  | nil => exact h
  | cons use uses ih => exact ih (h.use use)

end Reader

namespace Lexer

variable {P : Lexer → Prop} {Q : Fault → Prop} {s s' : Lexer} {e : Fault} {skip : Bool}

section Calls

variable (hn : ∀ s, P s → P s.nextToken.state)
  (hq : ∀ s e, P s → s.nextToken.result = .error e → Q e)
include hn hq

theorem nextKept_fault (h : P s) (he : (s.nextKept skip).result = .error e) : Q e := by
  fun_induction Lexer.nextKept skip s with
  | case1 s hm e' s' hs =>
    cases he
    exact hq s _ h (by rw [hs])
  | case2 s hm s' hs ih =>
    have h' := hn s h
    rw [hs] at h'
    exact ih h' he
  | case3 s hm t s' hs hd ih =>
    have h' := hn s h
    rw [hs] at h'
    exact ih h' he
  | case4 s hm t s' hs hd => cases he
  | case5 s hm => cases he

theorem harvest_fault (h : P s) (limit : Option Nat)
    (he : (s.harvest skip limit).fault = some e) : Q e := by
  fun_induction Lexer.harvest skip limit s with
  | case1 s => cases he
  | case2 limit s hl e' s' hk =>
    cases he
    have hr : (s.nextKept skip).result = .error e := by rw [hk]
    exact nextKept_fault hn hq h hr
  | case3 limit s hl s' hk => cases he
  | case4 limit s hl t s' hk rest ih =>
    have h' := nextKept_keeps hn skip h
    rw [hk] at h'
    exact ih h' he

end Calls

variable {filename : String} {o : Options}

structure Sound (filename : String) (o : Options) (s : Lexer) : Prop where
  options : s.options = o
  reader : s.reader.Sound filename o.readErrors

theorem Sound.peek_error (h : s.Sound filename o) (hp : s.peek = ⟨.error e, s'⟩) : o.Allows e := by
  cases PeekCase.of_eq hp with
  | fault hs hr =>
    have hg := (h.reader.read (some s.line)).2
    rw [hr] at hg
    cases hg with
    | reported hpolicy he => exact hpolicy

theorem sound_invariant (filename : String) (o : Options) :
    Invariant (Sound filename o) where
  peek s h := by
    have hc := peekCase_peek s
    generalize s.peek = step at hc
    cases hc with
    | full hs => exact h
    | read hs hr =>
      have hread := (h.reader.read (some s.line)).1
      rw [hr] at hread
      exact ⟨h.options, hread⟩
    | fault hs hr =>
      have hread := (h.reader.read (some s.line)).1
      rw [hr] at hread
      exact ⟨h.options, hread⟩
  take s c hs h := ⟨h.options, h.reader⟩
  dropped s location c h := ⟨h.options, h.reader.note _⟩
  discarded s location fragment h := ⟨h.options, h.reader.note _⟩

theorem Sound.answer_error (h : s.Sound filename o) {line : Int} {content : Content}
    (he : (s.answer line content).result = .error e) : o.Allows e := by
  cases content with
  | lexeme kind text => cases he
  | unknown c =>
    rw [answer, unknownChar, h.options] at he
    cases hc : o.chars with
    | drop =>
      rw [hc] at he
      cases he
    | raise =>
      rw [hc] at he
      cases he
      exact hc
  | cutOff body =>
    rw [answer, cutOffString, h.options] at he
    cases hs : o.strings with
    | discard =>
      rw [hs] at he
      cases he
    | raise =>
      rw [hs] at he
      cases he
      exact hs

theorem Sound.nextToken (s : Lexer) (h : s.Sound filename o) : s.nextToken.state.Sound filename o :=
  (sound_invariant filename o).nextToken s h

theorem Sound.nextToken_error (s : Lexer) (e : Fault) (h : s.Sound filename o)
    (he : s.nextToken.result = .error e) : o.Allows e :=
  (sound_invariant filename o).nextToken_error (fun _ _ _ hs hp => hs.peek_error hp)
    (fun _ _ _ _ hs ha => hs.answer_error ha) h he

theorem Sound.harvest_fault (h : s.Sound filename o) (skip : Bool) (limit : Option Nat)
    (he : (s.harvest skip limit).fault = some e) : o.Allows e :=
  Lexer.harvest_fault Sound.nextToken Sound.nextToken_error h limit he

theorem Sound.close (s : Lexer) (h : s.Sound filename o) : s.close.state.Sound filename o :=
  ⟨h.options, h.reader.close⟩

theorem Sound.close_ok (h : s.Sound filename o) : s.close.result = .ok () := by
  simp only [Lexer.close, Reader.shut, h.reader.close_ok]
  rfl

theorem Sound.result_tokensAndClose (h : s.Sound filename o) (skip : Bool) :
    (s.tokensAndClose skip).result = (s.harvest skip none).toStep.result := by
  have hh : (s.harvest skip none).lexer.Sound filename o :=
    harvest_keeps Sound.nextToken skip none h
  have hc := Step.eq_of_result hh.close_ok
  rw [tokensAndClose, Step.thenAlways, Harvest.state_toStep, hc]

end Lexer

namespace Session

variable {u : Session} {filename : String} {o : Options} {e : Fault}

theorem serve_fault (h : u.lexer.Sound filename o) (q : Request)
    (he : (u.serve q).1.fault? = some e) : o.Allows e := by
  have hcall : ∀ s e, Lexer.Sound filename o s → s.nextToken.result = .error e → o.Allows e :=
    Lexer.Sound.nextToken_error
  cases q with
  | next =>
    apply hcall u.lexer e h
    cases hr : u.lexer.nextToken.result with
    | ok t => simp [serve, Reply.fault?, hr] at he
    | error e' => simpa [serve, Reply.fault?, hr] using he
  | hasMore => cases he
  | cursor skip => cases he
  | close => simp [serve, Reply.fault?, h.close_ok] at he
  | advance i =>
    cases hi : u.cursors[i]? with
    | none => simp [serve_advance_of_none hi, Reply.fault?] at he
    | some cursor =>
      rw [serve_advance hi] at he
      by_cases hf : cursor.finished = true
      · simp [Cursor.next_of_finished hf, Reply.fault?] at he
      · obtain ⟨finished, hnext, -⟩ := Cursor.next_of_not_finished hf u.lexer
        rw [hnext] at he
        have hkept : (u.lexer.nextKept cursor.skipDeleted).result = .error e → o.Allows e :=
          Lexer.nextKept_fault Lexer.Sound.nextToken hcall h
        apply hkept
        cases hr : (u.lexer.nextKept cursor.skipDeleted).result with
        | ok t => simp [Reply.fault?, hr] at he
        | error e' => simpa [Reply.fault?, hr] using he

theorem replies_fault (h : u.lexer.Sound filename o) (qs : List Request) :
    ∀ reply ∈ u.replies qs, ∀ e, reply.fault? = some e → o.Allows e := by
  induction qs generalizing u with
  | nil => simp [replies]
  | cons q qs ih =>
    intro reply hmem e he
    rw [replies, List.mem_cons] at hmem
    rcases hmem with rfl | hmem
    · exact serve_fault h q he
    · refine ih ?_ reply hmem e he
      exact serve_keeps Lexer.Sound.nextToken q (fun _ => Lexer.Sound.close) h

end Session
end RpalLexer
