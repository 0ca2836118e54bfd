import RpalLexer.Proofs.ClosingQuote
import RpalLexer.Proofs.LookaheadSlot

/-!
# Faults when they are due

What the reads of a stream of text give, and which of these reads a call makes. A call fails for
what it takes and for what its reads give, exactly as the policies say. Main statement:
`faults_when_due`.
-/
namespace RpalLexer

variable {x : Except Failure (List Char)} {policy : ReadPolicy} {f : Failure}

def GivesText (x : Except Failure (List Char)) : Prop := ∃ c cs, x = .ok (c :: cs)

def ReadPolicy.EndsOn (policy : ReadPolicy) (x : Except Failure (List Char)) : Prop :=
  x = .ok [] ∨ policy = .endOfInput ∧ ∃ f, x = .error f

theorem GivesText.ne_error (h : GivesText x) (f : Failure) : x ≠ .error f := by
  obtain ⟨c, cs, rfl⟩ := h
  intro he
  cases he

theorem not_endsOn_of_raise (hr : policy = .raise) : ¬policy.EndsOn (.error f) := by
  intro he
  rcases he with he | ⟨hp, -⟩
  · cases he
  · cases hr.symm.trans hp

theorem GivesText.not_endsOn (h : GivesText x) (policy : ReadPolicy) : ¬policy.EndsOn x := by
  intro he
  obtain ⟨c, cs, rfl⟩ := h
  rcases he with he | ⟨-, f, he⟩
  · cases he
  · cases he

namespace Stream

variable {stream : Stream Char} {n : Nat}

def outcome (stream : Stream Char) (n : Nat) : Except Failure (List Char) :=
  match stream.readings[n]? with
  | none => .ok []
  | some (.piece items) => .ok items
  | some (.failure f) => .error f

/-- Reads fail with read errors only, and closing does not fail. -/
structure Ordinary (stream : Stream Char) : Prop where
  closes : stream.closeFailure = none
  fails : ∀ f, .failure f ∈ stream.readings → f.isReadError = true

theorem Ordinary.isReadError (h : stream.Ordinary) (hn : stream.outcome n = .error f) :
    f.isReadError = true := by
  unfold outcome at hn
  split at hn
  · cases hn
  · cases hn
  · rename_i g hg
    cases hn
    exact h.fails f (List.mem_of_getElem? hg)

theorem read_eq (stream : Stream Char) : stream.read =
    ⟨stream.outcome 0,
      { stream with readings := stream.readings.tail, reads := stream.reads + 1 }⟩ := by
  unfold read outcome
  split <;> simp_all

theorem outcome_drop (stream : Stream Char) (n reads : Nat) :
    outcome { stream with readings := stream.readings.drop n, reads } 0 = stream.outcome n := by
  simp [outcome]

end Stream

namespace Supply

variable {stream : Stream Char} {n : Nat}

theorem afterReads_text (stream : Stream Char) (n : Nat) : (Supply.text stream).afterReads n =
    .text { stream with readings := stream.readings.drop n, reads := stream.reads + n } := by
  induction n with
  | zero => rfl
  | succ n ih => simp [afterReads, ih, next, Stream.read_eq, Nat.add_assoc]

theorem next_afterReads_text (stream : Stream Char) (n : Nat) :
    ((Supply.text stream).afterReads n).next =
      ⟨stream.outcome n, (Supply.text stream).afterReads (n + 1)⟩ := by
  have hr : ((Supply.text stream).afterReads n).next.result = stream.outcome n := by
    rw [afterReads_text, next, Stream.read_eq]
    exact stream.outcome_drop n _
  rw [← hr]
  rfl

@[simp] theorem reads_afterReads_text (stream : Stream Char) (n : Nat) :
    ((Supply.text stream).afterReads n).reads = stream.reads + n := by
  rw [afterReads_text]
  rfl

end Supply

namespace Reader

variable {stream : Stream Char} {r r' r'' : Reader} {seen seen' : List (Except Failure (List Char))}
  {line : Option Int} {step : Step Fault Reader (Option Char)}

structure Sees (stream : Stream Char) (r : Reader) (seen : List (Except Failure (List Char)))
    (r' : Reader) : Prop where
  started : stream.reads ≤ r.supply.reads
  reads : r'.supply.reads = r.supply.reads + seen.length
  outcomes : (List.range' (r.supply.reads - stream.reads) seen.length).map stream.outcome = seen

theorem Sees.trans (h : Sees stream r seen r') (h' : Sees stream r' seen' r'') :
    Sees stream r (seen ++ seen') r'' where
  started := h.started
  reads := by rw [h'.reads, h.reads, List.length_append, Nat.add_assoc]
  outcomes := by
    -- The second part counts its reads on from where the first one stops.
    have hs : r'.supply.reads - stream.reads = r.supply.reads - stream.reads + seen.length := by
      have hstarted := h.started
      rw [h.reads]
      omega
    have hs' := h'.outcomes
    rw [hs] at hs'
    rw [List.length_append, ← List.range'_append_1, List.map_append, h.outcomes, hs']

theorem Sees.alike (h : Sees stream r seen r') (ha : r'.Alike r'') : Sees stream r seen r'' := by
  obtain ⟨log, rfl⟩ := ha
  exact ⟨h.started, h.reads, h.outcomes⟩

theorem Lifetime.reads_eq (h : r.Lifetime (.text stream)) :
    ∃ n, r.supply.reads = stream.reads + n := by
  obtain ⟨n, hn⟩ := h.supply_eq
  refine ⟨n, ?_⟩
  rw [hn]
  split <;> simp

theorem Lifetime.sees_nil (h : r.Lifetime (.text stream)) (hr : r'.supply.reads = r.supply.reads) :
    Sees stream r [] r' := by
  obtain ⟨n, hn⟩ := h.reads_eq
  exact ⟨by omega, by simp [hr], rfl⟩

theorem Lifetime.sees_next {result : Except Failure (List Char)} {next : Supply}
    (h : r.Lifetime (.text stream)) (ho : r.isOpen = true) (hn : r.supply.next = ⟨result, next⟩)
    (hr : r'.supply.reads = next.reads) :
    Sees stream r [result] r' ∧ ∃ n, result = stream.outcome n := by
  obtain ⟨⟨n, hs⟩, -⟩ := h.opened ho
  rw [hs, Supply.next_afterReads_text] at hn
  cases hn
  rw [Supply.reads_afterReads_text] at hr
  refine ⟨⟨?_, ?_, ?_⟩, n, rfl⟩
  · simp [hs]
  · simp [hs, hr, Nat.add_assoc]
  · simp [hs]

inductive Shows (policy : ReadPolicy) (filename : String) (line : Option Int) :
    List (Except Failure (List Char)) → Except Fault (Option Char) → Prop
  | char {c : Char} {texts : List (Except Failure (List Char))} (ht : ∀ x ∈ texts, GivesText x) :
      Shows policy filename line texts (.ok (some c))
  | ended {last : Except Failure (List Char)} (hl : policy.EndsOn last) :
      Shows policy filename line [last] (.ok none)
  | reported {f : Failure} (hp : policy = .raise) :
      Shows policy filename line [.error f] (.error (.scan (.unreadable filename f line)))

theorem Lifetime.sees_closed {result : Except Failure (List Char)} {next closed : Supply}
    {ending : Except Failure Unit} {log : List Event} (h : r.Lifetime (.text stream))
    (ho : r.isOpen = true) (hn : r.supply.next = ⟨result, next⟩)
    (hc : next.close = ⟨ending, closed⟩) :
    Sees stream r [result] { r.closedOn closed with log } := by
  have hr := next.reads_close
  rw [hc] at hr
  exact (h.sees_next ho hn hr).1

theorem Lifetime.isReadError {f : Failure} {next : Supply} (h : r.Lifetime (.text stream))
    (hs : stream.Ordinary) (ho : r.isOpen = true) (hn : r.supply.next = ⟨.error f, next⟩) :
    f.isReadError = true := by
  have hsees : Sees stream r [.error f] { r with supply := next } ∧ _ := h.sees_next ho hn rfl
  obtain ⟨-, n, hf⟩ := hsees
  exact hs.isReadError hf.symm

theorem ReadCase.shows (hc : ReadCase r line step) (h : r.Lifetime (.text stream))
    (hs : stream.Ordinary) (hopen : r.isOpen = true) : ∃ seen, Sees stream r seen step.state ∧
      Shows r.policy r.filename line seen step.result := by
  have hclosable : r.supply.Closable := h.closable (Stream.close_ok hs.closes)
  cases hc with
  | waiting hp => exact ⟨[], h.sees_nil rfl, .char (by simp)⟩
  | closed hp ho => simp [ho] at hopen
  | piece hp ho hn => exact ⟨_, (h.sees_next ho hn rfl).1, .char (by simp [GivesText])⟩
  | ended hp ho hn hc => exact ⟨_, h.sees_closed ho hn hc, .ended (.inl rfl)⟩
  | endedBadly hp ho hn hc => cases (hclosable.of_next hn).close_eq.symm.trans hc
  | reported hp ho hn hf hc hr => exact ⟨_, h.sees_closed ho hn hc, .reported hr⟩
  | passedOver hp ho hn hf hc hr => exact ⟨_, h.sees_closed ho hn hc, .ended (.inr ⟨hr, _, rfl⟩)⟩
  | failedBadly hp ho hn hf hc => cases (hclosable.of_next hn).close_eq.symm.trans hc
  | otherFailure hp ho hn hf => simp [h.isReadError hs ho hn] at hf

theorem ReadCase.policy_eq (hc : ReadCase r line step) : step.state.policy = r.policy := by
  cases hc <;> rfl

end Reader

namespace Segment

variable {kind : Kind} {text source rest : List Char} {content : Content}

theorem Cut.exists_first {c : Char} (h : Cut content source rest) (hc : source.head? = some c) :
    ∃ cs, first c cs = ⟨content, source, rest⟩ := by
  obtain ⟨cs, rfl⟩ := List.head?_eq_some_iff.1 hc
  exact ⟨cs ++ rest, h.first_eq rfl⟩

theorem Cut.classify_ne_other {c : Char} (h : Cut content source rest)
    (ho : isOpen source content = true ∨ ∃ kind text, content = .lexeme kind text)
    (hc : source.head? = some c) : classify c ≠ .other := by
  intro hother
  obtain ⟨cs, hf⟩ := h.exists_first hc
  rw [first, hother] at hf
  cases hf
  simp [isOpen] at ho

theorem Cut.not_isOpen_of_quoteMark (h : Cut (.lexeme kind text) source rest)
    (hq : source.head? = some quoteMark) : isOpen source (.lexeme kind text) = false := by
  obtain ⟨cs, hf⟩ := h.exists_first hq
  rw [first_quoteMark, literal] at hf
  split at hf
  · cases hf
  · split at hf
    · cases hf
      rfl
    · cases hf

theorem Cut.of_punctuation {c : Char} (h : Cut content source rest) (hc : source.head? = some c)
    (hp : classify c = .punctuation) :
    ∃ kind, Kind.ofPunctuation? c = some kind ∧ content = .lexeme kind [c] := by
  obtain ⟨kind, hk⟩ := classify_eq_punctuation_iff.1 hp
  obtain ⟨cs, hf⟩ := h.exists_first hc
  rw [first, hp] at hf
  simp only [hk] at hf
  cases hf
  exact ⟨kind, hk, rfl⟩

end Segment

namespace Lexer

variable {stream : Stream Char} {s s' s₁ : Lexer} {source cs : List Char} {content : Content}
  {seen texts : List (Except Failure (List Char))} {step : Step Fault Lexer (Option Token)}
  {result : Except Fault (Option Token)}

structure Placed (stream : Stream Char) (s : Lexer) : Prop where
  steady : s.Steady (.text stream)
  policy : s.reader.policy = s.options.readErrors

theorem placed_invariant (stream : Stream Char) : Invariant (Placed stream) where
  peek s h := by
    refine ⟨(steady_invariant _).peek s h.steady, ?_⟩
    rw [(sameSetting_peek s).options, ← h.policy]
    have hc := peekCase_peek s
    generalize s.peek = step at hc
    cases hc with
    | full hs => rfl
    | read hs hr => exact (Reader.ReadCase.of_eq hr).policy_eq
    | fault hs hr => exact (Reader.ReadCase.of_eq hr).policy_eq
  take s c hs h := ⟨(steady_invariant _).take s c hs h.steady, h.policy⟩
  dropped s location c h := ⟨(steady_invariant _).dropped s location c h.steady, h.policy⟩
  discarded s location fragment h :=
    ⟨(steady_invariant _).discarded s location fragment h.steady, h.policy⟩

theorem placed_ofTextStream (stream : Stream Char) (filename : String) (o : Options) :
    (ofTextStream stream filename o).Placed stream :=
  ⟨steady_ofSupply (.text stream) filename o, rfl⟩

theorem Placed.peek_shows (h : s.Placed stream) (hs : stream.Ordinary)
    (ho : s.reader.isOpen = true) {result : Except Fault (Option Char)}
    (hp : s.peek = ⟨result, s'⟩) : ∃ seen, Reader.Sees stream s.reader seen s'.reader ∧
      Reader.Shows s.options.readErrors s.filename (some s.line) seen result := by
  rw [← h.policy]
  cases PeekCase.of_eq hp with
  | full hs => exact ⟨[], h.steady.lifetime.sees_nil rfl, .char (by simp)⟩
  | read hslot hr => exact (Reader.ReadCase.of_eq hr).shows h.steady.lifetime hs ho
  | fault hslot hr => exact (Reader.ReadCase.of_eq hr).shows h.steady.lifetime hs ho

theorem Placed.isOpen_of_peek {result : Except Fault (Option Char)} (h : s.Placed stream)
    (hp : s.peek = ⟨result, s'⟩) (hn : result ≠ .ok none) : s.reader.isOpen = true := by
  by_contra ho
  rw [← h.steady.hasMore_eq, Bool.not_eq_true] at ho
  rw [peek_of_not_hasMore ho] at hp
  cases hp
  exact hn rfl

theorem Placed.takes_sees (h : s.Placed stream) (hs : stream.Ordinary) (ht : s.Takes cs s') :
    ∃ seen, Reader.Sees stream s.reader seen s'.reader ∧ ∀ x ∈ seen, GivesText x := by
  induction ht with
  | nil s => exact ⟨[], h.steady.lifetime.sees_nil rfl, by simp⟩
  | @cons s _ s' c cs ha _ ih =>
    obtain ⟨s₁, hp, rfl⟩ := exists_peek_of_advance_some ha
    have h₁ : s₁.Placed stream := (placed_invariant stream).of_peek h hp
    obtain ⟨seen, hseen, hshows⟩ := h.peek_shows hs (h.isOpen_of_peek hp (by simp)) hp
    obtain ⟨seen', hseen', htext⟩ := ih ((placed_invariant stream).take s₁ c (slot_of_peek hp) h₁)
    refine ⟨seen ++ seen', hseen.trans hseen', ?_⟩
    intro x hx
    rcases List.mem_append.1 hx with hx | hx
    · cases hshows with
      | char ht => exact ht x hx
    · exact htext x hx

/-- What a call takes, what its reads give and what it answers. -/
inductive Sight (s : Lexer) : List Char → List (Except Failure (List Char)) →
    Except Fault (Option Token) → Prop
  | atEnd : Sight s [] [] (.ok none)
  | ended {last : Except Failure (List Char)} (hl : s.options.readErrors.EndsOn last) :
      Sight s [] [last] (.ok none)
  | failed {source : List Char} {texts : List (Except Failure (List Char))} {f : Failure}
      {line : Int} (hc : ∀ c, source.head? = some c → classify c ≠ .other)
      (ht : ∀ x ∈ texts, GivesText x) (hr : s.options.readErrors = .raise) :
      Sight s source (texts ++ [.error f])
        (.error (.scan (.unreadable s.filename f (some line))))
  | token {source : List Char} {seen : List (Except Failure (List Char))} {t : Token}
      (hc : ∀ c, source.head? = some c → classify c ≠ .other)
      (hq : source.head? = some quoteMark → ∀ x ∈ seen, GivesText x)
      (hr : ∀ x ∈ seen, GivesText x ∨ s.options.readErrors.EndsOn x) :
      Sight s source seen (.ok (some t))
  | invalid {c : Char} {texts : List (Except Failure (List Char))} (hc : classify c = .other)
      (ht : ∀ x ∈ texts, GivesText x) (hp : s.options.chars = .raise) :
      Sight s [c] texts (.error (.scan (.invalidCharacter c (some (s.location s.line)))))
  | dropped {c : Char} {texts : List (Except Failure (List Char))} (hc : classify c = .other)
      (ht : ∀ x ∈ texts, GivesText x) (hp : s.options.chars = .drop) : Sight s [c] texts (.ok none)
  | unterminated {body : List Char} {texts : List (Except Failure (List Char))}
      {last : Except Failure (List Char)} {fragment : String} (hb : Segment.Unclosed body)
      (ht : ∀ x ∈ texts, GivesText x) (hl : s.options.readErrors.EndsOn last)
      (hp : s.options.strings = .raise) : Sight s (quoteMark :: body) (texts ++ [last])
        (.error (.scan (.unterminatedString (some (s.location s.line)) (some fragment))))
  | discarded {body : List Char} {texts : List (Except Failure (List Char))}
      {last : Except Failure (List Char)} (ht : ∀ x ∈ texts, GivesText x)
      (hl : s.options.readErrors.EndsOn last) (hp : s.options.strings = .discard) :
      Sight s (quoteMark :: body) (texts ++ [last]) (.ok none)

theorem reads_of_end {policy : ReadPolicy} {last : Except Failure (List Char)}
    (ht : ∀ x ∈ texts, GivesText x) (hl : policy.EndsOn last) :
    ∀ x ∈ texts ++ [last], GivesText x ∨ policy.EndsOn x := by
  intro x hx
  rcases List.mem_append.1 hx with hx | hx
  · exact .inl (ht x hx)
  · rw [List.mem_singleton.1 hx]
    exact .inr hl

theorem sight_of_open {next : Option Char} {line : Option Int}
    (hcut : Segment.Cut content source next.toList)
    (ho : Segment.isOpen source content = true) (ht : ∀ x ∈ texts, GivesText x)
    (hshows : Reader.Shows s.options.readErrors s.filename line seen (.ok next)) :
    s.Sight source (texts ++ seen) (s.answer s.line content).result := by
  have htexts : ∀ x ∈ texts ++ seen, GivesText x ∨ s.options.readErrors.EndsOn x := by
    cases hshows with
    | char hseen => exact fun x hx => .inl ((List.mem_append.1 hx).elim (ht x) (hseen x))
    | ended hl => exact reads_of_end ht hl
  cases content with
  | lexeme kind text =>
    refine .token (fun c => hcut.classify_ne_other (.inl ho)) (fun hq => ?_) htexts
    rw [hcut.not_isOpen_of_quoteMark hq] at ho
    cases ho
  | unknown c => cases ho
  | cutOff body =>
    cases next with
    | some c => cases hcut
    | none =>
      cases hcut with
      | cutOff hb =>
        cases hshows with
        | ended hl =>
          rw [answer, cutOffString]
          cases hp : s.options.strings with
          | raise => exact .unterminated hb ht hl hp
          | discard => exact .discarded ht hl hp

theorem sight_of_whole (hcut : Segment.Cut content source [])
    (ho : Segment.isOpen source content = false) (ht : ∀ x ∈ texts, GivesText x) :
    s.Sight source texts (s.answer s.line content).result := by
  cases content with
  | lexeme kind text =>
    exact .token (fun c => hcut.classify_ne_other (.inr ⟨kind, text, rfl⟩)) (fun _ => ht)
      fun x hx => .inl (ht x hx)
  | unknown c =>
    cases hcut with
    | unknown hc =>
      rw [answer, unknownChar]
      cases hp : s.options.chars with
      | raise => exact .invalid hc ht hp
      | drop => exact .dropped hc ht hp
  | cutOff body => cases ho

theorem Placed.isOpen_of_takes (h : s.Placed stream) (ht : s.Takes source s₁)
    (hne : source ≠ []) : s₁.reader.isOpen = true :=
  (h.steady.takes_end ht hne).2

theorem Placed.sight_of_peek (h : s.Placed stream) (hs : stream.Ordinary)
    (hp : s.peek = ⟨.ok none, s'⟩) :
    ∃ seen, Reader.Sees stream s.reader seen s'.reader ∧ s.Sight [] seen (.ok none) := by
  by_cases ho : s.reader.isOpen = true
  · obtain ⟨seen, hseen, hshows⟩ := h.peek_shows hs ho hp
    cases hshows with
    | ended hl => exact ⟨_, hseen, .ended hl⟩
  · rw [← h.steady.hasMore_eq, Bool.not_eq_true] at ho
    rw [peek_of_not_hasMore ho] at hp
    cases hp
    exact ⟨[], h.steady.lifetime.sees_nil rfl, .atEnd⟩

theorem CallCase.sight (hc : CallCase s source step) (h : s.Placed stream) (hs : stream.Ordinary) :
    ∃ seen, Reader.Sees stream s.reader seen step.state.reader ∧
      s.Sight source seen step.result := by
  have hplaced {cs : List Char} {s₁ : Lexer} (ht : s.Takes cs s₁) : s₁.Placed stream :=
    (placed_invariant stream).takes ht h
  cases hc with
  | ended hp => exact h.sight_of_peek hs hp
  | unread hp =>
    obtain ⟨seen, hseen, hshows⟩ := h.peek_shows hs (h.isOpen_of_peek hp (by simp)) hp
    cases hshows with
    | reported hr =>
      refine ⟨[_], hseen, ?_⟩
      rw [← List.nil_append [_]]
      exact .failed (by simp) (by simp) hr
  | @whole content _ s' hcut ho ht =>
    obtain ⟨texts, hseen, htexts⟩ := h.takes_sees hs ht
    rw [ht.sameSetting.result_answer]
    exact ⟨texts, hseen.alike (alike_answer s' s.line content).reader,
      sight_of_whole (hcut []) ho htexts⟩
  | @delimited content _ next s₁ s' hcut ho ht hp =>
    have hcut := hcut next.toList (by cases next <;> rfl)
    obtain ⟨texts, hseen, htexts⟩ := h.takes_sees hs ht
    obtain ⟨seen, hseen', hshows⟩ :=
      (hplaced ht).peek_shows hs (h.isOpen_of_takes ht hcut.source_ne_nil) hp
    rw [ht.sameSetting.options, ht.sameSetting.filename] at hshows
    rw [(ht.sameSetting.trans (.of_peek hp)).result_answer]
    exact ⟨_, (hseen.trans hseen').alike (alike_answer s' s.line content).reader,
      sight_of_open hcut ho htexts hshows⟩
  | broken hcut ho ht hp =>
    obtain ⟨texts, hseen, htexts⟩ := h.takes_sees hs ht
    obtain ⟨seen, hseen', hshows⟩ :=
      (hplaced ht).peek_shows hs (h.isOpen_of_takes ht hcut.source_ne_nil) hp
    rw [ht.sameSetting.options, ht.sameSetting.filename] at hshows
    cases hshows with
    | reported hr =>
      exact ⟨_, hseen.trans hseen', .failed (fun c => hcut.classify_ne_other (.inl ho)) htexts hr⟩

theorem Sight.reads_cases (h : s.Sight source seen result) :
    (∃ f line, s.options.readErrors = .raise ∧ (∀ x ∈ seen, GivesText x ∨ x = .error f) ∧
      .error f ∈ seen ∧ result = .error (.scan (.unreadable s.filename f (some line)))) ∨
    ∀ x ∈ seen, GivesText x ∨ s.options.readErrors.EndsOn x := by
  cases h with
  | atEnd => simp
  | ended hl => simp [hl]
  | failed hc ht hr =>
    refine .inl ⟨_, _, hr, fun x hx => ?_, by simp, rfl⟩
    rcases List.mem_append.1 hx with hx | hx
    · exact .inl (ht x hx)
    · exact .inr (List.mem_singleton.1 hx)
  | token hc hq hr => exact .inr hr
  | invalid hc ht hp => exact .inr fun x hx => .inl (ht x hx)
  | dropped hc ht hp => exact .inr fun x hx => .inl (ht x hx)
  | unterminated hb ht hl hp => exact .inr (reads_of_end ht hl)
  | discarded ht hl hp => exact .inr (reads_of_end ht hl)

theorem Sight.invalidCharacter_iff (h : s.Sight source seen result) (c : Char) :
    (∃ location, result = .error (.scan (.invalidCharacter c location))) ↔
      s.options.chars = .raise ∧ source.head? = some c ∧ classify c = .other := by
  constructor
  · rintro ⟨location, rfl⟩
    cases h with
    | invalid hc ht hp => exact ⟨hp, rfl, hc⟩
  · rintro ⟨hraise, hs, hother⟩
    cases h with
    | atEnd => cases hs
    | ended hl => cases hs
    | failed hc ht hr => exact absurd hother (hc c hs)
    | token hc hq hr => exact absurd hother (hc c hs)
    | invalid hc ht hp =>
      cases hs
      exact ⟨_, rfl⟩
    | dropped hc ht hp => cases hraise.symm.trans hp
    | unterminated hb ht hl hp =>
      cases hs
      exact absurd hother (by decide)
    | discarded ht hl hp =>
      cases hs
      exact absurd hother (by decide)

theorem Sight.unterminatedString_iff (h : s.Sight source seen result) :
    (∃ location fragment, result = .error (.scan (.unterminatedString location fragment))) ↔
      s.options.strings = .raise ∧
      (∃ body, source = quoteMark :: body ∧ ∀ front, ¬Segment.Closes body front) ∧
      ∃ x ∈ seen, s.options.readErrors.EndsOn x := by
  constructor
  · rintro ⟨location, fragment, rfl⟩
    cases h with
    | unterminated hb ht hl hp => exact ⟨hp, ⟨_, rfl, hb.not_closes⟩, _, by simp, hl⟩
  · rintro ⟨hraise, ⟨body, hs, -⟩, x, hx, hends⟩
    cases h with
    | atEnd => cases hs
    | ended hl => cases hs
    | failed hc ht hr =>
      rcases List.mem_append.1 hx with hx | hx
      · exact absurd hends ((ht x hx).not_endsOn _)
      · rw [List.mem_singleton.1 hx] at hends
        exact absurd hends (not_endsOn_of_raise hr)
    | token hc hq hr =>
      subst hs
      exact absurd hends ((hq rfl x hx).not_endsOn _)
    | invalid hc ht hp => exact absurd hends ((ht x hx).not_endsOn _)
    | dropped hc ht hp => exact absurd hends ((ht x hx).not_endsOn _)
    | unterminated hb ht hl hp => exact ⟨_, _, rfl⟩
    | discarded ht hl hp => cases hraise.symm.trans hp

theorem Sight.unreadable_iff (h : s.Sight source seen result) (f : Failure) :
    (∃ line, result = .error (.scan (.unreadable s.filename f line))) ↔
      s.options.readErrors = .raise ∧ .error f ∈ seen := by
  constructor
  · rintro ⟨line, rfl⟩
    cases h with
    | failed hc ht hr => exact ⟨hr, by simp⟩
  · rintro ⟨hraise, hx⟩
    rcases h.reads_cases with ⟨g, line, -, hall, -, hresult⟩ | hall
    · rcases hall _ hx with ht | he
      · exact absurd rfl (ht.ne_error f)
      · cases he
        exact ⟨_, hresult⟩
    · rcases hall _ hx with ht | he
      · exact absurd rfl (ht.ne_error f)
      · exact absurd he (not_endsOn_of_raise hraise)

theorem Sight.error_cases (h : s.Sight source seen result) {e : Fault} (he : result = .error e) :
    (∃ c location, e = .scan (.invalidCharacter c location)) ∨
    (∃ location fragment, e = .scan (.unterminatedString location fragment)) ∨
    ∃ f line, e = .scan (.unreadable s.filename f line) := by
  subst he
  cases h with
  | failed hc ht hr => exact .inr (.inr ⟨_, _, rfl⟩)
  | invalid hc ht hp => exact .inl ⟨_, _, rfl⟩
  | unterminated hb ht hl hp => exact .inr (.inl ⟨_, _, rfl⟩)

theorem Sight.token_of_classify (h : s.Sight source seen result) {c : Char}
    (hs : source.head? = some c) (hc : classify c ≠ .other) (hq : c ≠ quoteMark) :
    (∃ t, result = .ok (some t)) ∨ ∃ f, s.options.readErrors = .raise ∧ .error f ∈ seen := by
  cases h with
  | atEnd => cases hs
  | ended hl => cases hs
  | failed hc' ht hr => exact .inr ⟨_, hr, List.mem_append_right _ List.mem_cons_self⟩
  | token hc' hq' hr => exact .inl ⟨_, rfl⟩
  | invalid hc' ht hp =>
    cases hs
    exact absurd hc' hc
  | dropped hc' ht hp =>
    cases hs
    exact absurd hc' hc
  | unterminated hb ht hl hp =>
    cases hs
    exact absurd rfl hq
  | discarded ht hl hp =>
    cases hs
    exact absurd rfl hq

theorem CallCase.result_of_punctuation {c : Char} (hc : CallCase s source step)
    (hs : source.head? = some c) (hp : classify c = .punctuation) :
    ∃ kind, Kind.ofPunctuation? c = some kind ∧
      step.result = .ok (some (s.token kind [c] s.line)) := by
  have hclosed {content : Content} {rest : List Char} (hcut : Segment.Cut content source rest) :
      ∃ kind, Kind.ofPunctuation? c = some kind ∧ content = .lexeme kind [c] ∧
        Segment.isOpen source content = false := by
    obtain ⟨kind, hk, rfl⟩ := hcut.of_punctuation hs hp
    exact ⟨kind, hk, rfl, Segment.isOpen_punctuation hk⟩
  cases hc with
  | ended hpeek => cases hs
  | unread hpeek => cases hs
  | @whole content _ s' hcut ho ht =>
    obtain ⟨kind, hk, rfl, -⟩ := hclosed (hcut [])
    rw [ht.sameSetting.result_answer]
    exact ⟨kind, hk, rfl⟩
  | @delimited content _ next s₁ s' hcut ho ht hpeek =>
    have hcut := hcut next.toList (by cases next <;> rfl)
    obtain ⟨kind, hk, rfl, hno⟩ := hclosed hcut
    cases ho.symm.trans hno
  | broken hcut ho ht hpeek =>
    obtain ⟨kind, hk, rfl, hno⟩ := hclosed hcut
    cases ho.symm.trans hno

def readsBetween (stream : Stream Char) (s s' : Lexer) : List (Except Failure (List Char)) :=
  (List.range' (s.reader.supply.reads - stream.reads)
    (s'.reader.supply.reads - s.reader.supply.reads)).map stream.outcome

theorem readsBetween_eq (h : Reader.Sees stream s.reader seen s'.reader) :
    readsBetween stream s s' = seen := by
  rw [readsBetween, h.reads, Nat.add_sub_cancel_left, h.outcomes]

end Lexer

open Segment (Closes)

/-- The call fails exactly when there is something to report. A character is invalid if it is taken
first, is outside the alphabet and such characters are reported. A string is unterminated if the
call takes a quote first, a read gives the end or what is taken for it before there is a closing
quote, and such strings are reported. A failure of a read is reported if the call makes that read
and such failures are reported. There are no other faults: a first character in the alphabet has
its token, a punctuation mark has its kind, and a character that is reported is one character. -/
theorem faults_when_due {stream : Stream Char} (hs : stream.Ordinary) (filename : String)
    (o : Options) (n : Nat) :
    let s := (Lexer.ofTextStream stream filename o).afterCalls n
    let result := s.nextToken.result
    let seen := Lexer.readsBetween stream s s.nextToken.state
    ∃ given used, s.Moves given used s.nextToken.state ∧
      (∀ c, (∃ location, result = .error (.scan (.invalidCharacter c location))) ↔
        o.chars = .raise ∧ used.head? = some c ∧ classify c = .other) ∧
      ((∃ location fragment, result = .error (.scan (.unterminatedString location fragment))) ↔
        o.strings = .raise ∧ (∃ body, used = quoteMark :: body ∧ ∀ front, ¬Closes body front) ∧
        ∃ x ∈ seen, o.readErrors.EndsOn x) ∧
      (∀ f, (∃ line, result = .error (.scan (.unreadable filename f line))) ↔
        o.readErrors = .raise ∧ .error f ∈ seen) ∧
      (∀ e, result = .error e → (∃ c location, e = .scan (.invalidCharacter c location)) ∨
        (∃ location fragment, e = .scan (.unterminatedString location fragment)) ∨
        ∃ f line, e = .scan (.unreadable filename f line)) ∧
      (∀ c, used.head? = some c → classify c ≠ .other → c ≠ quoteMark →
        (∃ t, result = .ok (some t)) ∨ ∃ f, o.readErrors = .raise ∧ .error f ∈ seen) ∧
      (∀ c, used.head? = some c → classify c = .punctuation →
        ∃ kind, Kind.ofPunctuation? c = some kind ∧
          result = .ok (some ⟨kind, String.ofList [c], s.line, filename⟩)) ∧
      ∀ c location, ScanError.ofInvalidText (String.ofList [c]) location =
        .ok (.invalidCharacter c location) := by
  intro s result seen
  have hplaced : s.Placed stream :=
    (Lexer.placed_invariant stream).afterCalls (Lexer.placed_ofTextStream stream filename o) n
  have hset := Lexer.sameSetting_afterCalls n (Lexer.ofTextStream stream filename o)
  have ho : s.options = o := hset.options
  have hfile : s.filename = filename := hset.filename
  obtain ⟨given, used, hcall, hmoves⟩ := s.exists_moves_nextToken
  obtain ⟨reads, hreads, hsight⟩ := hcall.sight hplaced hs
  have hseen : seen = reads := Lexer.readsBetween_eq hreads
  rw [← ho, ← hfile, hseen]
  refine ⟨given, used, hmoves, hsight.invalidCharacter_iff, hsight.unterminatedString_iff,
    hsight.unreadable_iff, fun e => hsight.error_cases, fun c => hsight.token_of_classify,
    fun c => hcall.result_of_punctuation, fun c location => ?_⟩
  simp [ScanError.ofInvalidText]

theorem unterminated_at_failed_read :
    let f := Failure.system ⟨.timedOut, .bare "timed out"⟩
    let stream : Stream Char := { readings := [.piece [quoteMark, 'a'], .failure f] }
    let o : Options := { strings := .raise, readErrors := .endOfInput }
    let s := Lexer.ofTextStream stream "a.rpal" o
    stream.Ordinary ∧
    s.nextToken.result = .error (.scan
      (.unterminatedString (some ⟨"a.rpal", 1⟩) (some (String.ofList [quoteMark, 'a'])))) ∧
    ∃ x ∈ Lexer.readsBetween stream s s.nextToken.state, o.readErrors.EndsOn x := by
  intro f stream o s
  have hs : stream.Ordinary := ⟨rfl, by simp [stream, f, Failure.isReadError]⟩
  obtain ⟨given, used, -, -, hstring, -⟩ := faults_when_due hs "a.rpal" o 0
  have hresult : s.nextToken.result = .error (.scan
      (.unterminatedString (some ⟨"a.rpal", 1⟩) (some (String.ofList [quoteMark, 'a'])))) := by
    decide +kernel
  exact ⟨hs, hresult, (hstring.1 ⟨_, _, hresult⟩).2.2⟩

end RpalLexer
