import RpalLexer.Proofs.Conservation
import RpalLexer.Proofs.ReaderLifetime

/-!
# One character of lookahead

A full slot means that the reader is open, so a lexer has more exactly until its stream is closed.
When every read of the stream gives one character, the reads are the characters used up, the one in
the slot, and the read that saw the end. Main statement: `reads_ahead_at_most_one`.
-/
namespace RpalLexer

namespace Supply

/-- The supply hands on `cs` with one read for each character; one more read sees the end. -/
inductive OneByOne : List Char → Supply → Prop
  | ended {supply next : Supply} (hn : supply.next = ⟨.ok [], next⟩)
      (hr : next.reads = supply.reads + 1) : OneByOne [] supply
  | char {supply next : Supply} {c : Char} {cs : List Char} (hn : supply.next = ⟨.ok [c], next⟩)
      (hr : next.reads = supply.reads + 1) (h : OneByOne cs next) : OneByOne (c :: cs) supply

theorem oneByOne_text (cs : List Char) (s : Stream Char) :
    OneByOne cs (.text { s with readings := cs.map fun c => .piece [c] }) := by
  induction cs generalizing s with
  | nil => exact .ended rfl rfl
  | cons c cs ih => exact .char rfl rfl (ih { s with reads := s.reads + 1 })

end Supply

namespace Reader

variable {r : Reader} {n : Nat} {given : List Char}

structure Counted (n : Nat) (given : List Char) (r : Reader) : Prop where
  pending : r.pending = []
  reads : r.supply.reads = n + given.length + if r.isOpen then 0 else 1
  toCome : r.isOpen = true → ∃ cs, r.supply.OneByOne cs

theorem Counted.closedOn {next closed : Supply} {log : List Event} (h : r.Counted n given)
    (ho : r.isOpen = true) (hr : next.reads = r.supply.reads + 1)
    (hc : next.close.state = closed) :
    Counted n given { r.closedOn closed with log } where
  pending := rfl
  reads := by
    have hreads := h.reads
    rw [if_pos ho] at hreads
    change closed.reads = n + given.length + 1
    rw [← hc, Supply.reads_close, hr, hreads]
  toCome hopen := absurd hopen Bool.false_ne_true

theorem Counted.read (h : r.Counted n given) (line : Option Int) :
    (r.read line).state.Counted n (given ++ delivery (r.read line).result) := by
  have hreads := h.reads
  by_cases ho : r.isOpen = true
  · obtain ⟨cs, hcs⟩ := h.toCome ho
    rw [if_pos ho] at hreads
    cases hcs with
    | @ended _ next hn hr =>
      -- The read that sees the end closes the stream, and closing may fail.
      cases hc : next.close with
      | mk result closed =>
        cases result with
        | ok u =>
          rw [(ReadCase.ended h.pending ho hn hc).read_eq, delivery, List.append_nil]
          · exact h.closedOn ho hr (by rw [hc])
          · simp
        | error g =>
          rw [(ReadCase.endedBadly h.pending ho hn hc).read_eq, delivery, List.append_nil]
          · exact h.closedOn ho hr (by rw [hc])
          · simp
    | @char _ next c cs hn hr hcs =>
      rw [(ReadCase.piece h.pending ho hn).read_eq]
      refine ⟨rfl, ?_, fun _ => ⟨cs, hcs⟩⟩
      simp only [delivery, List.length_append, List.length_singleton, ho, if_true]
      omega
  · rw [read_of_closed h.pending (by simpa using ho)]
    simpa [delivery] using h

end Reader

namespace Lexer

variable {supply : Supply} {s s' s₀ : Lexer} {n : Nat} {given used cs : List Char}

structure Steady (supply : Supply) (s : Lexer) : Prop where
  lifetime : s.reader.Lifetime supply
  slot : s.slot ≠ none → s.reader.isOpen = true

theorem Steady.hasMore_eq (h : s.Steady supply) : s.hasMore = s.reader.isOpen := by
  cases hs : s.slot with
  | none => simp [hasMore, hs, h.lifetime.exhausted_eq]
  | some c =>
    have ho : s.reader.isOpen = true := h.slot (by simp [hs])
    simp [hasMore, hs, ho]

theorem Steady.exhausted_of_slot (h : s.Steady supply) (hs : s.slot ≠ none) :
    s.reader.exhausted = false := by
  rw [h.lifetime.exhausted_eq, h.slot hs]
  rfl

theorem Steady.closes_eq (h : s.Steady supply) :
    s.reader.supply.closes = supply.closes + if s.hasMore then 0 else 1 := by
  rw [h.lifetime.closes_eq, h.hasMore_eq, h.lifetime.exhausted_eq]
  cases s.reader.isOpen <;> rfl

theorem steady_ofSupply (supply : Supply) (filename : String) (o : Options) :
    (ofSupply supply filename o).Steady supply :=
  ⟨lifetime_ofSupply supply filename o, fun _ => rfl⟩

theorem steady_invariant (supply : Supply) : Invariant (Steady supply) where
  peek s h := by
    refine ⟨(lifetime_invariant supply).peek s h.lifetime, ?_⟩
    have hc := peekCase_peek s
    generalize s.peek = step at hc
    cases hc with
    | full hs => exact h.slot
    | @read c reader hs hr =>
      intro hne
      obtain ⟨d, rfl⟩ := Option.ne_none_iff_exists'.1 hne
      exact h.lifetime.isOpen_of_read_some hr
    | fault hs hr => exact fun hne => absurd hs hne
  take s c hs h := ⟨h.lifetime, fun hne => absurd rfl hne⟩
  dropped s location c h := ⟨(lifetime_invariant supply).dropped s location c h.lifetime, h.slot⟩
  discarded s location fragment h :=
    ⟨(lifetime_invariant supply).discarded s location fragment h.lifetime, h.slot⟩

theorem Steady.close (h : s.Steady supply) : s.close.state.Steady supply :=
  ⟨h.lifetime.close, fun hne => absurd rfl hne⟩

theorem Steady.after {u : Session} (h : u.lexer.Steady supply) (qs : List Request) :
    (u.after qs).lexer.Steady supply := by
  apply Session.after_keeps (P := Steady supply)
  · exact (steady_invariant supply).nextToken
  · intro _ s hs
    exact hs.close
  · exact h

theorem close_of_not_hasMore (hm : s.hasMore = false) : s.close = ⟨.ok (), s⟩ := by
  obtain ⟨hs, hp, ho⟩ := hasMore_eq_false_iff.1 hm
  have hc : s.reader.close = ⟨.ok (), s.reader⟩ :=
    Reader.close_of_exhausted (Reader.exhausted_iff.2 ⟨hp, ho⟩)
  simp only [Lexer.close, Reader.shut, hc]
  rw [← hs]
  rfl

theorem after_of_not_hasMore {u : Session} (hm : u.lexer.hasMore = false) (qs : List Request) :
    (u.after qs).lexer = u.lexer := by
  apply Session.after_keeps (P := fun s => s = u.lexer)
  · rintro s rfl
    rw [nextToken_of_not_hasMore hm]
  · rintro _ s rfl
    rw [close_of_not_hasMore hm]
  · rfl

theorem Steady.takes_end (h : s.Steady supply) (ht : s.Takes cs s') (hcs : cs ≠ []) :
    s'.slot = none ∧ s'.reader.isOpen = true := by
  induction ht with
  | nil s => exact absurd rfl hcs
  | @cons s _ s' c cs ha ht ih =>
    obtain ⟨s₁, hp, rfl⟩ := exists_peek_of_advance_some ha
    have h₁ : s₁.Steady supply := (steady_invariant supply).of_peek h hp
    have hs₁ := slot_of_peek hp
    cases cs with
    | nil =>
      cases ht
      exact ⟨rfl, h₁.slot (by simp [hs₁])⟩
    | cons d ds =>
      apply ih
      · exact (steady_invariant supply).take s₁ c hs₁ h₁
      · exact List.cons_ne_nil d ds

theorem Steady.slot_of_endsItself {source : List Char} {step : Step Fault Lexer (Option Token)}
    (h : s.Steady supply) (hc : CallCase s source step)
    (he : Call.EndsItself ⟨source, step.result⟩) :
    step.state.slot = none ∧ step.state.reader.isOpen = true := by
  cases hc with
  | ended hp => cases he
  | unread hp => cases he
  | broken hcut ho ht hp => cases he
  | @whole content _ s' hcut ho ht =>
    obtain ⟨hslot, hopen⟩ := h.takes_end ht (hcut []).source_ne_nil
    obtain ⟨reader, ⟨log, rfl⟩, ha⟩ := alike_answer s' s.line content
    rw [ha]
    exact ⟨hslot, hopen⟩
  | @delimited _ _ next _ _ hcut ho ht hp =>
    have hcut := hcut next.toList (by cases next <;> rfl)
    rw [result_answer _ _ ⟨_, _, next.toList⟩] at he
    rw [Segment.isOpen_of_endsItself hcut he] at ho
    cases ho

/-- From `s₀` to `s` the stream was read for what came out of it, and once more if it is closed. -/
def Metered (n : Nat) (s₀ s : Lexer) : Prop :=
  ∃ given used, s₀.Moves given used s ∧ s.reader.Counted n given

theorem Metered.read {result : Except Fault (Option Char)} {reader : Reader}
    (h : Metered n s₀ s) (hs : s.slot = none) (hr : s.reader.read (some s.line) = ⟨result, reader⟩)
    (hreader : s'.reader = reader) (hslot : s'.slot.toList = Reader.delivery result) :
    Metered n s₀ s' := by
  obtain ⟨given, used, hm, hc⟩ := h
  have hd := Reader.delivers_read s.reader (some s.line)
  have hc' := hc.read (some s.line)
  rw [hr] at hd hc'
  refine ⟨given ++ Reader.delivery result, used ++ [], hm.trans ⟨?_, ?_⟩, ?_⟩
  · rw [hreader]
    exact hd
  · simp [hs, hslot]
  · rw [hreader]
    exact hc'

theorem Metered.alike {e : Event} (h : Metered n s₀ s) : Metered n s₀ (s.note e) := by
  obtain ⟨given, used, hm, hc⟩ := h
  have ha := (alike_note s e).moves
  exact ⟨_, _, by simpa using hm.trans ha, hc.pending, hc.reads, hc.toCome⟩

theorem metered_invariant (n : Nat) (s₀ : Lexer) : Invariant (Metered n s₀) where
  peek s h := by
    have hc := peekCase_peek s
    generalize s.peek = step at hc
    cases hc with
    | full hs => exact h
    | @read c reader hs hr => exact h.read hs hr rfl (by cases c <;> rfl)
    | fault hs hr => exact h.read hs hr rfl (by rw [hs]; rfl)
  take s c hs h := by
    obtain ⟨given, used, hm, hc⟩ := h
    have ht := hm.trans (moves_take hs)
    rw [List.append_nil] at ht
    exact ⟨given, used ++ [c], ht, hc⟩
  dropped s location c h := h.alike
  discarded s location fragment h := h.alike

theorem metered_ofSupply (h : supply.OneByOne cs) (filename : String) (o : Options) :
    Metered supply.reads (ofSupply supply filename o) (ofSupply supply filename o) :=
  ⟨[], [], .refl _, rfl, rfl, fun _ => ⟨cs, h⟩⟩

theorem Metered.reads_eq (h : Metered n s₀ s) (hs : s₀.slot = none) (hst : s.Steady supply)
    (hm : s₀.Moves given used s) : s.reader.supply.reads =
      n + used.length + s.slot.toList.length + if s.hasMore then 0 else 1 := by
  obtain ⟨given', used', hm', hc⟩ := h
  obtain ⟨rfl, rfl⟩ := hm.unique hm'
  have hbalance := congrArg List.length hm.balance
  have hreads := hc.reads
  rw [hs] at hbalance
  simp only [Option.toList_none, List.nil_append, List.length_append] at hbalance
  rw [hst.hasMore_eq]
  omega

theorem Metered.after {u : Session} (h : Metered n s₀ u.lexer) {qs : List Request}
    (hqs : Request.close ∉ qs) : Metered n s₀ (u.after qs).lexer := by
  apply Session.after_keeps (P := Metered n s₀)
  · exact (metered_invariant n s₀).nextToken
  · intro hmem
    exact absurd hmem hqs
  · exact h

theorem Metered.nextToken (h : Metered n s₀ s) (hs : s₀.slot = none) (hst : s.Steady supply)
    (hm : s₀.Moves given used s) : ∃ more consumed, s.Moves more consumed s.nextToken.state ∧
      s.nextToken.state.reader.supply.reads ≤ n + (used ++ consumed).length + 1 ∧
      (Call.EndsItself ⟨consumed, s.nextToken.result⟩ →
        s.nextToken.state.reader.supply.reads = n + (used ++ consumed).length) := by
  obtain ⟨more, consumed, hcall, hmv⟩ := exists_moves_nextToken s
  have h' : Metered n s₀ s.nextToken.state := (metered_invariant n s₀).nextToken s h
  have hst' : s.nextToken.state.Steady supply := (steady_invariant supply).nextToken s hst
  have hreads := h'.reads_eq hs hst' (hm.trans hmv)
  refine ⟨more, consumed, hmv, ?_, ?_⟩
  · rw [hreads]
    cases hslot : s.nextToken.state.slot with
    | none =>
      simp only [Option.toList_none, List.length_nil]
      split <;> omega
    | some c =>
      have hmore : s.nextToken.state.hasMore = true := by simp [hasMore, hslot]
      simp [hmore]
  · intro he
    obtain ⟨hslot, hopen⟩ := hst.slot_of_endsItself hcall he
    rw [hreads, hslot, hst'.hasMore_eq, hopen]
    rfl

end Lexer

/-- Whatever the stream does and whatever is requested, the slot is not full once the stream is
closed, so there is more exactly until then, and after that nothing changes any more. If the stream
gives its characters one by one and nothing is closed early, it is read for what was used up, for
what is in the slot and to see the end; a call that shows its end itself does not read beyond. -/
theorem reads_ahead_at_most_one (supply : Supply) (filename : String) (o : Options) :
    let start := Session.mk (Lexer.ofSupply supply filename o) []
    (∀ requests,
      let s := (start.after requests).lexer
      (s.slot ≠ none → s.reader.exhausted = false) ∧
      s.reader.supply.closes = supply.closes + (if s.hasMore then 0 else 1) ∧
      (s.hasMore = false → s.nextToken = ⟨.ok none, s⟩ ∧
        ∀ later, (start.after (requests ++ later)).lexer = s)) ∧
    ∀ cs, supply.OneByOne cs → ∀ requests, Request.close ∉ requests →
      let s := (start.after requests).lexer
      ∃ given used, start.lexer.Moves given used s ∧
        s.reader.supply.reads =
          supply.reads + used.length + s.slot.toList.length + (if s.hasMore then 0 else 1) ∧
        ∃ more consumed, s.Moves more consumed s.nextToken.state ∧
          s.nextToken.state.reader.supply.reads ≤
            supply.reads + (used ++ consumed).length + 1 ∧
          (Call.EndsItself ⟨consumed, s.nextToken.result⟩ →
            s.nextToken.state.reader.supply.reads = supply.reads + (used ++ consumed).length) := by
  intro start
  have hstart : start.lexer.Steady supply := Lexer.steady_ofSupply supply filename o
  refine ⟨fun requests => ?_, fun cs hcs requests hclose => ?_⟩
  · intro s
    have h : s.Steady supply := hstart.after requests
    refine ⟨h.exhausted_of_slot, h.closes_eq, fun hm => ⟨?_, fun later => ?_⟩⟩
    · exact Lexer.nextToken_of_not_hasMore hm
    · rw [Session.after_append]
      exact Lexer.after_of_not_hasMore hm later
  · intro s
    have h : s.Steady supply := hstart.after requests
    have hmetered : Lexer.Metered supply.reads start.lexer start.lexer :=
      Lexer.metered_ofSupply hcs filename o
    have hread : Lexer.Metered supply.reads start.lexer s := hmetered.after hclose
    obtain ⟨given, used, hm, -⟩ := id hread
    exact ⟨given, used, hm, hread.reads_eq rfl h hm, hread.nextToken rfl h hm⟩

theorem reads_ahead_of_identifier :
    let supply := Supply.text (.ofItems ['a', '('])
    let s := (Session.after ⟨Lexer.ofSupply supply "a.rpal" {}, []⟩ [.next]).lexer
    s.slot = some '(' ∧ ∃ given used,
      (Lexer.ofSupply supply "a.rpal" {}).Moves given used s ∧
        s.reader.supply.reads = used.length + 1 := by
  intro supply s
  have hs : supply.OneByOne ['a', '('] := Supply.oneByOne_text ['a', '('] (.ofItems [])
  obtain ⟨given, used, hm, hreads, -⟩ :=
    (reads_ahead_at_most_one supply "a.rpal" {}).2 _ hs [.next] (by simp)
  have hslot : s.slot = some '(' := by decide +kernel
  have hmore : s.hasMore = true := by decide +kernel
  refine ⟨hslot, given, used, hm, ?_⟩
  change s.reader.supply.reads = 0 + used.length + s.slot.toList.length + _ at hreads
  rw [hreads, hslot, hmore]
  simp

end RpalLexer
