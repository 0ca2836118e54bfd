import RpalLexer.Proofs.LookaheadSlot
import RpalLexer.Proofs.PullLoop
import RpalLexer.Proofs.Simulation

/-!
# Streams that cannot be closed

A stream whose closing fails is read like the same stream whose closing does not fail. The call that
closes it raises the failure of closing in place of its own answer, whatever that would have been.
No other call differs. Main statement: `failing_close_costs_one_answer`.
-/
namespace RpalLexer

variable {g : Failure}

namespace Stream

variable {α : Type}

def failingOnClose (g : Failure) (s : Stream α) : Stream α := { s with closeFailure := some g }

theorem read_failingOnClose (s : Stream α) :
    (s.failingOnClose g).read = ⟨s.read.result, s.read.state.failingOnClose g⟩ := by
  unfold read
  simp only [failingOnClose]
  split <;> rfl

end Stream

namespace Supply

variable {supply : Supply}

def failingOnClose (g : Failure) : Supply → Supply
  | .text s => .text (s.failingOnClose g)
  | .bytes encoding d s => .bytes encoding d (s.failingOnClose g)

theorem decodeNext_failingOnClose (encoding : String) (d : Decoder) (s : Stream UInt8) :
    decodeNext encoding d (s.failingOnClose g) = ⟨(decodeNext encoding d s).result,
      (decodeNext encoding d s).state.failingOnClose g⟩ := by
  have hread {s s' : Stream UInt8} {result : Except Failure (List UInt8)}
      (h : s.read = ⟨result, s'⟩) : (s.failingOnClose g).read = ⟨result, s'.failingOnClose g⟩ := by
    rw [s.read_failingOnClose, h]
  fun_induction decodeNext encoding d s with
  | case1 d s f s' h => exact decodeNext_of_failure (hread h)
  | case2 d s s' h fed => exact decodeNext_of_end (hread h)
  | case3 d s b bs s' h d' hf ih => exact (decodeNext_of_no_chars (hread h) hf).trans ih
  | case4 d s b bs s' h c cs d' hf => exact decodeNext_of_chars (hread h) hf
  | case5 d s b bs s' h f d' hf => exact decodeNext_of_undecodable (hread h) hf

theorem next_failingOnClose (g : Failure) (supply : Supply) :
    (supply.failingOnClose g).next =
      ⟨supply.next.result, supply.next.state.failingOnClose g⟩ := by
  cases supply with
  | text s => simp only [failingOnClose, next, s.read_failingOnClose]
  | bytes encoding d s => exact decodeNext_failingOnClose encoding d s

theorem close_failingOnClose (g : Failure) (supply : Supply) :
    (supply.failingOnClose g).close = ⟨.error g, supply.close.state.failingOnClose g⟩ := by
  cases supply <;> rfl

end Supply

namespace Reader

variable {r : Reader} {line : Option Int} {step : Step Fault Reader (Option Char)}

def failingOnClose (g : Failure) (r : Reader) : Reader :=
  { r with supply := r.supply.failingOnClose g }

inductive Spoils (g : Failure) (r : Reader) (line : Option Int) :
    Step Fault Reader (Option Char) → Prop
  | same {result : Except Fault (Option Char)} {r' : Reader} (ho : r'.isOpen = r.isOpen)
      (hr : (r.failingOnClose g).read line = ⟨result, r'.failingOnClose g⟩) :
      Spoils g r line ⟨result, r'⟩
  | lost {result : Except Fault (Option Char)} {r' r'' : Reader}
      (hn : ∀ c, result ≠ .ok (some c)) (he : r'.exhausted = true) (he' : r''.exhausted = true)
      (hr : (r.failingOnClose g).read line = ⟨.error (.failure g), r''⟩) :
      Spoils g r line ⟨result, r'⟩

theorem ReadCase.spoils (hc : ReadCase r line step) (h : r.supply.Closable) (g : Failure) :
    Spoils g r line step := by
  have hnext {result : Except Failure (List Char)} {next : Supply}
      (hn : r.supply.next = ⟨result, next⟩) :
      (r.failingOnClose g).supply.next = ⟨result, next.failingOnClose g⟩ := by
    rw [failingOnClose, Supply.next_failingOnClose, hn]
  cases hc with
  | waiting hp =>
    have hread : ReadCase (r.failingOnClose g) line _ := .waiting hp
    exact .same rfl hread.read_eq
  | closed hp ho =>
    have hread : ReadCase (r.failingOnClose g) line _ := .closed hp ho
    exact .same rfl hread.read_eq
  | piece hp ho hn =>
    have hread : ReadCase (r.failingOnClose g) line _ := .piece hp ho (hnext hn)
    exact .same rfl hread.read_eq
  | @ended next closed hp ho hn hc =>
    have hread : ReadCase (r.failingOnClose g) line _ :=
      .endedBadly hp ho (hnext hn) (next.close_failingOnClose g)
    exact .lost (by simp) rfl rfl hread.read_eq
  | endedBadly hp ho hn hc => cases (h.of_next hn).close_eq.symm.trans hc
  | @reported f next closed hp ho hn hf hc hr =>
    have hread : ReadCase (r.failingOnClose g) line _ :=
      .failedBadly hp ho (hnext hn) hf (next.close_failingOnClose g)
    exact .lost (by simp) rfl rfl hread.read_eq
  | @passedOver f next closed hp ho hn hf hc hr =>
    have hread : ReadCase (r.failingOnClose g) line _ :=
      .failedBadly hp ho (hnext hn) hf (next.close_failingOnClose g)
    exact .lost (by simp) rfl rfl hread.read_eq
  | failedBadly hp ho hn hf hc => cases (h.of_next hn).close_eq.symm.trans hc
  | otherFailure hp ho hn hf =>
    have hread : ReadCase (r.failingOnClose g) line _ := .otherFailure hp ho (hnext hn) hf
    exact .same rfl hread.read_eq

def ClosesBadly (g : Failure) (supply : Supply) (r r' : Reader) : Prop :=
  r.Lifetime supply ∧ r' = r.failingOnClose g

theorem together_closesBadly {supply : Supply} (hc : supply.Closable) (g : Failure) :
    Together (ClosesBadly g supply) := by
  rintro r _ line ⟨h, rfl⟩
  have h' := (readCase_read r line).lifetime h
  have hspoils := (readCase_read r line).spoils (h.closable hc) g
  generalize hr : r.read line = step at h' hspoils
  cases hspoils with
  | @same result r' ho hr' =>
    match result with
    | .ok (some c) => exact .inl ⟨c, r', _, rfl, hr', h', rfl⟩
    | .ok none =>
      rw [hr']
      exact .inr ⟨by simp, by simp⟩
    | .error e =>
      rw [hr']
      exact .inr ⟨by simp, by simp⟩
  | lost hn he he' hr' =>
    rw [hr']
    exact .inr ⟨hn, by simp⟩

end Reader

namespace Lexer

variable {supply : Supply} {s s' s₁ : Lexer} {cs source : List Char} {content : Content}

def failingOnClose (g : Failure) (s : Lexer) : Lexer :=
  { s with reader := s.reader.failingOnClose g }

/-- A step that leaves nothing more to come fails instead; any other step is the same. -/
inductive Spoils (g : Failure) {α : Type} : Step Fault Lexer α → Step Fault Lexer α → Prop
  | same {result : Except Fault α} {s : Lexer} (hm : s.hasMore = true) :
      Spoils g ⟨result, s⟩ ⟨result, s.failingOnClose g⟩
  | lost {result : Except Fault α} {s t : Lexer} (hm : s.hasMore = false)
      (hm' : t.hasMore = false) : Spoils g ⟨result, s⟩ ⟨.error (.failure g), t⟩

theorem hasMore_of_isOpen (ho : s.reader.isOpen = true) : s.hasMore = true := by
  simp [hasMore, Reader.exhausted, ho]

theorem hasMore_of_exhausted (hs : s.slot = none) (he : s.reader.exhausted = true) :
    s.hasMore = false := by
  simp [hasMore, hs, he]

theorem Steady.peek_spoils (h : s.Steady supply) (hc : supply.Closable) (hm : s.hasMore = true)
    (g : Failure) : Spoils g s.peek (s.failingOnClose g).peek := by
  have ho : s.reader.isOpen = true := by rw [← h.hasMore_eq, hm]
  cases hs : s.slot with
  | some c =>
    have hs' : (s.failingOnClose g).slot = some c := hs
    rw [peek_of_slot hs, peek_of_slot hs']
    exact .same hm
  | none =>
    have hs' : (s.failingOnClose g).slot = none := hs
    cases hr : s.reader.read (some s.line) with
    | mk result r =>
      cases (Reader.ReadCase.of_eq hr).spoils (h.lifetime.closable hc) g with
      | same hopen hr' =>
        cases result with
        | ok c =>
          rw [peek_of_read_ok hs hr, peek_of_read_ok hs' hr']
          exact .same (hasMore_of_isOpen (hopen.trans ho))
        | error e =>
          rw [peek_of_read_error hs hr, peek_of_read_error hs' hr']
          exact .same (hasMore_of_isOpen (hopen.trans ho))
      | lost hn he he' hr' =>
        rw [peek_of_read_error hs' hr']
        cases result with
        | ok c =>
          rw [peek_of_read_ok hs hr]
          cases c with
          | none => exact .lost (hasMore_of_exhausted rfl he) (hasMore_of_exhausted hs' he')
          | some c => exact absurd rfl (hn c)
        | error e =>
          rw [peek_of_read_error hs hr]
          exact .lost (hasMore_of_exhausted hs he) (hasMore_of_exhausted hs' he')

theorem eq_failingOnClose_of_beside (h : s.Beside (Reader.ClosesBadly g supply) s')
    (ho : s'.options = s.options) : s' = s.failingOnClose g := by
  obtain ⟨reader, options, slot, line⟩ := s'
  obtain rfl : reader = s.reader.failingOnClose g := h.reader.2
  obtain rfl : options = s.options := ho
  obtain rfl : slot = s.slot := h.slot
  obtain rfl : line = s.line := h.line
  rfl

theorem Steady.beside_failingOnClose (h : s.Steady supply) (g : Failure) :
    s.Beside (Reader.ClosesBadly g supply) (s.failingOnClose g) :=
  ⟨⟨h.lifetime, rfl⟩, rfl, rfl⟩

theorem answer_failingOnClose (s : Lexer) (line : Int) (content : Content) :
    (s.failingOnClose g).answer line content =
      ⟨(s.answer line content).result, (s.answer line content).state.failingOnClose g⟩ :=
  s.answer_of_commutes rfl rfl rfl (fun _ => rfl) line content

theorem hasMore_answer (s : Lexer) (line : Int) (content : Content) :
    (s.answer line content).state.hasMore = s.hasMore :=
  (alike_answer s line content).hasMore_eq

theorem answer_spoils (hm : s.hasMore = true) (g : Failure) (line : Int) (content : Content) :
    Spoils g (s.answer line content) ((s.failingOnClose g).answer line content) := by
  rw [answer_failingOnClose]
  exact .same ((hasMore_answer s line content).trans hm)

theorem Steady.conclude_spoils (h : s.Steady supply) (hc : supply.Closable)
    (hm : s.hasMore = true) (g : Failure) (line : Int) (source : List Char) (content : Content) :
    Spoils g (s.conclude line source content)
      ((s.failingOnClose g).conclude line source content) := by
  cases ho : Segment.isOpen source content with
  | false =>
    rw [conclude_of_not_isOpen ho, conclude_of_not_isOpen ho]
    exact answer_spoils hm g line content
  | true =>
    -- The look at what follows may close the stream while the answer is already settled.
    have hspoils := h.peek_spoils hc hm g
    generalize hp : s.peek = step at hspoils
    generalize hp' : (s.failingOnClose g).peek = step' at hspoils
    cases hspoils with
    | @same result s' hm' =>
      cases result with
      | error e =>
        rw [conclude_of_peek_error ho hp, conclude_of_peek_error ho hp']
        exact .same hm'
      | ok next =>
        rw [conclude_of_peek_ok ho hp, conclude_of_peek_ok ho hp']
        exact answer_spoils hm' g line content
    | @lost result s' t hm' ht =>
      rw [conclude_of_peek_error ho hp']
      cases result with
      | error e =>
        rw [conclude_of_peek_error ho hp]
        exact .lost hm' ht
      | ok next =>
        rw [conclude_of_peek_ok ho hp]
        exact .lost ((hasMore_answer s' line content).trans hm') ht

theorem Steady.nextToken_spoils (h : s.Steady supply) (hc : supply.Closable)
    (hm : s.hasMore = true) (g : Failure) :
    Spoils g s.nextToken (s.failingOnClose g).nextToken := by
  rcases (h.beside_failingOnClose g).call (Reader.together_closesBadly hc g) with
    ⟨content, source, s₁, s₁', hcut, hcut', hb⟩ | ⟨hn, -⟩
  · have ho : s₁'.options = s₁.options :=
      hcut'.sameSetting.options.trans hcut.sameSetting.options.symm
    obtain rfl := eq_failingOnClose_of_beside hb ho
    have h₁ : s₁.Steady supply := (steady_invariant supply).takes hcut.takes h
    have hm₁ : s₁.hasMore = true :=
      hasMore_of_isOpen (h.takes_end hcut.takes hcut.source_ne_nil).2
    rw [hcut.nextToken_eq, hcut'.nextToken_eq]
    exact h₁.conclude_spoils hc hm₁ g s.line source content
  -- No character stands in front, so the call does no more than look.
  · have hspoils := h.peek_spoils hc hm g
    generalize hp : s.peek = step at hspoils
    generalize hp' : (s.failingOnClose g).peek = step' at hspoils
    cases hspoils with
    | @same result s' hm' =>
      match result with
      | .error e =>
        rw [nextToken_of_peek_error hp, nextToken_of_peek_error hp']
        exact .same hm'
      | .ok none => cases hm'.symm.trans (hasMore_of_peek_none hp)
      | .ok (some c) => exact absurd (congrArg Step.result hp) (hn c)
    | @lost result s' t hm' ht =>
      rw [nextToken_of_peek_error hp']
      match result with
      | .error e =>
        rw [nextToken_of_peek_error hp]
        exact .lost hm' ht
      | .ok none =>
        rw [nextToken_of_peek_none hp]
        exact .lost hm' ht
      | .ok (some c) => exact absurd (congrArg Step.result hp) (hn c)

def Spoiled (g : Failure) (s t : Lexer) : Prop :=
  s.hasMore = true ∧ t = s.failingOnClose g ∨ s.hasMore = false ∧ t.hasMore = false

theorem Spoils.spoiled {α : Type} {a b : Step Fault Lexer α} (h : Spoils g a b) :
    Spoiled g a.state b.state := by
  cases h with
  | same hm => exact .inl ⟨hm, rfl⟩
  | lost hm hm' => exact .inr ⟨hm, hm'⟩

theorem Spoiled.hasMore_eq (h : Spoiled g s s') : s'.hasMore = s.hasMore := by
  rcases h with ⟨hm, rfl⟩ | ⟨hm, hm'⟩
  · rfl
  · rw [hm, hm']

theorem Spoiled.afterCalls (hs : Spoiled g s s') (h : s.Steady supply) (hc : supply.Closable)
    (n : Nat) : Spoiled g (s.afterCalls n) (s'.afterCalls n) := by
  induction n generalizing s s' with
  | zero => exact hs
  | succ n ih =>
    apply ih
    · rcases hs with ⟨hm, rfl⟩ | ⟨hm, hm'⟩
      · exact (h.nextToken_spoils hc hm g).spoiled
      · rw [nextToken_of_not_hasMore hm, nextToken_of_not_hasMore hm']
        exact .inr ⟨hm, hm'⟩
    · exact (steady_invariant supply).nextToken s h

theorem Spoiled.answers (hs : Spoiled g s s') (h : s.Steady supply) (hc : supply.Closable) :
    (s.nextToken.state.hasMore = true → s'.nextToken.result = s.nextToken.result) ∧
    (s.hasMore = true → s.nextToken.state.hasMore = false →
      s'.nextToken.result = .error (.failure g)) ∧
    (s.hasMore = false → s.nextToken.result = .ok none ∧ s'.nextToken.result = .ok none) := by
  rcases hs with ⟨hm, rfl⟩ | ⟨hm, hm'⟩
  · have hspoils := h.nextToken_spoils hc hm g
    generalize s.nextToken = step at hspoils
    generalize (s.failingOnClose g).nextToken = step' at hspoils
    cases hspoils with
    | same hmore => simp [hm, hmore]
    | lost hend ht => simp [hm, hend]
  · rw [nextToken_of_not_hasMore hm, nextToken_of_not_hasMore hm']
    simp [hm]

theorem hasMore_of_peek_scan {e : ScanError} (hp : s.peek = ⟨.error (.scan e), s'⟩) :
    s'.hasMore = false := by
  cases PeekCase.of_eq hp with
  | fault hs hr => exact hasMore_of_exhausted hs (Reader.ReadCase.of_eq hr).leaves

theorem answer_ne_unreadable (s : Lexer) (line : Int) (content : Content) (filename : String)
    (f : Failure) (l : Option Int) :
    (s.answer line content).result ≠ .error (.scan (.unreadable filename f l)) := by
  cases content with
  | lexeme kind text => simp [answer]
  | unknown c =>
    rw [answer, unknownChar]
    cases s.options.chars <;> simp
  | cutOff body =>
    rw [answer, cutOffString]
    cases s.options.strings <;> simp

theorem CallCase.hasMore_of_unreadable {step : Step Fault Lexer (Option Token)} {filename : String}
    {f : Failure} {l : Option Int} (hc : CallCase s source step)
    (hr : step.result = .error (.scan (.unreadable filename f l))) :
    step.state.hasMore = false := by
  cases hc with
  | ended hp => cases hr
  | unread hp =>
    cases hr
    exact hasMore_of_peek_scan hp
  | whole hcut ho ht => exact absurd hr (answer_ne_unreadable _ _ _ _ _ _)
  | delimited hcut ho ht hp => exact absurd hr (answer_ne_unreadable _ _ _ _ _ _)
  | broken hcut ho ht hp =>
    cases hr
    exact hasMore_of_peek_scan hp

/-- What a consumer misses who goes through the tokens of a stream that cannot be closed. -/
structure Harvest.Spoils (g : Failure) (whole spoiled : Harvest) : Prop where
  same : whole.lexer.hasMore = true →
    spoiled.tokens = whole.tokens ∧ spoiled.fault = whole.fault
  lost : whole.lexer.hasMore = false → spoiled.fault = some (.failure g) ∧
    ∃ lost, lost.length ≤ 1 ∧ whole.tokens = spoiled.tokens ++ lost

theorem Harvest.Spoils.append {whole spoiled : Harvest} (h : whole.Spoils g spoiled)
    (ts : List Token) : Harvest.Spoils g { whole with tokens := ts ++ whole.tokens }
      { spoiled with tokens := ts ++ spoiled.tokens } where
  same hm := by
    obtain ⟨htokens, hfault⟩ := h.same hm
    exact ⟨congrArg (ts ++ ·) htokens, hfault⟩
  lost hm := by
    obtain ⟨hfault, lost, hlength, htokens⟩ := h.lost hm
    refine ⟨hfault, lost, hlength, ?_⟩
    simp only [htokens, List.append_assoc]

theorem harvestSpoils_of_lost {whole : Harvest} (hm : whole.lexer.hasMore = false)
    (hl : whole.tokens.length ≤ 1) (t : Lexer) : whole.Spoils g ⟨[], some (.failure g), t⟩ where
  same hm' := by cases hm.symm.trans hm'
  lost _ := ⟨rfl, whole.tokens, hl, rfl⟩

theorem length_kept_toList_le (skip : Bool) (t : Option Token) :
    (kept skip t.toList).length ≤ 1 := by
  refine (List.length_filter_le _ _).trans ?_
  cases t <;> simp

theorem Steady.harvest_spoils (h : s.Steady supply) (hc : supply.Closable) (hm : s.hasMore = true)
    (g : Failure) (skip : Bool) :
    (s.harvest skip none).Spoils g ((s.failingOnClose g).harvest skip none) := by
  fun_induction pulls s with
  | case1 s hmore e s' hn =>
    -- Going through the tokens stops at an error, whichever of the two it is.
    have hmore' : (s.failingOnClose g).hasMore = true := hmore
    have hspoils := h.nextToken_spoils hc hmore g
    rw [hn] at hspoils
    rw [harvest_of_error hmore hn]
    generalize hn' : (s.failingOnClose g).nextToken = step at hspoils
    cases hspoils with
    | same hm' =>
      rw [harvest_of_error hmore' hn']
      exact ⟨fun _ => ⟨rfl, rfl⟩, fun hend => by cases hm'.symm.trans hend⟩
    | lost hm' ht =>
      rw [harvest_of_error hmore' hn']
      apply harvestSpoils_of_lost
      · exact hm'
      · exact Nat.zero_le 1
  | case2 s hmore t s' hn ih =>
    have hmore' : (s.failingOnClose g).hasMore = true := hmore
    have hspoils := h.nextToken_spoils hc hmore g
    have h' : s.nextToken.state.Steady supply := (steady_invariant supply).nextToken s h
    rw [hn] at hspoils h'
    rw [harvest_of_ok hmore hn]
    generalize hn' : (s.failingOnClose g).nextToken = step at hspoils
    cases hspoils with
    | same hm' =>
      rw [harvest_of_ok hmore' hn']
      exact (ih h' hm').append (kept skip t.toList)
    | lost hm' ht =>
      rw [harvest_of_error hmore' hn', harvest_of_not_hasMore hm']
      apply harvestSpoils_of_lost
      · exact hm'
      · simpa using length_kept_toList_le skip t
  | case3 s hn => exact absurd hm hn

end Lexer

/-- Whether closing a stream fails shows only in the call that closes it, which is the first after
which there is nothing more to come. Instead of what it would answer, be it a token, no token or the
report of a read error, this call raises the failure of closing. So one who goes through the tokens
misses at most the last one. -/
theorem failing_close_costs_one_answer {supply : Supply} (hc : supply.Closable) (g : Failure)
    (filename : String) (o : Options) :
    let start := Lexer.ofSupply supply filename o
    let start' := Lexer.ofSupply (supply.failingOnClose g) filename o
    (∀ n,
      let s := start.afterCalls n
      let s' := start'.afterCalls n
      s'.hasMore = s.hasMore ∧
      (s.nextToken.state.hasMore = true → s'.nextToken.result = s.nextToken.result) ∧
      (s.hasMore = true → s.nextToken.state.hasMore = false →
        s'.nextToken.result = .error (.failure g)) ∧
      (∀ name f line, s.nextToken.result = .error (.scan (.unreadable name f line)) →
        s'.nextToken.result = .error (.failure g)) ∧
      (s.hasMore = false → s.nextToken.result = .ok none ∧ s'.nextToken.result = .ok none)) ∧
    ∀ skip,
      let whole := start.harvest skip none
      let spoiled := start'.harvest skip none
      (whole.lexer.hasMore = true →
        spoiled.tokens = whole.tokens ∧ spoiled.fault = whole.fault) ∧
      (whole.lexer.hasMore = false → spoiled.fault = some (.failure g) ∧
        ∃ lost, lost.length ≤ 1 ∧ whole.tokens = spoiled.tokens ++ lost) := by
  intro start start'
  have hsteady : start.Steady supply := Lexer.steady_ofSupply supply filename o
  have hmore : start.hasMore = true := Lexer.hasMore_of_isOpen rfl
  refine ⟨fun n => ?_, fun skip => ?_⟩
  · intro s s'
    have h : s.Steady supply := (Lexer.steady_invariant supply).afterCalls hsteady n
    have hspoiled : Lexer.Spoiled g s s' :=
      Lexer.Spoiled.afterCalls (.inl ⟨hmore, rfl⟩) hsteady hc n
    have hanswer := hspoiled.answers h hc
    refine ⟨hspoiled.hasMore_eq, hanswer.1, hanswer.2.1, fun name f line hr => ?_, hanswer.2.2⟩
    obtain ⟨source, hcall⟩ := s.nextToken_cases
    apply hanswer.2.1
    · exact Lexer.hasMore_of_result_error hr
    · exact hcall.hasMore_of_unreadable hr
  · obtain ⟨hsame, hlost⟩ := hsteady.harvest_spoils hc hmore g skip
    exact ⟨hsame, hlost⟩

theorem failing_close_after_parentheses :
    let supply := Supply.text (.ofItems ['(', ')'])
    let g := Failure.system ⟨.unspecified, .bare "cannot close"⟩
    let start' := Lexer.ofSupply (supply.failingOnClose g) "a.rpal" {}
    supply.Closable ∧ ((Lexer.ofSupply supply "a.rpal" {}).harvest false none).tokens =
        (start'.harvest false none).tokens ∧
      (start'.harvest false none).fault = some (.failure g) := by
  intro supply g start'
  have hc : supply.Closable := rfl
  have hend : ((Lexer.ofSupply supply "a.rpal" {}).harvest false none).lexer.hasMore = false := by
    decide +kernel
  refine ⟨hc, by decide +kernel, ?_⟩
  exact (((failing_close_costs_one_answer hc g "a.rpal" {}).2 false).2 hend).1

/-- The end of the text `a` is seen while the token is being made. The token is lost to the failure
of closing; so is the report of a read error. -/
theorem token_lost_to_failing_close :
    let g := Failure.system ⟨.unspecified, .bare "cannot close"⟩
    let f := Failure.system ⟨.unspecified, .bare "disk gone"⟩
    let start (stream : Stream Char) := Lexer.ofTextStream stream "<input>" {}
    (start { readings := [.piece ['a']] }).nextToken.result =
        .ok (some ⟨.identifier, "a", 1, "<input>"⟩) ∧
      (start { readings := [.piece ['a']], closeFailure := some g }).nextToken.result =
        .error (.failure g) ∧
      (start { readings := [.piece ['a']], closeFailure := some g }).nextToken.state.hasMore =
        false ∧
      (start { readings := [.failure f] }).nextToken.result =
        .error (.scan (.unreadable "<input>" f (some 1))) ∧
      (start { readings := [.failure f], closeFailure := some g }).nextToken.result =
        .error (.failure g) := by
  decide +kernel

end RpalLexer
