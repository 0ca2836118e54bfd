import RpalLexer.Proofs.CallSequence
import RpalLexer.Proofs.SupplyText

/-!
# The pull loop ends

Every call that is made while there is more uses something up, comes to the end or fails. So going
through the tokens takes at most one call more than there are characters; a stream is read for its
readings, for the characters and to see the end, and no more. Main statement: `pull_loop_ends`.
-/
namespace RpalLexer

namespace Stream

variable {α : Type}

def readsInAll (s : Stream α) : Nat := s.reads + s.readings.length

theorem readsInAll_read_le (s : Stream α) : s.read.state.readsInAll ≤ s.readsInAll + 1 := by
  unfold read
  split
  · simp only [readsInAll]
    omega
  · rename_i h
    simp only [readsInAll, h, List.length_cons]
    omega
  · rename_i h
    simp only [readsInAll, h, List.length_cons]
    omega

theorem readsInAll_of_piece {s s' : Stream α} {a : α} {items : List α}
    (h : s.read = ⟨.ok (a :: items), s'⟩) : s'.readsInAll = s.readsInAll := by
  unfold read at h
  split at h
  · cases h
  · rename_i hr
    cases h
    simp only [readsInAll, hr, List.length_cons]
    omega
  · cases h

end Stream

namespace Supply

def readsInAll : Supply → Nat
  | .text s => s.readsInAll
  | .bytes _ _ s => s.readsInAll

theorem reads_le_readsInAll (supply : Supply) : supply.reads ≤ supply.readsInAll := by
  cases supply with
  | text s => exact Nat.le_add_right _ _
  | bytes encoding d s => exact Nat.le_add_right _ _

@[simp] theorem readsInAll_close (supply : Supply) :
    supply.close.state.readsInAll = supply.readsInAll := by
  cases supply <;> rfl

theorem readsInAll_decodeNext_le (encoding : String) (d : Decoder) (s : Stream UInt8) :
    (decodeNext encoding d s).state.readsInAll ≤ s.readsInAll + 1 := by
  fun_induction decodeNext encoding d s with
  | case1 d s f s' h =>
    have hs := s.readsInAll_read_le
    rwa [h] at hs
  | case2 d s s' h fed =>
    have hs := s.readsInAll_read_le
    rwa [h] at hs
  | case3 d s b bs s' h d' hf ih =>
    rwa [← Stream.readsInAll_of_piece h]
  | case4 d s b bs s' h c cs d' hf =>
    have hs := Stream.readsInAll_of_piece h
    exact hs.le.trans (Nat.le_succ _)
  | case5 d s b bs s' h f d' hf =>
    have hs := Stream.readsInAll_of_piece h
    exact hs.le.trans (Nat.le_succ _)

theorem readsInAll_next_le (supply : Supply) :
    supply.next.state.readsInAll ≤ supply.readsInAll + 1 := by
  cases supply with
  | text s => exact s.readsInAll_read_le
  | bytes encoding d s => exact readsInAll_decodeNext_le encoding d s

end Supply

namespace Reader

variable {r : Reader} {line : Option Int} {step : Step Fault Reader (Option Char)}

def readsInAll (r : Reader) : Nat := r.supply.readsInAll + if r.isOpen then 1 else 0

theorem readsInAll_of_isOpen (ho : r.isOpen = true) {result : Except Failure (List Char)}
    {supply : Supply} (hn : r.supply.next = ⟨result, supply⟩) :
    supply.readsInAll ≤ r.readsInAll := by
  have h := r.supply.readsInAll_next_le
  rw [hn] at h
  rwa [readsInAll, if_pos ho]

theorem reads_le_readsInAll (r : Reader) : r.supply.reads ≤ r.readsInAll :=
  r.supply.reads_le_readsInAll.trans (Nat.le_add_right _ _)

theorem readsInAll_closedOn {next closed : Supply} {result : Except Failure (List Char)}
    {ending : Except Failure Unit} (ho : r.isOpen = true) (hn : r.supply.next = ⟨result, next⟩)
    (hc : next.close = ⟨ending, closed⟩) : (r.closedOn closed).readsInAll ≤ r.readsInAll := by
  have hle := readsInAll_of_isOpen ho hn
  have hclosed := next.readsInAll_close
  rw [hc] at hclosed
  simpa [readsInAll, closedOn, hclosed] using hle

theorem readsInAll_piece {next : Supply} {result : Except Failure (List Char)} (cs : List Char)
    (ho : r.isOpen = true) (hn : r.supply.next = ⟨result, next⟩) :
    ({ r with supply := next, pending := cs } : Reader).readsInAll ≤ r.readsInAll + 1 := by
  have hle := readsInAll_of_isOpen ho hn
  simpa [readsInAll, ho] using hle

/-- A read that gives a character may be one more than there seemed to be: a decoder can have text
left when the stream has ended. -/
theorem ReadCase.readsInAll_le (h : ReadCase r line step) {c : Option Char}
    (hk : step.result = .ok c) :
    step.state.readsInAll ≤ r.readsInAll + (delivery step.result).length := by
  cases h with
  | waiting hp => exact Nat.le_add_right _ _
  | closed hp ho => exact Nat.le_refl _
  | piece hp ho hn => exact readsInAll_piece _ ho hn
  | ended hp ho hn hc => exact readsInAll_closedOn ho hn hc
  | endedBadly hp ho hn hc => cases hk
  | reported hp ho hn hf hc hr => cases hk
  | passedOver hp ho hn hf hc hr => exact readsInAll_closedOn ho hn hc
  | failedBadly hp ho hn hf hc => cases hk
  | otherFailure hp ho hn hf => cases hk

theorem ReadCase.reads_le (h : ReadCase r line step) {e : Fault} (he : step.result = .error e) :
    step.state.supply.reads ≤ r.readsInAll := by
  cases h with
  | waiting hp => cases he
  | closed hp ho => cases he
  | piece hp ho hn => cases he
  | ended hp ho hn hc => cases he
  | endedBadly hp ho hn hc =>
    exact (reads_le_readsInAll _).trans (readsInAll_closedOn ho hn hc)
  | reported hp ho hn hf hc hr =>
    exact (reads_le_readsInAll _).trans (readsInAll_closedOn ho hn hc)
  | passedOver hp ho hn hf hc hr => cases he
  | failedBadly hp ho hn hf hc =>
    exact (reads_le_readsInAll _).trans (readsInAll_closedOn ho hn hc)
  | otherFailure hp ho hn hf =>
    exact (Supply.reads_le_readsInAll _).trans (readsInAll_of_isOpen ho hn)

end Reader

namespace Lexer

variable {s s' s₁ : Lexer} {given given' used used' cs : List Char}

def readsInAll (s : Lexer) : Nat := s.reader.readsInAll

theorem reads_le_readsInAll (s : Lexer) : s.reader.supply.reads ≤ s.readsInAll :=
  s.reader.reads_le_readsInAll

structure Charges (s : Lexer) (given used : List Char) (s' : Lexer) : Prop where
  moves : s.Moves given used s'
  reads : s'.readsInAll ≤ s.readsInAll + given.length

theorem Charges.refl (s : Lexer) : s.Charges [] [] s := ⟨.refl s, Nat.le_refl _⟩

theorem Charges.trans (h : s.Charges given used s₁) (h' : s₁.Charges given' used' s') :
    s.Charges (given ++ given') (used ++ used') s' := by
  refine ⟨h.moves.trans h'.moves, ?_⟩
  have hle := h.reads
  have hle' := h'.reads
  rw [List.length_append]
  omega

theorem charges_of_peek {c : Option Char} (h : s.peek = ⟨.ok c, s'⟩) :
    ∃ given, s.Charges given [] s' := by
  cases PeekCase.of_eq h with
  | full hs => exact ⟨[], .refl s⟩
  | @read _ reader hs hr =>
    have hd := Reader.delivers_read s.reader (some s.line)
    have hc := Reader.readCase_read s.reader (some s.line)
    rw [hr] at hd hc
    refine ⟨_, ⟨hd, ?_⟩, hc.readsInAll_le rfl⟩
    rw [hs]
    cases c <;> rfl

theorem reads_of_peek_error {e : Fault} (h : s.peek = ⟨.error e, s'⟩) :
    s'.reader.supply.reads ≤ s.readsInAll := by
  cases PeekCase.of_eq h with
  | fault hs hr => exact (Reader.ReadCase.of_eq hr).reads_le rfl

theorem Takes.charges (h : s.Takes cs s') : ∃ given, s.Charges given cs s' := by
  induction h with
  | nil s => exact ⟨[], .refl s⟩
  | cons ha _ ih =>
    obtain ⟨s₁, hp, rfl⟩ := exists_peek_of_advance_some ha
    obtain ⟨given, hg⟩ := charges_of_peek hp
    obtain ⟨given', hg'⟩ := ih
    have ht : s₁.Charges [] [_] (s₁.take _) := ⟨moves_take (slot_of_peek hp), Nat.le_refl _⟩
    exact ⟨_, (hg.trans ht).trans hg'⟩

theorem Alike.charges (h : s.Alike s') : s.Charges [] [] s' := by
  refine ⟨h.moves, ?_⟩
  obtain ⟨reader, ⟨log, rfl⟩, rfl⟩ := h
  exact Nat.le_refl _

theorem Charges.reads_le (h : s.Charges given used s') :
    s'.reader.supply.reads ≤ s.readsInAll + given.length :=
  s'.reads_le_readsInAll.trans h.reads

theorem Charges.answer (h : s.Charges given used s') (line : Int) (content : Content) :
    s.Charges given used (s'.answer line content).state := by
  simpa using h.trans (alike_answer s' line content).charges

theorem CallCase.charges {source : List Char} {step : Step Fault Lexer (Option Token)}
    (h : CallCase s source step) : ∃ given, s.Moves given source step.state ∧
      step.state.reader.supply.reads ≤ s.readsInAll + given.length ∧
      (s.Charges given source step.state ∨ ∃ e, step.result = .error e) := by
  cases h with
  | ended hp =>
    obtain ⟨given, hg⟩ := charges_of_peek hp
    exact ⟨given, hg.moves, hg.reads_le, .inl hg⟩
  | unread hp =>
    exact ⟨[], (moves_of_peek_error hp).1, reads_of_peek_error hp, .inr ⟨_, rfl⟩⟩
  | @whole content _ _ hc ho ht =>
    obtain ⟨given, hg⟩ := ht.charges
    have ha := hg.answer s.line content
    exact ⟨given, ha.moves, ha.reads_le, .inl ha⟩
  | @delimited content _ _ _ _ hc ho ht hp =>
    obtain ⟨given, hg⟩ := ht.charges
    obtain ⟨given', hg'⟩ := charges_of_peek hp
    have ha := (hg.trans hg').answer s.line content
    rw [List.append_nil] at ha
    exact ⟨_, ha.moves, ha.reads_le, .inl ha⟩
  | broken hc ho ht hp =>
    obtain ⟨given, hg⟩ := ht.charges
    have hm := hg.moves.trans (moves_of_peek_error hp).1
    rw [List.append_nil, List.append_nil] at hm
    exact ⟨given, hm, (reads_of_peek_error hp).trans hg.reads, .inr ⟨_, rfl⟩⟩

theorem CallCase.progress {source : List Char} {step : Step Fault Lexer (Option Token)}
    (h : CallCase s source step) :
    source ≠ [] ∨ step.state.hasMore = false ∨ ∃ e, step.result = .error e := by
  cases h with
  | ended hp => exact .inr (.inl (hasMore_of_peek_none hp))
  | unread hp => exact .inr (.inr ⟨_, rfl⟩)
  | whole hc ho ht => exact .inl (hc []).source_ne_nil
  | @delimited _ _ next _ _ hc ho ht hp =>
    exact .inl (hc next.toList (by cases next <;> rfl)).source_ne_nil
  | broken hc ho ht hp => exact .inr (.inr ⟨_, rfl⟩)

/-- What the calls answer that are made as long as there is more and none has failed. -/
def pulls (s : Lexer) : List (Except Fault (Option Token)) :=
  if _hm : s.hasMore = true then
    match _h : s.nextToken with
    | ⟨.error e, _⟩ => [.error e]
    | ⟨.ok t, s'⟩ => .ok t :: pulls s'
  else []
termination_by s.weight
decreasing_by exact weight_nextToken_lt _hm _h

theorem pulls_of_not_hasMore (hm : s.hasMore = false) : s.pulls = [] := by
  rw [pulls]
  simp [hm]

theorem pulls_of_error (hm : s.hasMore = true) {e : Fault} (h : s.nextToken.result = .error e) :
    s.pulls = [.error e] := by
  rw [pulls, dif_pos hm]
  split
  · rename_i e' s₁ hn
    rw [hn] at h
    cases h
    rfl
  · rename_i t s₁ hn
    rw [hn] at h
    cases h

theorem pulls_of_ok {t : Option Token} (hm : s.hasMore = true) (h : s.nextToken.result = .ok t) :
    s.pulls = .ok t :: s.nextToken.state.pulls := by
  rw [pulls, dif_pos hm]
  split
  · rename_i e' s₁ hn
    rw [hn] at h
    cases h
  · rename_i t' s₁ hn
    rw [hn] at h
    cases h
    rw [hn]

def pulledTokens (answers : List (Except Fault (Option Token))) : List Token :=
  answers.filterMap fun answer => answer.toOption.join

def pulledFault (answers : List (Except Fault (Option Token))) : Option Fault :=
  answers.findSome? fun
    | .error e => some e
    | .ok _ => none

theorem pulledTokens_cons (t : Option Token) (answers : List (Except Fault (Option Token))) :
    pulledTokens (.ok t :: answers) = t.toList ++ pulledTokens answers := by
  cases t <;> rfl

theorem harvest_eq_pulls (skip : Bool) (s : Lexer) : s.harvest skip none =
    ⟨kept skip (pulledTokens s.pulls), pulledFault s.pulls, s.afterCalls s.pulls.length⟩ := by
  fun_induction pulls s with
  | case1 s hm e s' h =>
    rw [harvest_of_error hm h, List.length_singleton, afterCalls, h]
    rfl
  | case2 s hm t s' h ih =>
    rw [harvest_of_ok hm h, ih, pulledTokens_cons, kept_append, List.length_cons, afterCalls, h]
    rfl
  | case3 s hm =>
    rw [harvest_of_not_hasMore (by simpa using hm)]
    rfl

theorem getElem?_pulls (s : Lexer) {m : Nat} (hm : m < s.pulls.length) :
    (s.afterCalls m).hasMore = true ∧ s.pulls[m]? = some (s.afterCalls m).nextToken.result := by
  fun_induction pulls s generalizing m with
  | case1 s hmore e s' h =>
    obtain rfl : m = 0 := by simpa using hm
    exact ⟨hmore, by simp [afterCalls, h]⟩
  | case2 s hmore t s' h ih =>
    cases m with
    | zero => exact ⟨hmore, by simp [afterCalls, h]⟩
    | succ m =>
      rw [afterCalls, h, List.getElem?_cons_succ]
      exact ih (by simpa using hm)
  | case3 s hmore => simp at hm

theorem CallCase.length_pulls_le {source : List Char} {t : Option Token}
    (h : CallCase s source ⟨.ok t, s'⟩) (hl : s'.pulls.length ≤ used'.length + 1) :
    s'.pulls.length ≤ (source ++ used').length := by
  rw [List.length_append]
  rcases h.progress with hne | hend | ⟨e, he⟩
  · have hpos := List.length_pos_iff.2 hne
    omega
  · rw [pulls_of_not_hasMore hend]
    exact Nat.zero_le _
  · cases he

theorem charges_pulls (s : Lexer) : ∃ given used,
    s.Moves given used (s.afterCalls s.pulls.length) ∧ s.pulls.length ≤ used.length + 1 ∧
      (s.afterCalls s.pulls.length).reader.supply.reads ≤ s.readsInAll + given.length := by
  fun_induction pulls s with
  | case1 s hm e s' h =>
    obtain ⟨used, hc⟩ := nextToken_cases s
    obtain ⟨given, hmoves, hreads, -⟩ := hc.charges
    exact ⟨given, used, hmoves, Nat.le_add_left _ _, hreads⟩
  | case2 s hm t s' h ih =>
    obtain ⟨used, hc⟩ := nextToken_cases s
    rw [h] at hc
    obtain ⟨given', used', hmoves, hlength, hreads⟩ := ih
    -- Another call follows, so the reads of this one have to be charged.
    obtain ⟨given, -, -, hg | ⟨e, he⟩⟩ := hc.charges
    · have hle : s'.readsInAll ≤ s.readsInAll + given.length := hg.reads
      rw [List.length_cons, afterCalls, h]
      refine ⟨_, _, hg.moves.trans hmoves, Nat.succ_le_succ (hc.length_pulls_le hlength), ?_⟩
      rw [List.length_append]
      exact hreads.trans (by omega)
    · cases he
  | case3 s hm => exact ⟨[], [], .refl s, Nat.zero_le _, s.reads_le_readsInAll⟩

theorem pulls_end (s : Lexer) : (s.afterCalls s.pulls.length).hasMore = false ∨
    ∃ e, pulledFault s.pulls = some e := by
  fun_induction pulls s with
  | case1 s hm e s' h => exact .inr ⟨e, rfl⟩
  | case2 s hm t s' h ih =>
    rw [List.length_cons, afterCalls, h]
    exact ih
  | case3 s hm =>
    left
    rwa [List.length_nil, afterCalls, ← Bool.not_eq_true]

end Lexer

/-- Whatever a lexer reads from, and wherever it is, a call uses up a character, leaves nothing more
to come or fails. The loop over the calls, which going through the tokens is, ends at the
end of the input or with the first fault; up to there it makes at most one call more than it uses up
characters, so at most one more than there were in the slot and are given out. There are only so
many reads as there are readings, and one for each character and for the end. -/
theorem pull_loop_ends (s : Lexer) :
    (∃ given used, s.Moves given used s.nextToken.state ∧
      s.nextToken.state.reader.supply.reads ≤ s.reader.readsInAll + given.length ∧
      (used ≠ [] ∨ s.nextToken.state.hasMore = false ∨ ∃ e, s.nextToken.result = .error e)) ∧
    (∀ skip, s.harvest skip none = ⟨kept skip (Lexer.pulledTokens s.pulls),
      Lexer.pulledFault s.pulls, s.afterCalls s.pulls.length⟩) ∧
    (∀ m < s.pulls.length, (s.afterCalls m).hasMore = true ∧
      s.pulls[m]? = some (s.afterCalls m).nextToken.result) ∧
    ((s.afterCalls s.pulls.length).hasMore = false ∨ ∃ e, Lexer.pulledFault s.pulls = some e) ∧
    ∃ given used, s.Moves given used (s.afterCalls s.pulls.length) ∧
      s.pulls.length ≤ used.length + 1 ∧
      s.pulls.length ≤ s.slot.toList.length + given.length + 1 ∧
      (s.afterCalls s.pulls.length).reader.supply.reads ≤
        s.reader.readsInAll + given.length := by
  refine ⟨?_, fun skip => s.harvest_eq_pulls skip, fun m hm => s.getElem?_pulls hm,
    s.pulls_end, ?_⟩
  · obtain ⟨used, hc⟩ := s.nextToken_cases
    obtain ⟨given, hmoves, hreads, -⟩ := hc.charges
    exact ⟨given, used, hmoves, hreads, hc.progress⟩
  · obtain ⟨given, used, hmoves, hlength, hreads⟩ := s.charges_pulls
    have hbalance := congrArg List.length hmoves.balance
    rw [List.length_append, List.length_append] at hbalance
    exact ⟨given, used, hmoves, hlength, by omega, hreads⟩

example : (Lexer.ofString "((" "a.rpal" {}).pulls.length = 3 := by decide +kernel

end RpalLexer
