import RpalLexer.Proofs.CallSequence
import RpalLexer.Proofs.Simulation
import RpalLexer.Proofs.SupplyText

/-!
# The two policies for read errors

One stream fails after some text. A lexer that reports read errors and one that takes them for the
end go through the text in step, up to the call that meets the failure. That call costs the first of
them at most the token that the second makes of the last characters; after it both are at the end.
Main statements: what one call does (`Lexer.Doomed.call`) and what all do (`raise_or_end`).
-/
namespace RpalLexer

namespace Reader

variable {f : Failure} {n : Nat} {r r' : Reader}

def patient (r : Reader) : Reader := { r with policy := .endOfInput }

/-- A reader that will report the failure `f`, on a stream that was closed `n` times. -/
structure Doomed (f : Failure) (n : Nat) (r : Reader) : Prop where
  policy : r.policy = .raise
  isOpen : r.isOpen = true
  closable : r.supply.Closable
  closes : r.supply.closes = n
  hands : ∃ rest, r.supply.Hands (some f) rest

theorem Doomed.alike (h : r.Doomed f n) (ha : r.Alike r') : r'.Doomed f n := by
  obtain ⟨log, rfl⟩ := ha
  exact ⟨h.policy, h.isOpen, h.closable, h.closes, h.hands⟩

theorem Doomed.exhausted (h : r.Doomed f n) : r.exhausted = false := by
  simp [Reader.exhausted, h.isOpen]

theorem Doomed.read_waiting {c : Char} {cs : List Char} (h : r.Doomed f n)
    (hp : r.pending = c :: cs) (line : Option Int) :
    ∃ r₁, r.read line = ⟨.ok (some c), r₁⟩ ∧ r.patient.read line = ⟨.ok (some c), r₁.patient⟩ ∧
      r₁.Doomed f n := by
  have hread' : ReadCase r.patient line _ := .waiting hp
  exact ⟨_, (ReadCase.waiting hp).read_eq, hread'.read_eq,
    ⟨h.policy, h.isOpen, h.closable, h.closes, h.hands⟩⟩

theorem Doomed.read_cases (hf : f.isReadError = true) (h : r.Doomed f n) (line : Option Int) :
    (∃ c r₁, r.read line = ⟨.ok (some c), r₁⟩ ∧
      r.patient.read line = ⟨.ok (some c), r₁.patient⟩ ∧ r₁.Doomed f n) ∨
    ∃ r₁, r.read line = ⟨.error (.scan (.unreadable r.filename f line)), r₁⟩ ∧
      r.patient.read line = ⟨.ok none, r₁.patient.note (.readError r.filename f)⟩ ∧
      r₁.exhausted = true ∧ r₁.supply.closes = n + 1 := by
  cases hp : r.pending with
  | cons c cs => exact Or.inl ⟨c, h.read_waiting hp line⟩
  | nil =>
    have hcl := r.supply.closing_next.1
    obtain ⟨rest, hs⟩ := h.hands
    cases hs with
    | stop hn =>
      have hn : r.supply.next = ⟨.error f, r.supply.next.state⟩ := Step.eq_of_result hn
      have hclose := (h.closable.of_next hn).close_eq
      have hread : ReadCase r line _ := .reported hp h.isOpen hn hf hclose h.policy
      have hread' : ReadCase r.patient line _ := .passedOver hp h.isOpen hn hf hclose rfl
      refine Or.inr ⟨_, hread.read_eq, hread'.read_eq, rfl, ?_⟩
      rw [closedOn, Supply.closes_close, hcl, h.closes]
    | @piece _ next c cs ds hn hs =>
      have hread : ReadCase r line _ := .piece hp h.isOpen hn
      have hread' : ReadCase r.patient line _ := .piece hp h.isOpen hn
      rw [hn] at hcl
      exact Or.inl ⟨c, _, hread.read_eq, hread'.read_eq,
        ⟨h.policy, h.isOpen, h.closable.of_next hn, hcl.trans h.closes, _, hs⟩⟩

def Paired (f : Failure) (n : Nat) (r r' : Reader) : Prop := r.Doomed f n ∧ r' = r.patient

theorem together_paired (hf : f.isReadError = true) : Together (Paired f n) := by
  rintro r r' line ⟨h, rfl⟩
  rcases h.read_cases hf line with ⟨c, r₁, hr, hr', h₁⟩ | ⟨r₁, hr, hr', -⟩
  · exact Or.inl ⟨c, r₁, r₁.patient, hr, hr', h₁, rfl⟩
  · rw [hr, hr']
    exact Or.inr ⟨by simp, by simp⟩

end Reader

namespace Segment

theorem Cut.lexeme_of_isOpen {kind : Kind} {text source rest : List Char}
    (h : Cut (.lexeme kind text) source rest) (ho : isOpen source (.lexeme kind text) = true) :
    text = source ∧ kind ∈ [Kind.identifier, .integer, .operator, .delete] := by
  cases h with
  | identifier hc hcs hr => exact ⟨rfl, by simp⟩
  | integer hc hcs hr => exact ⟨rfl, by simp⟩
  | operator hc hcs hn hr => exact ⟨rfl, by simp⟩
  | space hc hcs hr => exact ⟨rfl, by simp⟩
  | comment hcs => simp [isOpen] at ho
  | lastComment hcs => exact ⟨rfl, by simp⟩
  | string hb => cases ho
  | punctuation hc => simp [isOpen_punctuation hc] at ho

end Segment

namespace Lexer

variable {f : Failure} {n : Nat} {s s' s₁ s₁' t t' : Lexer} {content : Content}
  {source text : List Char}

def patient (s : Lexer) : Lexer :=
  { s with
    reader := s.reader.patient
    options := { s.options with readErrors := .endOfInput } }

def Doomed (f : Failure) (n : Nat) (s : Lexer) : Prop := s.reader.Doomed f n

theorem Doomed.hasMore (h : s.Doomed f n) : s.hasMore = true := by
  simp [Lexer.hasMore, Reader.Doomed.exhausted h]

theorem Doomed.alike (h : s.Doomed f n) (ha : s.Alike s') : s'.Doomed f n := by
  obtain ⟨reader, ha, rfl⟩ := ha
  exact Reader.Doomed.alike h ha

structure Over (n : Nat) (t t' : Lexer) : Prop where
  ended : t.hasMore = false
  ended' : t'.hasMore = false
  line : t'.line = t.line
  closes : t.reader.supply.closes = n
  closes' : t'.reader.supply.closes = n

theorem Over.alike (h : Over n t t') (ha : t'.Alike s') : Over n t s' where
  ended := h.ended
  ended' := ha.hasMore_eq.trans h.ended'
  line := ha.line_eq.trans h.line
  closes := h.closes
  closes' := by
    obtain ⟨reader, ⟨log, rfl⟩, rfl⟩ := ha
    exact h.closes'

theorem Doomed.peek_cases (hf : f.isReadError = true) (h : s.Doomed f n) :
    (∃ c t, s.peek = ⟨.ok (some c), t⟩ ∧ s.patient.peek = ⟨.ok (some c), t.patient⟩ ∧
      t.Doomed f n) ∨
    ∃ t t', s.peek = ⟨.error (.scan (.unreadable s.filename f (some s.line))), t⟩ ∧
      s.patient.peek = ⟨.ok none, t'⟩ ∧ Over (n + 1) t t' := by
  cases hs : s.slot with
  | some c =>
    have hp' : s.patient.peek = ⟨.ok (some c), s.patient⟩ := peek_of_slot hs
    exact Or.inl ⟨c, s, peek_of_slot hs, hp', h⟩
  | none =>
    have hs' : s.patient.slot = none := hs
    rcases Reader.Doomed.read_cases hf h (some s.line) with
      ⟨c, r₁, hr, hr', h₁⟩ | ⟨r₁, hr, hr', he, hn⟩
    · exact Or.inl ⟨c, _, peek_of_read_ok hs hr, peek_of_read_ok hs' hr', h₁⟩
    · refine Or.inr ⟨_, _, peek_of_read_error hs hr, peek_of_read_ok hs' hr', ?_⟩
      have he' : (r₁.patient.note (.readError s.reader.filename f)).exhausted = true := he
      exact ⟨by simp [Lexer.hasMore, hs, he], by simp [Lexer.hasMore, he'], rfl, hn, hn⟩

theorem answer_patient (s : Lexer) (line : Int) (content : Content) :
    s.patient.answer line content =
      ⟨(s.answer line content).result, (s.answer line content).state.patient⟩ :=
  s.answer_of_commutes rfl rfl rfl (fun _ => rfl) line content

theorem eq_patient_of_beside (h : s₁.Beside (Reader.Paired f n) s₁') (hs : s.SameSetting s₁)
    (hs' : s.patient.SameSetting s₁') : s₁' = s₁.patient := by
  have ho : s₁'.options = { s₁.options with readErrors := .endOfInput } := by
    rw [hs'.options, hs.options]
    rfl
  obtain ⟨reader, options, slot, line⟩ := s₁'
  obtain rfl : reader = s₁.reader.patient := h.reader.2
  obtain rfl : options = _ := ho
  obtain rfl : slot = s₁.slot := h.slot
  obtain rfl : line = s₁.line := h.line
  rfl

/-- What the call that meets the failure comes to where a read error is the end: nothing, an
unterminated string, or a token made of all the characters that were left. -/
inductive LastOutcome (left : List Char) : Except Fault (Option Token) → Prop
  | none : LastOutcome left (.ok none)
  | unterminated (location : Option Location) (fragment : Option String) :
      LastOutcome left (.error (.scan (.unterminatedString location fragment)))
  | token {t : Token} (hk : t.kind ∈ [Kind.identifier, .integer, .operator, .delete])
      (ht : t.text.toList = left) : LastOutcome left (.ok (some t))

theorem lastOutcome_answer (hc : Segment.Cut content source [])
    (ho : Segment.isOpen source content = true) (s : Lexer) (line : Int) :
    LastOutcome source (s.answer line content).result := by
  cases content with
  | lexeme kind text =>
    obtain ⟨rfl, hk⟩ := hc.lexeme_of_isOpen ho
    exact .token hk (by simp [Lexer.token])
  | unknown c => cases ho
  | cutOff body =>
    simp only [answer, cutOffString]
    cases s.options.strings with
    | raise => exact .unterminated _ _
    | discard => exact .none

structure InStep (f : Failure) (n : Nat) (s : Lexer) : Prop where
  patient : s.patient.nextToken = ⟨s.nextToken.result, s.nextToken.state.patient⟩
  doomed : s.nextToken.state.Doomed f n
  ahead : s.nextToken.state.patient.ahead.length < s.patient.ahead.length

structure Meets (f : Failure) (n : Nat) (s : Lexer) : Prop where
  raised : ∃ line, s.nextToken.result = .error (.scan (.unreadable s.filename f (some line)))
  passed : LastOutcome s.patient.ahead s.patient.nextToken.result
  atEnd : Over (n + 1) s.nextToken.state s.patient.nextToken.state

theorem inStep_of_eq {result : Except Fault (Option Token)} (hn : s.nextToken = ⟨result, t⟩)
    (hn' : s.patient.nextToken = ⟨result, t.patient⟩) (hd : t.Doomed f n)
    (ha : t.patient.ahead.length < s.patient.ahead.length) : s.InStep f n := by
  refine ⟨?_, ?_, ?_⟩ <;> rw [hn]
  · exact hn'
  · exact hd
  · exact ha

theorem answer_inStep (hne : source ≠ []) (ht : s.patient.ahead = source ++ t.patient.ahead)
    (hd : t.Doomed f n) (hn : s.nextToken = t.answer s.line content)
    (hn' : s.patient.nextToken = t.patient.answer s.line content) : s.InStep f n := by
  have ha := alike_answer t.patient s.line content
  rw [answer_patient] at ha hn'
  refine inStep_of_eq (by rw [hn]) hn' (hd.alike (alike_answer t s.line content)) ?_
  rw [ha.ahead_eq, ht, List.length_append]
  exact Nat.lt_add_of_pos_left (List.length_pos_iff.2 hne)

theorem Cuts.inStep_or_meets (hf : f.isReadError = true) (hc : s.Cuts content source s₁)
    (hc' : s.patient.Cuts content source s₁.patient) (hd : s₁.Doomed f n) :
    s.InStep f n ∨ s.Meets f n := by
  have hn := hc.nextToken_eq
  have hn' : s.patient.nextToken = s₁.patient.conclude s.line source content := hc'.nextToken_eq
  have hahead := hc'.takes.ahead_eq
  have hne := hc.source_ne_nil
  cases ho : Segment.isOpen source content with
  | false =>
    rw [conclude_of_not_isOpen ho] at hn hn'
    exact Or.inl (answer_inStep hne hahead hd hn hn')
  | true =>
    -- An open segment ends with a look at what follows, and that look may meet the failure.
    rcases hd.peek_cases hf with ⟨c, t, hp, hp', ht⟩ | ⟨t, t', hp, hp', hover⟩
    · rw [conclude_of_peek_ok ho hp] at hn
      rw [conclude_of_peek_ok ho hp'] at hn'
      rw [← ahead_of_peek hp'] at hahead
      exact Or.inl (answer_inStep hne hahead ht hn hn')
    · rw [conclude_of_peek_error ho hp] at hn
      rw [conclude_of_peek_ok ho hp'] at hn'
      have hnil : s₁.patient.ahead = [] := List.head?_eq_none_iff.1 (head?_ahead_of_peek hp')
      have hcut : Segment.Cut content source [] := hc.cut [] ((admits_of_peek_error hp).2 rfl)
      rw [hnil, List.append_nil] at hahead
      refine Or.inr ⟨⟨s₁.line, ?_⟩, ?_, ?_⟩
      · rw [hn, hc.sameSetting.filename]
      · rw [hn', hahead]
        exact lastOutcome_answer hcut ho t' s.line
      · rw [hn, hn']
        exact hover.alike (alike_answer t' s.line content)

theorem Doomed.call (hf : f.isReadError = true) (h : s.Doomed f n) :
    s.InStep f n ∨ s.Meets f n := by
  have hb : s.Beside (Reader.Paired f n) s.patient := ⟨⟨h, rfl⟩, rfl, rfl⟩
  -- Both cut the same segment off, or the failure stands where a segment would begin.
  rcases hb.call (Reader.together_paired hf) with ⟨content, source, s₁, s₁', hc, hc', h₁⟩ | ⟨ha, -⟩
  · obtain rfl := eq_patient_of_beside h₁ hc.sameSetting hc'.sameSetting
    exact hc.inStep_or_meets hf hc' h₁.reader.1
  · rcases h.peek_cases hf with ⟨c, t, hp, -⟩ | ⟨t, t', hp, hp', hover⟩
    · exact absurd (by rw [hp]) (ha c)
    · have hn := nextToken_of_peek_error hp
      have hn' := nextToken_of_peek_none hp'
      refine Or.inr ⟨⟨s.line, by rw [hn]⟩, ?_, ?_⟩
      · rw [hn']
        exact .none
      · rw [hn, hn']
        exact hover

theorem Doomed.exists_meets (hf : f.isReadError = true) (h : s.Doomed f n) :
    ∃ k ≤ s.patient.ahead.length, (∀ m < k, (s.afterCalls m).InStep f n) ∧
      (s.afterCalls k).Meets f n := by
  induction hl : s.patient.ahead.length using Nat.strong_induction_on generalizing s with
  | _ l ih =>
    subst hl
    rcases h.call hf with hi | hm
    -- A call in step takes a character away from what is ahead of the patient lexer.
    · obtain ⟨k, hk, hstep, hm⟩ := ih _ hi.ahead hi.doomed rfl
      refine ⟨k + 1, Nat.succ_le_of_lt (Nat.lt_of_le_of_lt hk hi.ahead), fun m hmk => ?_, hm⟩
      cases m with
      | zero => exact hi
      | succ m => exact hstep m (Nat.lt_of_succ_lt_succ hmk)
    · exact ⟨0, Nat.zero_le _, fun m hm => absurd hm (Nat.not_lt_zero m), hm⟩

theorem afterCalls_patient {k : Nat} (h : ∀ m < k, (s.afterCalls m).InStep f n) :
    ∀ m ≤ k, s.patient.afterCalls m = (s.afterCalls m).patient := by
  intro m hm
  induction m with
  | zero => rfl
  | succ m ih =>
    rw [afterCalls_succ, afterCalls_succ, ih (Nat.le_of_lt hm), (h m hm).patient]

/-- What a consumer has under the two policies: the same, or the first consumer is told of the read
error and the second may have one more token. -/
def LosesAtMostOne (filename : String) (f : Failure) (h h' : Harvest) : Prop :=
  h'.tokens = h.tokens ∧ h'.fault = h.fault ∨
    ∃ line last, h.fault = some (.scan (.unreadable filename f (some line))) ∧
      h'.tokens = h.tokens ++ last ∧ last.length ≤ 1

theorem length_kept_le (skip : Bool) (t : Token) : (kept skip [t]).length ≤ 1 :=
  List.length_filter_le _ [t]

theorem InStep.harvest {skip : Bool} (hi : s.InStep f n) (hm : s.hasMore = true)
    (hrest : LosesAtMostOne s.filename f (s.nextToken.state.harvest skip none)
      (s.nextToken.state.patient.harvest skip none)) :
    LosesAtMostOne s.filename f (s.harvest skip none) (s.patient.harvest skip none) := by
  have hm' : s.patient.hasMore = true := hm
  have hn' := hi.patient
  cases hr : s.nextToken.result with
  | error e =>
    have hn := Step.eq_of_result hr
    rw [hr] at hn'
    rw [harvest_of_error hm hn, harvest_of_error hm' hn']
    exact Or.inl ⟨rfl, rfl⟩
  | ok t =>
    have hn := Step.eq_of_result hr
    rw [hr] at hn'
    rw [harvest_of_ok hm hn, harvest_of_ok hm' hn']
    rcases hrest with ⟨htokens, hfault⟩ | ⟨line, last, hfault, htokens, hlast⟩
    · exact Or.inl ⟨congrArg (kept skip t.toList ++ ·) htokens, hfault⟩
    · refine Or.inr ⟨line, last, hfault, ?_, hlast⟩
      rw [htokens, List.append_assoc]

theorem Meets.harvest {skip : Bool} (h : s.Meets f n) (hm : s.hasMore = true) :
    LosesAtMostOne s.filename f (s.harvest skip none) (s.patient.harvest skip none) := by
  have hm' : s.patient.hasMore = true := hm
  obtain ⟨line, hr⟩ := h.raised
  have hn := Step.eq_of_result hr
  have hpassed := h.passed
  have hend : s.patient.nextToken.state.harvest skip none = ⟨[], none, _⟩ :=
    harvest_of_not_hasMore h.atEnd.ended'
  rw [harvest_of_error hm hn]
  cases hn' : s.patient.nextToken with
  | mk result t' =>
    rw [hn'] at hpassed hend
    cases hpassed with
    | none =>
      rw [harvest_of_ok hm' hn', hend]
      exact Or.inr ⟨line, [], rfl, rfl, Nat.zero_le 1⟩
    | unterminated location fragment =>
      rw [harvest_of_error hm' hn']
      exact Or.inr ⟨line, [], rfl, rfl, Nat.zero_le 1⟩
    | @token t hk ht =>
      rw [harvest_of_ok hm' hn', hend]
      exact Or.inr ⟨line, kept skip [t], rfl, by simp, length_kept_le skip t⟩

theorem Doomed.harvest (hf : f.isReadError = true) (h : s.Doomed f n) (skip : Bool) :
    LosesAtMostOne s.filename f (s.harvest skip none) (s.patient.harvest skip none) := by
  induction hl : s.patient.ahead.length using Nat.strong_induction_on generalizing s with
  | _ l ih =>
    subst hl
    rcases h.call hf with hi | hm
    · have hrest := ih _ hi.ahead hi.doomed rfl
      rw [(sameSetting_nextToken s).filename] at hrest
      exact hi.harvest h.hasMore hrest
    · exact hm.harvest h.hasMore

theorem doomed_ofSupply {supply : Supply} {cs : List Char} (hs : supply.Hands (some f) cs)
    (hc : supply.Closable) (filename : String) (o : Options) :
    (ofSupply supply filename { o with readErrors := .raise }).Doomed f supply.closes :=
  ⟨rfl, rfl, hc, rfl, cs, hs⟩

end Lexer

/-- Over a stream that hands on `cs` and then fails, the calls of two lexers that differ in the
policy for read errors do the same up to the call that meets the failure. That call reports the
failure, or passes it over and answers what the end of the input would bring; then both are at the
end, and the stream was closed once. So the tokens before the report are those that the other policy
gives, but for the last one at most. -/
theorem raise_or_end {f : Failure} {cs : List Char} {supply : Supply}
    (hs : supply.Hands (some f) cs) (hf : f.isReadError = true) (hc : supply.Closable)
    (filename : String) (o : Options) :
    let s := Lexer.ofSupply supply filename { o with readErrors := .raise }
    let s' := Lexer.ofSupply supply filename { o with readErrors := .endOfInput }
    (∃ k ≤ cs.length,
      (∀ m < k, (s'.afterCalls m).nextToken.result = (s.afterCalls m).nextToken.result) ∧
      (∀ m ≤ k, s'.afterCalls m = (s.afterCalls m).patient) ∧
      (∃ line, (s.afterCalls k).nextToken.result =
        .error (.scan (.unreadable filename f (some line)))) ∧
      (∃ given taken left, s'.Moves given taken (s'.afterCalls k) ∧ taken ++ left = cs ∧
        Lexer.LastOutcome left (s'.afterCalls k).nextToken.result) ∧
      ∀ m > k, Lexer.Over (supply.closes + 1) (s.afterCalls m) (s'.afterCalls m) ∧
        (s.afterCalls m).nextToken.result = .ok none ∧
        (s'.afterCalls m).nextToken.result = .ok none) ∧
    ∀ skip, Lexer.LosesAtMostOne filename f (s.harvest skip none) (s'.harvest skip none) := by
  intro s s'
  have hd : s.Doomed f supply.closes := Lexer.doomed_ofSupply hs hc filename o
  have hpatient : s' = s.patient := rfl
  have hoffers : s'.reader.Offers cs :=
    .opened hs hc (fun g hg => by cases hg; exact ⟨hf, rfl⟩) rfl rfl
  have hquiet : s'.Quiet := hoffers.quiet
  have hahead : s'.ahead = cs := hoffers.upcoming_eq
  refine ⟨?_, hd.harvest hf⟩
  obtain ⟨k, hk, hstep, hmeets⟩ := hd.exists_meets hf
  have hsame := Lexer.afterCalls_patient hstep
  rw [← hpatient] at hk hsame
  have hover := hmeets.atEnd
  rw [← hsame k (Nat.le_refl k)] at hover
  refine ⟨k, hahead ▸ hk, fun m hm => ?_, hsame, ?_, ?_, fun m hm => ?_⟩
  · rw [hsame m (Nat.le_of_lt hm), (hstep m hm).patient]
  · obtain ⟨line, hr⟩ := hmeets.raised
    rw [(Lexer.sameSetting_afterCalls k s).filename] at hr
    exact ⟨line, hr⟩
  · obtain ⟨given, taken, hm⟩ := Lexer.exists_moves_afterCalls k s'
    have hpassed := hmeets.passed
    rw [← hsame k (Nat.le_refl k)] at hpassed
    exact ⟨given, taken, _, hm, (hquiet.ahead_of_moves hm).symm.trans hahead, hpassed⟩
  · rw [Lexer.afterCalls_of_ended hover.ended hm, Lexer.afterCalls_of_ended hover.ended' hm]
    refine ⟨hover, ?_, ?_⟩
    · rw [Lexer.nextToken_of_not_hasMore hover.ended]
    · rw [Lexer.nextToken_of_not_hasMore hover.ended']

theorem raise_or_end_in_identifier :
    let f := Failure.system ⟨.timedOut, .bare "gone"⟩
    let supply := Supply.text { readings := [.piece ['1', '+'], .piece ['a'], .failure f] }
    let s := Lexer.ofSupply supply "a.rpal" { readErrors := .raise }
    let s' := Lexer.ofSupply supply "a.rpal" { readErrors := .endOfInput }
    (∃ k ≤ 3, ∃ line, (s.afterCalls k).nextToken.result =
      .error (.scan (.unreadable "a.rpal" f (some line)))) ∧
    Lexer.LosesAtMostOne "a.rpal" f (s.harvest false none) (s'.harvest false none) := by
  intro f supply s s'
  have hp : [] ∉ [['1', '+'], ['a']] := by decide
  have hs : supply.Hands (some f) ['1', '+', 'a'] :=
    (Supply.parts_text hp f [] { readings := [] }).fails
  obtain ⟨⟨k, hk, -, -, hraised, -⟩, htokens⟩ := raise_or_end hs rfl rfl "a.rpal" {}
  exact ⟨⟨k, hk, hraised⟩, htokens false⟩

end RpalLexer
