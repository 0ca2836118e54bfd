import RpalLexer.Proofs.CallSequence
import RpalLexer.Proofs.Simulation

/-!
# Stricter options

Options that report more of the malformed input leave a lexer in the same state after every call.
They change an answer only where a call under the other options passes over what they report. Main
statement: `stricter_lockstep`.
-/
namespace RpalLexer

/-- `o'` reports the malformed input that `o` reports, and perhaps more. -/
structure Options.Stricter (o o' : Options) : Prop where
  strings : o'.strings = o.strings ∨ o.strings = .discard ∧ o'.strings = .raise
  chars : o'.chars = o.chars ∨ o.chars = .drop ∧ o'.chars = .raise
  readErrors : o'.readErrors = o.readErrors
  encoding : o'.encoding = o.encoding

namespace Lexer

variable {s s' s₁ : Lexer} {o o' : Options} {e : ScanError} {used given source : List Char}
  {content : Content} {skip : Bool}

/-- The next call gives no token for input that `o` reports with the error: one character outside
the alphabet, or an opening quote and all that comes after it. -/
inductive Conceals (s : Lexer) (o : Options) : ScanError → Prop
  | unknown {given : List Char} {c : Char} (hn : s.nextToken.result = .ok none)
      (hm : s.Moves given [c] s.nextToken.state) (hc : classify c = .other)
      (ho : o.chars = .raise) : Conceals s o (.invalidCharacter c (some ⟨s.filename, s.line⟩))
  | cutOff {given body : List Char} (hn : s.nextToken.result = .ok none)
      (hm : s.Moves given (quoteMark :: body) s.nextToken.state)
      (he : s.nextToken.state.hasMore = false) (ho : o.strings = .raise) :
      Conceals s o (.unterminatedString (some ⟨s.filename, s.line⟩)
        (some (String.ofList (quoteMark :: body.take 40))))

theorem Conceals.result_eq (h : s.Conceals o e) : s.nextToken.result = .ok none := by
  cases h with
  | unknown hn => exact hn
  | cutOff hn => exact hn

theorem Conceals.used_ne_nil (h : s.Conceals o e) (hm : s.Moves given used s.nextToken.state) :
    used ≠ [] := by
  cases h with
  | unknown hn hm' =>
    rw [(hm.unique hm').2]
    exact List.cons_ne_nil _ _
  | cutOff hn hm' =>
    rw [(hm.unique hm').2]
    exact List.cons_ne_nil _ _

theorem Conceals.chars_eq {c : Char} (h : s.Conceals o e)
    (hm : s.Moves given [c] s.nextToken.state) (hc : classify c = .other) : o.chars = .raise := by
  cases h with
  | unknown hn hm' hc' ho => exact ho
  | cutOff hn hm' =>
    have hq := (List.cons.inj (hm.unique hm').2).1
    subst hq
    exact absurd hc (by decide)

theorem Conceals.strings_eq {body : List Char} (h : s.Conceals o e)
    (hm : s.Moves given (quoteMark :: body) s.nextToken.state) : o.strings = .raise := by
  cases h with
  | unknown hn hm' hc =>
    have hq := (List.cons.inj (hm.unique hm').2).1
    subst hq
    exact absurd hc (by decide)
  | cutOff hn hm' he ho => exact ho

structure Tightened (s s' : Lexer) : Prop extends Beside Reader.Alike s s' where
  stricter : s.options.Stricter s'.options

theorem Tightened.hasMore_eq (h : s.Tightened s') : s'.hasMore = s.hasMore :=
  h.toBeside.hasMore Reader.bisimulation_alike

/-- What the stricter of two lexers answers: the same, or an error in place of what the other
passes over. -/
def Agrees (s s' : Lexer) : Prop :=
  (∃ e, s.Conceals s'.options e ∧ s'.nextToken.result = .error (.scan e)) ∨
    (∀ e, ¬s.Conceals s'.options e) ∧ s'.nextToken.result = s.nextToken.result

theorem agrees_of_result_ne (hn : s.nextToken.result ≠ .ok none)
    (hr : s'.nextToken.result = s.nextToken.result) : s.Agrees s' :=
  Or.inr ⟨fun _ hc => hn hc.result_eq, hr⟩

theorem Tightened.call_of_atNoChar (h : s.Tightened s') (hn : s.AtNoChar) :
    s.Agrees s' ∧ s.nextToken.state.Beside Reader.Alike s'.nextToken.state := by
  cases hp : s.peek with
  | mk result s₁ =>
    obtain ⟨s₁', hp', h₁⟩ := (h.toBeside.peek Reader.bisimulation_alike).exists_eq hp
    match result with
    | .ok (some c) => exact absurd (by rw [hp]) (hn c)
    | .ok none =>
      have hnt := nextToken_of_peek_none hp
      have hnt' := nextToken_of_peek_none hp'
      obtain ⟨given, hm⟩ := moves_of_peek_ok hp
      rw [← show s.nextToken.state = s₁ by rw [hnt]] at hm
      refine ⟨Or.inr ⟨fun e hc => hc.used_ne_nil hm rfl, by rw [hnt, hnt']⟩, ?_⟩
      rw [hnt, hnt']
      exact h₁
    | .error e =>
      have hnt := nextToken_of_peek_error hp
      have hnt' := nextToken_of_peek_error hp'
      refine ⟨agrees_of_result_ne (by simp [hnt]) (by rw [hnt, hnt']), ?_⟩
      rw [hnt, hnt']
      exact h₁

theorem Beside.answer_state {t t' : Lexer} (h : t.Beside Reader.Alike t') (line : Int)
    (content : Content) :
    (t.answer line content).state.Beside Reader.Alike (t'.answer line content).state := by
  obtain ⟨r, hr, hs⟩ := alike_answer t line content
  obtain ⟨r', hr', hs'⟩ := alike_answer t' line content
  rw [hs, hs']
  exact ⟨(hr.symm.trans h.reader).trans hr', h.slot, h.line⟩

theorem Tightened.agrees_of_outcome {rest : List Char} (h : s.Tightened s')
    (hc : Segment.Cut content source rest) (hm : s.Moves given source s.nextToken.state)
    (he : rest = [] → Segment.isOpen source content = true → s.nextToken.state.hasMore = false)
    (hr : s.nextToken.result =
      ((⟨content, source, rest⟩ : Segment).outcome s.options s.filename s.line).mapError .scan)
    (hr' : s'.nextToken.result =
      ((⟨content, source, rest⟩ : Segment).outcome s'.options s.filename s.line).mapError .scan) :
    s.Agrees s' := by
  cases content with
  | lexeme kind text =>
    exact agrees_of_result_ne (by simp [hr, Segment.outcome, Except.mapError]) (hr'.trans hr.symm)
  | unknown c =>
    cases hc with
    | unknown hcl =>
      rcases h.stricter.chars with heq | ⟨hd, hraise⟩
      · refine Or.inr ⟨fun e hcon => ?_, by simp only [hr, hr', Segment.outcome, heq]⟩
        have hraise := hcon.chars_eq hm hcl
        have hnone := hcon.result_eq
        simp [hr, Segment.outcome, ← heq, hraise, Except.mapError] at hnone
      · refine Or.inl ⟨_, .unknown ?_ hm hcl hraise, ?_⟩
        · simp only [hr, Segment.outcome, hd, Except.mapError]
        · simp only [hr', Segment.outcome, hraise, Except.mapError]
  | cutOff body =>
    cases hc with
    | cutOff hb =>
      rcases h.stricter.strings with heq | ⟨hd, hraise⟩
      · refine Or.inr ⟨fun e hcon => ?_, by simp only [hr, hr', Segment.outcome, heq]⟩
        have hraise := hcon.strings_eq hm
        have hnone := hcon.result_eq
        simp [hr, Segment.outcome, ← heq, hraise, Except.mapError] at hnone
      · refine Or.inl ⟨_, .cutOff ?_ hm (he rfl rfl) hraise, ?_⟩
        · simp only [hr, Segment.outcome, hd, Except.mapError]
        · simp only [hr', Segment.outcome, hraise, Except.mapError]
          rfl

theorem Tightened.call_of_cuts {s₁' : Lexer} (h : s.Tightened s') (hc : s.Cuts content source s₁)
    (hc' : s'.Cuts content source s₁') (h₁ : s₁.Beside Reader.Alike s₁') :
    s.Agrees s' ∧ s.nextToken.state.Beside Reader.Alike s'.nextToken.state := by
  have hn := hc.nextToken_eq
  have hn' := hc'.nextToken_eq
  rw [h.line] at hn'
  obtain ⟨rest, hrest⟩ := exists_admits s₁
  rcases h₁.conclude_cases Reader.bisimulation_alike s.line source content with
    ⟨t, t', ht, ht', hb, hs, hs', he⟩ | ⟨e, t, t', ht, ht', hb, -, -⟩
  · rw [ht] at hn
    rw [ht'] at hn'
    obtain ⟨given, hm⟩ := hc.moves
    have hset := hc.sameSetting.trans hs
    have hset' := hc'.sameSetting.trans hs'
    refine ⟨h.agrees_of_outcome (hc.cut rest hrest) hm (fun hnil ho => ?_) ?_ ?_, ?_⟩
    · subst hnil
      rw [hn, (alike_answer t s.line content).hasMore_eq]
      exact he ho (atNoChar_of_admits_nil hrest)
    · rw [hn, result_answer t s.line ⟨content, source, rest⟩, hset.outcome_eq]
    · rw [hn', result_answer t' s.line ⟨content, source, rest⟩, hset'.outcome_eq,
        h.toBeside.filename Reader.bisimulation_alike]
    · rw [hn, hn']
      exact hb.answer_state s.line content
  · rw [ht] at hn
    rw [ht'] at hn'
    refine ⟨agrees_of_result_ne (by simp [hn]) (by rw [hn, hn']), ?_⟩
    rw [hn, hn']
    exact hb

theorem Tightened.call (h : s.Tightened s') :
    s.Agrees s' ∧ s.nextToken.state.Tightened s'.nextToken.state := by
  have hb : s.Agrees s' ∧ s.nextToken.state.Beside Reader.Alike s'.nextToken.state := by
    rcases h.toBeside.call Reader.bisimulation_alike.together with
      ⟨content, source, s₁, s₁', hc, hc', h₁⟩ | ⟨hn, -⟩
    · exact h.call_of_cuts hc hc' h₁
    · exact h.call_of_atNoChar hn
  refine ⟨hb.1, hb.2, ?_⟩
  rw [(sameSetting_nextToken s).options, (sameSetting_nextToken s').options]
  exact h.stricter

theorem Tightened.afterCalls (h : s.Tightened s') (n : Nat) :
    (s.afterCalls n).Tightened (s'.afterCalls n) := by
  induction n generalizing s s' with
  | zero => exact h
  | succ n ih => exact ih h.call.2

/-- The first `n` calls all answer and conceal nothing that `o` reports. -/
def Clean (s : Lexer) (o : Options) (n : Nat) : Prop :=
  ∀ m < n, (∃ t, (s.afterCalls m).nextToken.result = .ok t) ∧ ∀ e, ¬(s.afterCalls m).Conceals o e

theorem clean_succ_iff {n : Nat} : s.Clean o (n + 1) ↔
    ((∃ t, s.nextToken.result = .ok t) ∧ ∀ e, ¬s.Conceals o e) ∧ s.nextToken.state.Clean o n := by
  constructor
  · intro h
    exact ⟨h 0 (Nat.zero_lt_succ n), fun m hm => h (m + 1) (Nat.succ_lt_succ hm)⟩
  · rintro ⟨h₀, h⟩ m hm
    cases m with
    | zero => exact h₀
    | succ m => exact h m (Nat.lt_of_succ_lt_succ hm)

theorem Conceals.unique {e' : ScanError} (h : s.Conceals o e) (h' : s.Conceals o e') : e = e' := by
  cases h with
  | @unknown _ c hn hm hc ho =>
    cases h' with
    | unknown hn' hm' =>
      rw [(List.cons.inj (hm.unique hm').2).1]
    | cutOff hn' hm' =>
      have hq := (List.cons.inj (hm.unique hm').2).1
      subst hq
      exact absurd hc (by decide)
  | cutOff hn hm he ho =>
    cases h' with
    | unknown hn' hm' hc' =>
      have hq := (List.cons.inj (hm'.unique hm).2).1
      subst hq
      exact absurd hc' (by decide)
    | cutOff hn' hm' =>
      rw [(List.cons.inj (hm.unique hm').2).2]

theorem Agrees.result_of_conceals (h : s.Agrees s') (hc : s.Conceals s'.options e) :
    s'.nextToken.result = .error (.scan e) := by
  rcases h with ⟨e', hc', hr⟩ | ⟨hn, -⟩
  · rw [hc.unique hc', hr]
  · exact absurd hc (hn e)

theorem Agrees.result_eq (h : s.Agrees s') (hn : ∀ e, ¬s.Conceals s'.options e) :
    s'.nextToken.result = s.nextToken.result := by
  rcases h with ⟨e, hc, -⟩ | ⟨-, hr⟩
  · exact absurd hc (hn e)
  · exact hr

theorem Tightened.agrees_afterCalls (h : s.Tightened s') (n : Nat) :
    (s.afterCalls n).Agrees (s'.afterCalls n) := (h.afterCalls n).call.1

theorem Tightened.ok_of_clean {n : Nat} (h : s.Tightened s') (hc : s.Clean s'.options n) :
    ∀ m < n, ∃ t, (s'.afterCalls m).nextToken.result = .ok t := by
  intro m hm
  obtain ⟨⟨t, ht⟩, hn⟩ := hc m hm
  rw [← (sameSetting_afterCalls m s').options] at hn
  exact ⟨t, by rw [(h.agrees_afterCalls m).result_eq hn, ht]⟩

theorem Tightened.gathered_of_conceals {n : Nat} (h : s.Tightened s') (hc : s.Clean s'.options n)
    (he : (s.afterCalls n).Conceals s'.options e) : s'.gathered skip = .error (.scan e) := by
  rw [← (sameSetting_afterCalls n s').options] at he
  exact gathered_of_error_at (h.ok_of_clean hc) ((h.agrees_afterCalls n).result_of_conceals he)

theorem Tightened.gathered_of_error {n : Nat} {f : Fault} (h : s.Tightened s')
    (hc : s.Clean s'.options n) (he : (s.afterCalls n).nextToken.result = .error f) :
    s.gathered skip = .error f ∧ s'.gathered skip = .error f := by
  refine ⟨gathered_of_error_at (fun m hm => (hc m hm).1) he, ?_⟩
  refine gathered_of_error_at (h.ok_of_clean hc) ?_
  rw [(h.agrees_afterCalls n).result_eq (fun e hce => ?_), he]
  have hr := hce.result_eq
  rw [he] at hr
  cases hr

theorem Tightened.gathered_eq (skip : Bool) (h : s.Tightened s') (hc : ∀ n, s.Clean s'.options n) :
    ∃ ts, s.gathered skip = .ok ts ∧ s'.gathered skip = .ok ts := by
  induction hw : s.weight using Nat.strong_induction_on generalizing s s' with
  | _ w ih =>
    by_cases hm : s.hasMore = true
    · obtain ⟨⟨t, ht⟩, hn⟩ := (clean_succ_iff.1 (hc 1)).1
      have ht' : s'.nextToken.result = .ok t := by rw [h.call.1.result_eq hn, ht]
      have hlt : s.nextToken.state.weight < w := by
        rw [← hw]
        exact weight_nextToken_lt hm (Step.eq_of_result ht)
      have hclean : ∀ n, s.nextToken.state.Clean s'.nextToken.state.options n := by
        intro n
        rw [(sameSetting_nextToken s').options]
        exact (clean_succ_iff.1 (hc (n + 1))).2
      obtain ⟨ts, hts, hts'⟩ := ih _ hlt h.call.2 hclean rfl
      rw [gathered_of_ok hm ht, gathered_of_ok (h.hasMore_eq.trans hm) ht', hts, hts']
      exact ⟨_, rfl, rfl⟩
    · have hm : s.hasMore = false := by simpa using hm
      exact ⟨[], gathered_of_not_hasMore hm, gathered_of_not_hasMore (h.hasMore_eq.trans hm)⟩

theorem Tightened.gathered_ok_iff (h : s.Tightened s') :
    (∃ ts, s'.gathered skip = .ok ts) ↔ ∀ n, s.Clean s'.options n := by
  constructor
  · rintro ⟨ts, hts⟩ n
    induction n with
    | zero => exact fun m hm => absurd hm (Nat.not_lt_zero m)
    | succ n ih =>
      intro m hm
      rcases Nat.lt_succ_iff_lt_or_eq.1 hm with hlt | rfl
      · exact ih m hlt
      · refine ⟨?_, fun e he => ?_⟩
        · cases hr : (s.afterCalls m).nextToken.result with
          | ok t => exact ⟨t, rfl⟩
          | error f =>
            rw [(h.gathered_of_error ih hr).2] at hts
            cases hts
        · rw [h.gathered_of_conceals ih he] at hts
          cases hts
  · intro hc
    obtain ⟨ts, -, hts⟩ := h.gathered_eq skip hc
    exact ⟨ts, hts⟩

theorem tightened_start (reader : Reader) (h : o.Stricter o') :
    Tightened { reader, options := o } { reader, options := o' } where
  reader := .refl reader
  slot := rfl
  line := rfl
  stricter := h

theorem tightened_ofString (text filename : String) (h : o.Stricter o') :
    (ofString text filename o).Tightened (ofString text filename o') := by
  unfold ofString ofTextStream
  rw [h.readErrors]
  exact tightened_start _ h

end Lexer

/-- Over any reader, calls under stricter options leave the lexer in the same state, so that a user
who goes on after an error misses nothing, and their answers differ only where a call passes over
what the stricter options report. Over a text the stricter options give tokens, and then the same
ones, if and only if no call fails or passes over such input; otherwise they give the error for the
first such input. -/
theorem stricter_lockstep {o o' : Options} (h : o.Stricter o') :
    (∀ (reader : Reader) (n : Nat),
      let s := Lexer.afterCalls n { reader, options := o }
      let s' := Lexer.afterCalls n { reader, options := o' }
      s'.line = s.line ∧ s'.slot = s.slot ∧ s'.hasMore = s.hasMore ∧ s.reader.Alike s'.reader ∧
        ((∃ e, s.Conceals o' e ∧ s'.nextToken.result = .error (.scan e)) ∨
          (∀ e, ¬s.Conceals o' e) ∧ s'.nextToken.result = s.nextToken.result)) ∧
    ∀ (text filename : String) (skip : Bool),
      let s := Lexer.ofString text filename o
      ((∃ ts, tokenize text filename o' skip = .ok ts) ↔ ∀ n, s.Clean o' n) ∧
      ((∀ n, s.Clean o' n) → tokenize text filename o' skip = tokenize text filename o skip) ∧
      (∀ n e, s.Clean o' n → (s.afterCalls n).Conceals o' e →
        tokenize text filename o' skip = .error (.scan e)) ∧
      ∀ n e, s.Clean o' n → (s.afterCalls n).nextToken.result = .error e →
        tokenize text filename o skip = .error e ∧ tokenize text filename o' skip = .error e := by
  refine ⟨fun reader n => ?_, fun text filename skip => ?_⟩
  · have ht := (Lexer.tightened_start reader h).afterCalls n
    have ha := ht.call.1
    have ho : (Lexer.afterCalls n { reader, options := o' }).options = o' :=
      (Lexer.sameSetting_afterCalls n _).options
    rw [Lexer.Agrees, ho] at ha
    exact ⟨ht.line, ht.slot, ht.hasMore_eq, ht.reader, ha⟩
  · have ht := Lexer.tightened_ofString text filename h
    simp only [Lexer.tokenize_eq_gathered]
    refine ⟨ht.gathered_ok_iff, fun hc => ?_, fun n e => ht.gathered_of_conceals,
      fun n e => ht.gathered_of_error⟩
    obtain ⟨ts, hts, hts'⟩ := ht.gathered_eq skip hc
    rw [hts, hts']

theorem strict_stricter : Options.Stricter {} .strict :=
  ⟨Or.inr ⟨rfl, rfl⟩, Or.inr ⟨rfl, rfl⟩, rfl, rfl⟩

theorem default_not_clean : Options.Stricter {} .strict ∧
    ¬∀ n, (Lexer.ofString "'a" unnamedSource {}).Clean .strict n := by
  refine ⟨strict_stricter, fun hc => ?_⟩
  have hiff := ((stricter_lockstep strict_stricter).2 "'a" unnamedSource false).1
  obtain ⟨ts, hts⟩ := hiff.2 hc
  have he : tokenize "'a" unnamedSource .strict false =
      .error (.scan (.unterminatedString (some ⟨unnamedSource, 1⟩) (some "'a"))) := by
    decide +kernel
  rw [he] at hts
  cases hts

end RpalLexer
