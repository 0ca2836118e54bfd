import RpalLexer.Proofs.QuietInput

/-!
# Tokens of a text

The lexer that starts on a text finds the tokens that the policies make of the text's segments, or
the first error among them. Main statement: `tokenize_eq_tokens_all`.
-/
namespace RpalLexer

def kept (skipDeleted : Bool) (ts : List Token) : List Token :=
  ts.filter fun t => !(skipDeleted && t.isDeleted)

theorem kept_false (ts : List Token) : kept false ts = ts := by simp [kept]

theorem kept_append (skip : Bool) (ts us : List Token) :
    kept skip (ts ++ us) = kept skip ts ++ kept skip us := by simp [kept]

variable {o : Options} {filename : String} {skip : Bool} {line : Int} {c : Char} {cs : List Char}

/-- What a consumer who goes through all the tokens of a text is given. -/
def textTokens (o : Options) (filename : String) (skip : Bool) (line : Int) (text : List Char) :
    Except Fault (List Token) :=
  ((Segment.tokens o filename line (Segment.all text)).mapError .scan).map (kept skip)

theorem textTokens_nil (o : Options) (filename : String) (skip : Bool) (line : Int) :
    textTokens o filename skip line [] = .ok [] := by
  rw [textTokens, Segment.all]
  rfl

theorem textTokens_of_error {e : ScanError}
    (h : (Segment.first c cs).outcome o filename line = .error e) :
    textTokens o filename skip line (c :: cs) = .error (.scan e) := by
  rw [textTokens, Segment.all, Segment.tokens, h]
  rfl

theorem textTokens_of_ok {t : Option Token}
    (h : (Segment.first c cs).outcome o filename line = .ok t) :
    textTokens o filename skip line (c :: cs) =
      (textTokens o filename skip (line + Segment.newlines (Segment.first c cs).source)
        (Segment.first c cs).rest).map (kept skip t.toList ++ ·) := by
  rw [textTokens, Segment.all, Segment.tokens, h, textTokens]
  cases Segment.tokens o filename (line + Segment.newlines (Segment.first c cs).source)
      (Segment.all (Segment.first c cs).rest) with
  | error e => rfl
  | ok ts =>
    simp only [Except.mapError, Except.map, kept_append]

namespace Lexer

variable {s s' : Lexer}

theorem nextKept_of_not_hasMore (hm : s.hasMore = false) :
    s.nextKept skip = ⟨.ok none, s⟩ := by
  rw [nextKept]
  simp [hm]

theorem harvest_of_not_hasMore (hm : s.hasMore = false) :
    s.harvest skip none = ⟨[], none, s⟩ := by
  rw [harvest, nextKept_of_not_hasMore hm]
  simp

theorem harvest_of_error {e : Fault} (hm : s.hasMore = true) (h : s.nextToken = ⟨.error e, s'⟩) :
    s.harvest skip none = ⟨[], some e, s'⟩ := by
  have hk : s.nextKept skip = ⟨.error e, s'⟩ := by
    rw [nextKept, h]
    simp [hm]
  rw [harvest, hk]
  simp

theorem nextKept_of_none (hm : s.hasMore = true) (h : s.nextToken = ⟨.ok none, s'⟩) :
    s.nextKept skip = s'.nextKept skip := by
  rw [nextKept, h]
  simp [hm]

theorem nextKept_of_some {t : Token} (hm : s.hasMore = true) (h : s.nextToken = ⟨.ok t, s'⟩) :
    s.nextKept skip =
      if skip && t.isDeleted then s'.nextKept skip else ⟨.ok (some t), s'⟩ := by
  rw [nextKept, h]
  simp [hm]

theorem harvest_of_nextKept (h : s.nextKept skip = s'.nextKept skip) :
    s.harvest skip none = s'.harvest skip none := by
  rw [harvest, harvest, h]
  simp

theorem harvest_of_ok {t : Option Token} (hm : s.hasMore = true) (h : s.nextToken = ⟨.ok t, s'⟩) :
    s.harvest skip none =
      { s'.harvest skip none with
        tokens := kept skip t.toList ++ (s'.harvest skip none).tokens } := by
  cases t with
  | none =>
    rw [harvest_of_nextKept (nextKept_of_none hm h)]
    rfl
  | some t =>
    have hk : s.nextKept skip =
        if skip && t.isDeleted then s'.nextKept skip else ⟨.ok (some t), s'⟩ :=
      nextKept_of_some hm h
    by_cases hd : (skip && t.isDeleted) = true
    · rw [if_pos hd] at hk
      rw [harvest_of_nextKept hk]
      simp only [kept, Option.toList_some, List.filter_cons, hd]
      rfl
    · rw [if_neg hd] at hk
      rw [harvest, hk]
      simp only [kept, Option.toList_some, List.filter_cons, hd]
      rfl

theorem Harvest.result_append (h : Harvest) (ts : List Token) :
    ({ h with tokens := ts ++ h.tokens } : Harvest).toStep.result =
      h.toStep.result.map (ts ++ ·) := by
  simp only [Harvest.toStep]
  cases h.fault <;> rfl

theorem result_harvest (hq : s.Quiet) :
    (s.harvest skip none).toStep.result =
      textTokens s.options s.filename skip s.line s.ahead ∧
    (s.harvest skip none).lexer.Quiet := by
  induction ha : s.ahead using Segment.all.induct generalizing s with
  | case1 =>
    rw [textTokens_nil]
    -- The end may not have been seen yet; then one more call sees it.
    by_cases hm : s.hasMore = true
    · obtain ⟨s', hn, hm', hp⟩ := nextToken_of_ahead_nil hq ha
      rw [harvest_of_ok hm hn, harvest_of_not_hasMore hm']
      exact ⟨rfl, hp.quiet⟩
    · rw [harvest_of_not_hasMore (by simpa using hm)]
      exact ⟨rfl, hq⟩
  | case2 c cs ih =>
    have hm := hasMore_of_ahead ha
    obtain ⟨s', hn, hp, -⟩ := nextToken_of_ahead hq ha
    cases ho : (Segment.first c cs).outcome s.options s.filename s.line with
    | error e =>
      rw [ho] at hn
      rw [harvest_of_error hm hn, textTokens_of_error ho]
      exact ⟨rfl, hp.quiet⟩
    | ok t =>
      rw [ho] at hn
      obtain ⟨hih, hq'⟩ := ih hp.quiet hp.ahead
      rw [hp.setting.options, hp.setting.filename, hp.line] at hih
      rw [harvest_of_ok hm hn, Harvest.result_append, hih, textTokens_of_ok ho]
      exact ⟨rfl, hq'⟩

theorem result_tokensAndClose (skip : Bool) (hq : s.Quiet) :
    (s.tokensAndClose skip).result = textTokens s.options s.filename skip s.line s.ahead := by
  have hh : (s.harvest skip none).toStep.result = _ ∧ _ := result_harvest hq
  have hl : (s.harvest skip none).toStep.state = (s.harvest skip none).lexer := by
    unfold Harvest.toStep
    split <;> rfl
  have hc : (s.harvest skip none).lexer.close.result = .ok () := by
    simp [close, Reader.shut, hh.2.close_ok]
    rfl
  rw [← hh.1, tokensAndClose, Step.thenAlways, hl]
  cases hcl : (s.harvest skip none).lexer.close with
  | mk result s' =>
    rw [hcl] at hc
    cases hc
    rfl

end Lexer

theorem tokenize_eq_textTokens (text filename : String) (o : Options) (skip : Bool) :
    tokenize text filename o skip = textTokens o filename skip 1 text.toList := by
  rw [tokenize, Lexer.result_tokensAndClose skip (Lexer.quiet_ofString text filename o),
    Lexer.ahead_ofString]
  rfl

/-- The lexer refines the search for segments in the whole text. -/
theorem tokenize_eq_tokens_all (text filename : String) (o : Options) (skip : Bool) :
    tokenize text filename o skip =
      ((Segment.tokens o filename 1 (Segment.all text.toList)).mapError .scan).map (kept skip) :=
  tokenize_eq_textTokens text filename o skip

end RpalLexer
