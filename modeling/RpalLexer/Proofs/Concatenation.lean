import RpalLexer.Proofs.Conservation
import RpalLexer.Proofs.Tokenization

/-!
# Texts one after the other

How a text is cut into segments does not depend on what is behind it, up to the last segment. That
one stays as it is if it shows its end itself or the text behind does not go on with it. Main
statements: `Segment.prefix_calls_append`, `tokenize_append` and `concatenation`.
-/
namespace RpalLexer

/-- What the call used up stays as it is when the text `s` stands behind it. -/
inductive Call.ClosedBefore (s : List Char) : Call → Prop
  | ended {c : Call} (h : c.EndsItself) : ClosedBefore s c
  | run {t : Token} {consumed : List Char} (hc : ¬t.IsComment) (hs : ∀ d ∈ s.head?, ¬t.GoesOn d) :
      ClosedBefore s ⟨consumed, .ok (some t)⟩

def Token.movedDown (n : Nat) (t : Token) : Token := { t with line := t.line + n }

theorem kept_map_movedDown (skip : Bool) (n : Nat) (ts : List Token) :
    kept skip (ts.map (Token.movedDown n)) = (kept skip ts).map (Token.movedDown n) := by
  rw [kept, kept, List.filter_map]
  rfl

namespace Segment

variable {o : Options} {filename : String} {line : Int} {content : Content}
  {source rest s : List Char} {c : Char} {cs : List Char}

theorem Cut.of_head? {rest' : List Char} (h : Cut content source rest)
    (hr : rest'.head? = rest.head?) : Cut content source rest' := by
  cases h with
  | identifier hc hcs hs => exact .identifier hc hcs (by rwa [Stops, hr])
  | integer hc hcs hs => exact .integer hc hcs (by rwa [Stops, hr])
  | operator hc hcs hn hs => exact .operator hc hcs hn (by rwa [Stops, hr])
  | space hc hcs hs => exact .space hc hcs (by rwa [Stops, hr])
  | comment hcs => exact .comment hcs
  | lastComment hcs =>
    rw [List.head?_eq_none_iff.1 hr]
    exact .lastComment hcs
  | string hb => exact .string hb
  | punctuation hc => exact .punctuation hc
  | unknown hc => exact .unknown hc
  | cutOff hb =>
    rw [List.head?_eq_none_iff.1 hr]
    exact .cutOff hb

theorem Cut.of_not_isOpen (h : Cut content source rest) (ho : isOpen source content = false)
    (rest' : List Char) : Cut content source rest' := by
  cases h with
  | identifier => cases ho
  | integer => cases ho
  | operator => cases ho
  | space => simp [isOpen] at ho
  | comment hcs => exact .comment hcs
  | lastComment => simp [isOpen] at ho
  | string hb => exact .string hb
  | punctuation hc => exact .punctuation hc
  | unknown hc => exact .unknown hc
  | cutOff => cases ho

theorem Cut.of_closedBefore (h : Cut content source [])
    (hs : Call.ClosedBefore s
      ⟨source, ((⟨content, source, []⟩ : Segment).outcome o filename line).mapError .scan⟩) :
    Cut content source s := by
  generalize hr : ((⟨content, source, []⟩ : Segment).outcome o filename line).mapError
    Fault.scan = result at hs
  cases hs with
  | ended he =>
    rw [← hr] at he
    exact h.of_not_isOpen (isOpen_of_endsItself h he) s
  | @run t _ hc hs =>
    cases content with
    | unknown c => exact h.of_not_isOpen rfl s
    | cutOff body =>
      simp only [outcome] at hr
      split at hr <;> cases hr
    | lexeme kind text =>
      have ht : (⟨kind, String.ofList text, line, filename⟩ : Token) = t :=
        Option.some.inj (Except.ok.inj hr)
      have hk : t.kind = kind := by rw [← ht]
      have htext : t.text.toList = text := by
        rw [← ht]
        exact String.toList_ofList
      rw [← hk, ← htext] at h ⊢
      rcases t.source_of_cut h with hsource | ⟨hcom, -⟩
      · rw [hsource]
        exact Token.cut_source_iff.2 ⟨(Token.wellFormed_of_cut h).1, hs⟩
      · exact absurd hcom hc

theorem Cut.first_append (h : Cut content source (rest ++ s)) (hs : source ++ rest = c :: cs) :
    first c (cs ++ s) = ⟨content, source, rest ++ s⟩ := by
  apply h.first_eq
  rw [← List.append_assoc, hs, List.cons_append]

theorem cut_append (c : Char) (cs s : List Char)
    (h : (first c cs).rest = [] → Call.ClosedBefore s
      ⟨(first c cs).source, ((first c cs).outcome o filename line).mapError .scan⟩) :
    Cut (first c cs).content (first c cs).source ((first c cs).rest ++ s) := by
  have hcut := cut_first c cs
  by_cases hr : (first c cs).rest = []
  · rw [hr] at hcut ⊢
    exact hcut.of_closedBefore (h hr)
  · -- What stands behind the segment starts with the same character as before.
    apply hcut.of_head?
    obtain ⟨d, ds, hd⟩ := List.exists_cons_of_ne_nil hr
    rw [hd]
    rfl

def calls (o : Options) (filename : String) : Int → List Segment → List Call
  | _, [] => []
  | line, g :: segments => ⟨g.source, (g.outcome o filename line).mapError .scan⟩ ::
      calls o filename (line + newlines g.source) segments

theorem consumed_calls (o : Options) (filename : String) (line : Int) (segments : List Segment) :
    (calls o filename line segments).flatMap Call.consumed = segments.flatMap Segment.source := by
  induction segments generalizing line with
  | nil => rfl
  | cons g segments ih => rw [calls, List.flatMap_cons, List.flatMap_cons, ih]

theorem consumed_ne_nil {p : List Char} {call : Call} (h : call ∈ calls o filename line (all p)) :
    call.consumed ≠ [] := by
  induction p using all.induct generalizing line with
  | case1 =>
    rw [all] at h
    cases h
  | case2 c cs ih =>
    rw [all, calls] at h
    rcases List.mem_cons.1 h with rfl | h
    · exact (cut_first c cs).source_ne_nil
    · exact ih h

theorem all_append (h : Cut (first c cs).content (first c cs).source ((first c cs).rest ++ s)) :
    all (c :: cs ++ s) =
      ⟨(first c cs).content, (first c cs).source, (first c cs).rest ++ s⟩ ::
        all ((first c cs).rest ++ s) := by
  rw [List.cons_append, all, h.first_append (source_append_rest c cs)]

theorem prefix_calls_append {p : List Char} {front : List Call}
    (hf : front <+: calls o filename line (all p))
    (hlt : (front.flatMap Call.consumed).length < p.length) (s : List Char) :
    front <+: calls o filename line (all (p ++ s)) := by
  induction p using all.induct generalizing line front with
  | case1 => cases hlt
  | case2 c cs ih =>
    cases front with
    | nil => exact List.nil_prefix
    | cons d front =>
      rw [all, calls, List.cons_prefix_cons] at hf
      obtain ⟨rfl, hf⟩ := hf
      have hlen := congrArg List.length (source_append_rest c cs)
      rw [List.length_append] at hlen
      rw [List.flatMap_cons, List.length_append] at hlt
      have hlt : (front.flatMap Call.consumed).length < (first c cs).rest.length := by
        change (first c cs).source.length + _ < _ at hlt
        omega
      have hr : (first c cs).rest ≠ [] := by
        intro hr
        simp [hr] at hlt
      have hcut := @cut_append o filename line c cs s fun hr' => absurd hr' hr
      rw [all_append hcut, calls, List.cons_prefix_cons]
      exact ⟨rfl, ih hf hlt⟩

end Segment

namespace Lexer

variable {s : Lexer} {calls : List Call}

theorem Calls.eq_calls (hq : s.Quiet) (h : s.Calls calls) :
    ∃ last, calls = Segment.calls s.options s.filename s.line (Segment.all s.ahead) ++ last ∧
      ∀ c ∈ last, c.consumed = [] := by
  induction ha : s.ahead using Segment.all.induct generalizing s calls with
  | case1 =>
    by_cases hm : s.hasMore = true
    · obtain ⟨s', hn, hm', hp⟩ := nextToken_of_ahead_nil hq ha
      obtain ⟨consumed, later, rfl, happ, hl⟩ := h.step hq hm hn
      rw [ha, hp.ahead, List.append_nil] at happ
      rw [hl.eq_nil hm', ← happ, Segment.all]
      exact ⟨_, rfl, by simp⟩
    · rw [h.eq_nil (by simpa using hm), Segment.all]
      exact ⟨[], rfl, by simp⟩
  | case2 c cs ih =>
    obtain ⟨s', hn, hp, -⟩ := nextToken_of_ahead hq ha
    obtain ⟨consumed, later, rfl, happ, hl⟩ := h.step hq (hasMore_of_ahead ha) hn
    have hs := Segment.source_append_rest c cs
    rw [← ha, happ, hp.ahead] at hs
    have hs := List.append_cancel_right hs
    obtain ⟨last, rfl, hlast⟩ := ih hp.quiet hl hp.ahead
    refine ⟨last, ?_, hlast⟩
    rw [hp.setting.options, hp.setting.filename, hp.line, ← hs, Segment.all, Segment.calls]
    rfl

theorem calls_ofString_eq {text filename : String} {o : Options}
    (h : (ofString text filename o).Calls calls) :
    ∃ last, calls = Segment.calls o filename 1 (Segment.all text.toList) ++ last ∧
      ∀ c ∈ last, c.consumed = [] := by
  have hl := h.eq_calls (quiet_ofString text filename o)
  rwa [ahead_ofString] at hl

theorem Calls.prefix_of_append {p s filename : String} {o : Options} {calls' front : List Call}
    (h : (ofString p filename o).Calls calls) (h' : (ofString (p ++ s) filename o).Calls calls')
    (hf : front <+: calls) (hlt : (front.flatMap Call.consumed).length < p.toList.length) :
    front <+: calls' := by
  obtain ⟨last, rfl, -⟩ := calls_ofString_eq h
  obtain ⟨last', rfl, -⟩ := calls_ofString_eq h'
  rw [String.toList_append]
  rcases List.prefix_or_prefix_of_prefix hf (List.prefix_append _ last) with hp | ⟨more, rfl⟩
  · exact (Segment.prefix_calls_append hp hlt s.toList).trans (List.prefix_append _ _)
  · -- The calls that cut off all the segments use up the whole text.
    rw [List.flatMap_append, Segment.consumed_calls, Segment.flatMap_source_all,
      List.length_append] at hlt
    omega

theorem Calls.closed_of_last {p filename : String} {o : Options} {s : List Char}
    (h : (ofString p filename o).Calls calls)
    (hclosed : ∀ front c back, calls = front ++ c :: back → c.consumed ≠ [] →
      (∀ c' ∈ back, c'.consumed = []) → c.ClosedBefore s) (front : List Call) (c : Call)
    (hc : Segment.calls o filename 1 (Segment.all p.toList) = front ++ [c]) :
    c.ClosedBefore s := by
  obtain ⟨last, hcalls, hlast⟩ := calls_ofString_eq h
  apply hclosed front c last
  · rw [hcalls, hc, List.append_assoc]
    rfl
  · apply Segment.consumed_ne_nil
    rw [hc]
    exact List.mem_append_right front List.mem_cons_self
  · exact hlast

end Lexer

section Lenient

variable {readErrors : ReadPolicy} {encoding filename : String} {skip : Bool} {line : Int}

theorem outcome_movedDown (readErrors : ReadPolicy) (encoding filename : String) (g : Segment)
    (line : Int) (n : Nat) : ∃ t, g.outcome { readErrors, encoding } filename line = .ok t ∧
      g.outcome { readErrors, encoding } filename (line + n) = .ok (t.map (Token.movedDown n)) := by
  rw [Segment.outcome, Segment.outcome]
  cases g.content with
  | lexeme kind text => exact ⟨_, rfl, rfl⟩
  | unknown c => exact ⟨none, rfl, rfl⟩
  | cutOff body => exact ⟨none, rfl, rfl⟩

theorem textTokens_movedDown (text : List Char) (n : Nat) :
    ∃ ts, textTokens { readErrors, encoding } filename skip line text = .ok ts ∧
      textTokens { readErrors, encoding } filename skip (line + n) text =
        .ok (ts.map (Token.movedDown n)) := by
  induction text using Segment.all.induct generalizing line with
  | case1 =>
    rw [textTokens_nil, textTokens_nil]
    exact ⟨[], rfl, rfl⟩
  | case2 c cs ih =>
    obtain ⟨t, ht, ht'⟩ :=
      outcome_movedDown readErrors encoding filename (Segment.first c cs) line n
    obtain ⟨ts, hts, hts'⟩ := @ih (line + Segment.newlines (Segment.first c cs).source)
    have ht'' : (t.map (Token.movedDown n)).toList = t.toList.map (Token.movedDown n) := by
      cases t <;> rfl
    rw [textTokens_of_ok ht, textTokens_of_ok ht', Int.add_right_comm, hts, hts', ht'',
      kept_map_movedDown]
    exact ⟨_, rfl, congrArg Except.ok List.map_append.symm⟩

theorem textTokens_append {p : List Char} (s : List Char)
    (hlast : ∀ front c, Segment.calls { readErrors, encoding } filename line (Segment.all p) =
      front ++ [c] → c.ClosedBefore s) :
    ∃ ts us, textTokens { readErrors, encoding } filename skip line p = .ok ts ∧
      textTokens { readErrors, encoding } filename skip (line + Segment.newlines p) s = .ok us ∧
      textTokens { readErrors, encoding } filename skip line (p ++ s) = .ok (ts ++ us) := by
  induction p using Segment.all.induct generalizing line with
  | case1 =>
    obtain ⟨us, hus, -⟩ := textTokens_movedDown s 0
    refine ⟨[], us, textTokens_nil _ _ _ _, ?_, hus⟩
    rw [← hus]
    exact congrArg (textTokens _ _ _ · s) (Int.add_zero line)
  | case2 c cs ih =>
    -- What stands behind can only change the segment that comes last.
    have hcut := Segment.cut_append c cs s fun hr => by
      apply hlast []
      rw [Segment.all, Segment.calls, hr, Segment.all]
      rfl
    obtain ⟨t, ht, -⟩ := outcome_movedDown readErrors encoding filename (Segment.first c cs) line 0
    have hfirst := hcut.first_append (Segment.source_append_rest c cs)
    have ht' : (Segment.first c (cs ++ s)).outcome { readErrors, encoding } filename line =
        .ok t := by
      rw [hfirst]
      exact ht
    obtain ⟨ts, us, hts, hus, happ⟩ :=
      @ih (line + Segment.newlines (Segment.first c cs).source) fun front d hd => by
        apply hlast (_ :: front)
        rw [Segment.all, Segment.calls, hd]
        rfl
    have hline : line + Segment.newlines (Segment.first c cs).source +
        Segment.newlines (Segment.first c cs).rest = line + Segment.newlines (c :: cs) := by
      rw [← Segment.source_append_rest c cs, Segment.newlines_append]
      omega
    rw [hline] at hus
    refine ⟨kept skip t.toList ++ ts, us, ?_, hus, ?_⟩
    · rw [textTokens_of_ok ht, hts]
      rfl
    · rw [List.cons_append, textTokens_of_ok ht', hfirst, happ, List.append_assoc]
      rfl

theorem tokenize_append (p s : String)
    (hlast : ∀ front c, Segment.calls { readErrors, encoding } filename 1 (Segment.all p.toList) =
      front ++ [c] → c.ClosedBefore s.toList) :
    ∃ ts us, tokenize p filename { readErrors, encoding } skip = .ok ts ∧
      tokenize s filename { readErrors, encoding } skip = .ok us ∧
      tokenize (p ++ s) filename { readErrors, encoding } skip =
        .ok (ts ++ us.map (Token.movedDown (Segment.newlines p.toList))) := by
  obtain ⟨ts, moved, hts, hmoved, happ⟩ := textTokens_append s.toList hlast
  obtain ⟨us, hus, hmoved'⟩ := textTokens_movedDown s.toList (Segment.newlines p.toList)
  cases hmoved.symm.trans hmoved'
  refine ⟨ts, us, ?_, ?_, ?_⟩
  · rw [tokenize_eq_textTokens, hts]
  · rw [tokenize_eq_textTokens, hus]
  · rw [tokenize_eq_textTokens, String.toList_append, happ]

end Lenient

/-- A text is scanned alike with another one behind it: up to the last segment the calls are the
same, and if that one is closed, the tokens are those of the two texts, with the lines of the second
moved down by the newlines of the first. -/
theorem concatenation (p s filename encoding : String) (readErrors : ReadPolicy) :
    let o : Options := { readErrors, encoding }
    (∃ calls, (Lexer.ofString p filename o).Calls calls) ∧
    ∀ calls, (Lexer.ofString p filename o).Calls calls →
      (∀ calls', (Lexer.ofString (p ++ s) filename o).Calls calls' →
        ∀ front c back, calls = front ++ c :: back →
          ((front ++ [c]).flatMap Call.consumed).length < p.toList.length →
          front ++ [c] <+: calls') ∧
      ((∀ front c back, calls = front ++ c :: back → c.consumed ≠ [] →
          (∀ c' ∈ back, c'.consumed = []) → c.ClosedBefore s.toList) →
        ∀ skip, ∃ ts us, tokenize p filename o skip = .ok ts ∧
          tokenize s filename o skip = .ok us ∧
          tokenize (p ++ s) filename o skip =
            .ok (ts ++ us.map (Token.movedDown (Segment.newlines p.toList)))) := by
  intro o
  refine ⟨?_, fun calls h => ⟨?_, fun hclosed skip => ?_⟩⟩
  · exact (Lexer.calls_of_quiet (Lexer.quiet_ofString p filename o) rfl).1
  · rintro calls' h' front c back rfl hlt
    apply h.prefix_of_append h' _ hlt
    exact ⟨back, (List.append_cons front c back).symm⟩
  · exact tokenize_append p s (h.closed_of_last hclosed)

theorem concatenation_after_comment :
    ∃ ts us, tokenize "//\n" "a.rpal" {} false = .ok ts ∧ tokenize "b" "a.rpal" {} false = .ok us ∧
      tokenize ("//\n" ++ "b") "a.rpal" {} false = .ok (ts ++ us.map (Token.movedDown 1)) := by
  obtain ⟨⟨calls, h⟩, hall⟩ := concatenation "//\n" "b" "a.rpal" "utf-8" .raise
  refine (hall calls h).2 (fun front c back hc hne hback => ?_) false
  obtain ⟨last, hl, hlast⟩ := Lexer.calls_ofString_eq h
  have htext : "//\n".toList = ['/', '/', '\n'] := by decide +kernel
  have hfirst : Segment.first '/' ['/', '\n'] =
      ⟨.lexeme .delete ['/', '/'], ['/', '/', '\n'], []⟩ := by decide
  rw [htext, Segment.all, Segment.calls, hfirst, Segment.all, Segment.calls, hc] at hl
  cases front with
  | nil =>
    obtain ⟨rfl, -⟩ := List.cons.inj hl
    exact .ended (.comment ⟨rfl, [], rfl⟩ rfl)
  | cons d front =>
    -- Only the comment used anything up.
    obtain ⟨-, rfl⟩ := List.cons.inj hl
    exact absurd (hlast c (by simp)) hne

end RpalLexer
