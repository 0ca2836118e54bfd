import RpalLexer.Proofs.QuietInput
import RpalLexer.Proofs.TokenShape

/-!
# No character is lost

Under the lenient policies a run of calls over a text uses up the text, each character once and in
order, and every call accounts for what it used up. Main statement: `calls_ofString`.
-/
namespace RpalLexer

structure Call where
  consumed : List Char
  result : Except Fault (Option Token)

/-- `s.Calls calls`: these calls follow one another, from the lexer `s` until there is no more. -/
inductive Lexer.Calls : Lexer → List Call → Prop
  | done {s : Lexer} (hm : s.hasMore = false) : Calls s []
  | call {s : Lexer} {given consumed : List Char} {calls : List Call} (hm : s.hasMore = true)
      (hmv : s.Moves given consumed s.nextToken.state) (h : Calls s.nextToken.state calls) :
      Calls s (⟨consumed, s.nextToken.result⟩ :: calls)

/-- Each call used up the source of its token, or one character outside the alphabet. Only the last
one may have met the end of the input, at once, in a comment or in a string literal. -/
inductive Accounted : List Call → Prop
  | nil : Accounted []
  | token {t : Token} {later : List Call} (ht : t.WellFormed) (h : Accounted later) :
      Accounted (⟨t.source, .ok (some t)⟩ :: later)
  | lastComment {t : Token} (ht : t.WellFormed) (hc : t.IsComment) :
      Accounted [⟨t.text.toList, .ok (some t)⟩]
  | dropped {c : Char} {later : List Call} (hc : classify c = .other) (h : Accounted later) :
      Accounted (⟨[c], .ok none⟩ :: later)
  | ended : Accounted [⟨[], .ok none⟩]
  | cutOff {body : List Char} (hb : Segment.Unclosed body) :
      Accounted [⟨quoteMark :: body, .ok none⟩]

/-- The call shows by itself that what it used up is complete. -/
inductive Call.EndsItself : Call → Prop
  | string {t : Token} {consumed : List Char} (hk : t.kind = .string) :
      EndsItself ⟨consumed, .ok (some t)⟩
  | punctuation {t : Token} {c : Char} {consumed : List Char}
      (hk : Kind.ofPunctuation? c = some t.kind) : EndsItself ⟨consumed, .ok (some t)⟩
  | comment {t : Token} {consumed : List Char} (hc : t.IsComment) (hs : consumed = t.source) :
      EndsItself ⟨consumed, .ok (some t)⟩
  | dropped {c : Char} (hc : classify c = .other) : EndsItself ⟨[c], .ok none⟩

namespace Segment

theorem isOpen_of_endsItself {content : Content} {source rest : List Char} {o : Options}
    {filename : String} {line : Int} (hc : Cut content source rest)
    (he : Call.EndsItself
      ⟨source, ((⟨content, source, rest⟩ : Segment).outcome o filename line).mapError .scan⟩) :
    isOpen source content = false := by
  cases content with
  | unknown c => rfl
  | cutOff body =>
    -- A call that gives nothing ends itself only after one character, which is no quote.
    generalize hr : ((⟨.cutOff body, source, rest⟩ : Segment).outcome o filename line).mapError
      Fault.scan = result at he
    cases hc with
    | cutOff hb =>
      cases he with
      | dropped hc => exact absurd hc (by decide)
      | _ =>
        simp only [outcome] at hr
        split at hr <;> cases hr
  | lexeme kind text =>
    simp only [outcome] at he
    cases he with
    | string hs =>
      cases hs
      rfl
    | punctuation hp => exact isOpen_punctuation hp
    | comment hcom hs =>
      have hk : kind = .delete := hcom.1
      rw [hk, hs, Token.source_of_isComment hcom]
      simp [isOpen]

end Segment

namespace Lexer

variable {s s' : Lexer} {calls : List Call} {readErrors : ReadPolicy} {encoding filename : String}
  {line : Int}

theorem Calls.eq_nil (h : s.Calls calls) (hm : s.hasMore = false) : calls = [] := by
  cases h with
  | done => rfl
  | call hm' => simp [hm] at hm'

theorem calls_of_step {r : Except Fault (Option Token)} (hm : s.hasMore = true)
    (hn : s.nextToken = ⟨r, s'⟩) (h : ∃ calls, s'.Calls calls) : ∃ calls, s.Calls calls := by
  obtain ⟨calls, h⟩ := h
  obtain ⟨given, consumed, -, hmv⟩ := exists_moves_nextToken s
  rw [← show s.nextToken.state = s' by rw [hn]] at h
  exact ⟨_, .call hm hmv h⟩

theorem Calls.step {r : Except Fault (Option Token)} (hq : s.Quiet) (h : s.Calls calls)
    (hm : s.hasMore = true) (hn : s.nextToken = ⟨r, s'⟩) :
    ∃ consumed later, calls = ⟨consumed, r⟩ :: later ∧ s.ahead = consumed ++ s'.ahead ∧
      s'.Calls later := by
  cases h with
  | done hm' => simp [hm] at hm'
  | call hm' hmv h =>
    have ha := hq.ahead_of_moves hmv
    rw [hn] at ha h ⊢
    exact ⟨_, _, rfl, ha, h⟩

theorem accounted_of_cut {content : Content} {source rest : List Char}
    (h : Segment.Cut content source rest) (filename : String) (line : Int) :
    ∃ t, (⟨content, source, rest⟩ : Segment).outcome { readErrors, encoding } filename line =
        .ok t ∧
      ∀ later, (Segment.isOpen source content = true → rest = [] → later = []) →
        Accounted later → Accounted (⟨source, .ok t⟩ :: later) := by
  cases content with
  | lexeme kind text =>
    let t : Token := ⟨kind, String.ofList text, line, filename⟩
    have ht : t.text.toList = text := String.toList_ofList
    refine ⟨some t, rfl, fun later hl ha => ?_⟩
    rw [← ht] at h
    have hw : t.WellFormed := (Token.wellFormed_of_cut h).1
    rcases t.source_of_cut h with rfl | ⟨hc, rfl, rfl⟩
    · exact .token hw ha
    · have hk : kind = .delete := hc.1
      rw [hl (by simp [Segment.isOpen, hk, ht]) rfl]
      exact .lastComment hw hc
  | unknown c =>
    refine ⟨none, rfl, fun later hl ha => ?_⟩
    cases h with
    | unknown hc => exact .dropped hc ha
  | cutOff body =>
    refine ⟨none, rfl, fun later hl ha => ?_⟩
    cases h with
    | cutOff hb =>
      rw [hl rfl rfl]
      exact .cutOff hb

theorem calls_of_quiet (hq : s.Quiet) (ho : s.options = { readErrors, encoding }) :
    (∃ calls, s.Calls calls) ∧ ∀ calls, s.Calls calls →
      calls.flatMap Call.consumed = s.ahead ∧ Accounted calls := by
  induction ha : s.ahead using Segment.all.induct generalizing s with
  | case1 =>
    by_cases hm : s.hasMore = true
    -- The end has not been seen yet; one more call sees it.
    · obtain ⟨s', hn, hm', hp⟩ := nextToken_of_ahead_nil hq ha
      refine ⟨calls_of_step hm hn ⟨[], .done hm'⟩, fun calls h => ?_⟩
      obtain ⟨consumed, later, rfl, happ, hl⟩ := h.step hq hm hn
      rw [ha, hp.ahead, List.append_nil] at happ
      rw [← happ, hl.eq_nil hm']
      exact ⟨rfl, .ended⟩
    · have hm : s.hasMore = false := by simpa using hm
      refine ⟨⟨[], .done hm⟩, fun calls h => ?_⟩
      rw [h.eq_nil hm]
      exact ⟨rfl, .nil⟩
  | case2 c cs ih =>
    have hm := hasMore_of_ahead ha
    obtain ⟨s', hn, hp, he⟩ := nextToken_of_ahead hq ha
    obtain ⟨t, hto, hacc⟩ := accounted_of_cut (Segment.cut_first c cs) s.filename s.line
    rw [ho, hto] at hn
    obtain ⟨hex, hall⟩ := ih hp.quiet (hp.setting.options.trans ho) hp.ahead
    refine ⟨calls_of_step hm hn hex, fun calls h => ?_⟩
    obtain ⟨consumed, later, rfl, happ, hl⟩ := h.step hq hm hn
    have hs := Segment.source_append_rest c cs
    rw [← ha, happ, hp.ahead] at hs
    have hs := List.append_cancel_right hs
    obtain ⟨hflat, hla⟩ := hall later hl
    rw [← hs]
    refine ⟨?_, hacc later (fun ho hr => hl.eq_nil (he ho hr)) hla⟩
    rw [List.flatMap_cons, hflat, Segment.source_append_rest]

end Lexer

/-- Under the lenient policies the calls for a token over a text come to an end, use up the text and
account for all of it. -/
theorem calls_ofString (text filename encoding : String) (readErrors : ReadPolicy) :
    (∃ calls, (Lexer.ofString text filename { readErrors, encoding }).Calls calls) ∧
    ∀ calls, (Lexer.ofString text filename { readErrors, encoding }).Calls calls →
      calls.flatMap Call.consumed = text.toList ∧ Accounted calls := by
  have hs := Lexer.calls_of_quiet (Lexer.quiet_ofString text filename { readErrors, encoding }) rfl
  rwa [Lexer.ahead_ofString] at hs

end RpalLexer
