import RpalLexer.Proofs.QuietInput
import Mathlib.Algebra.Group.Nat.Even

/-!
# Where a string literal ends

A literal ends at the first quote with an even number of escape marks right before it. The lexer
never counts those: it takes each escape mark together with the character after it. Main statement:
`literal_ends_at_closing_quote`.
-/
namespace RpalLexer

namespace Segment

variable {text front body cs : List Char} {c d : Char}

def escapesAtEnd (front : List Char) : Nat := (front.reverse.takeWhile (· == escapeMark)).length

/-- A quote stands right after `front`, and the escape marks before it are even in number. -/
def Closes (text front : List Char) : Prop :=
  front ++ [quoteMark] <+: text ∧ Even (escapesAtEnd front)

/-- The first closing quote of the text stands right after `body`. -/
def ClosesFirst (text body : List Char) : Prop :=
  Closes text body ∧ ∀ front, Closes text front → body.length ≤ front.length

theorem escapesAtEnd_cons_of_ne (hc : c ≠ escapeMark) (front : List Char) :
    escapesAtEnd (c :: front) = escapesAtEnd front := by
  simp only [escapesAtEnd, List.reverse_cons, List.takeWhile_append]
  split
  · rename_i hl
    simp [hc, hl]
  · rfl

theorem even_escapesAtEnd_pair (d : Char) (front : List Char) :
    Even (escapesAtEnd (escapeMark :: d :: front)) ↔ Even (escapesAtEnd front) := by
  by_cases hd : d = escapeMark
  · subst hd
    simp only [escapesAtEnd, List.reverse_cons, List.append_assoc, List.takeWhile_append]
    split
    · rename_i hl
      simp [hl, Nat.even_add_one, parity_simps]
    · rfl
  · have hrun : escapesAtEnd (escapeMark :: d :: front) = escapesAtEnd (d :: front) := by
      simp only [escapesAtEnd, List.reverse_cons, List.append_assoc, List.takeWhile_append]
      split
      · simp [hd]
      · rfl
    rw [hrun, escapesAtEnd_cons_of_ne hd]

theorem StringBody.even_escapesAtEnd (h : StringBody body) : Even (escapesAtEnd body) := by
  induction h with
  | nil => exact Even.zero
  | plain hq he _ ih => rwa [escapesAtEnd_cons_of_ne he]
  | escaped _ ih => rwa [even_escapesAtEnd_pair]

theorem StringBody.not_closes (h : StringBody body) (front : List Char) : ¬Closes body front := by
  induction h generalizing front with
  | nil => simp [Closes]
  | @plain c cs hq he _ ih =>
    rintro ⟨hp, heven⟩
    cases front with
    | nil => exact hq (by simpa [eq_comm] using hp)
    | cons d front =>
      obtain ⟨rfl, hrest⟩ := List.cons_prefix_cons.1 hp
      rw [escapesAtEnd_cons_of_ne he] at heven
      exact ih front ⟨hrest, heven⟩
  | @escaped c cs _ ih =>
    rintro ⟨hp, heven⟩
    match front with
    | [] => exact absurd hp (by simp [quoteMark, escapeMark])
    | [d] =>
      obtain ⟨rfl, -⟩ := List.cons_prefix_cons.1 hp
      exact absurd heven (by decide)
    | d :: d' :: front =>
      simp only [List.cons_append, List.cons_prefix_cons] at hp
      obtain ⟨rfl, rfl, hp⟩ := hp
      rw [even_escapesAtEnd_pair] at heven
      exact ih front ⟨hp, heven⟩

theorem Unclosed.not_closes (h : Unclosed text) (front : List Char) : ¬Closes text front := by
  rcases h with hb | ⟨body, hb, rfl⟩
  · exact hb.not_closes front
  · rintro ⟨hp, heven⟩
    rcases List.prefix_concat_iff.1 hp with he | hp
    · have hlast := (List.append_inj' he rfl).2
      exact absurd hlast (by decide)
    · exact hb.not_closes front ⟨hp, heven⟩

theorem StringBody.closes (h : StringBody body) (rest : List Char) :
    Closes (body ++ quoteMark :: rest) body :=
  ⟨⟨rest, by simp⟩, h.even_escapesAtEnd⟩

theorem StringBody.closesFirst (h : StringBody body) (rest : List Char) :
    ClosesFirst (body ++ quoteMark :: rest) body := by
  refine ⟨h.closes rest, fun front hc => ?_⟩
  by_contra hlt
  have hp : front ++ [quoteMark] <+: body := by
    apply List.prefix_of_prefix_length_le hc.1 (List.prefix_append body _)
    rw [List.length_append, List.length_singleton]
    exact Nat.lt_of_not_le hlt
  exact h.not_closes front ⟨hp, hc.2⟩

theorem ClosesFirst.unique (h : ClosesFirst text body) (h' : ClosesFirst text front) :
    body = front := by
  have hle := h.2 front h'.1
  have hle' := h'.2 body h.1
  have hp : body ++ [quoteMark] <+: front ++ [quoteMark] := by
    apply List.prefix_of_prefix_length_le h.1.1 h'.1.1
    simpa using hle
  have he := hp.eq_of_length (by simpa using Nat.le_antisymm hle hle')
  exact List.append_cancel_right he

theorem exists_body_or_unclosed (text : List Char) :
    (∃ body rest, text = body ++ quoteMark :: rest ∧ StringBody body) ∨ Unclosed text := by
  have hb := stringBody_splitBody text
  have happ := append_splitBody text
  rcases splitBody_snd text with hs | hs | ⟨rest, hs⟩
  · rw [hs, List.append_nil] at happ
    right
    rw [← happ]
    exact hb.unclosed
  · right
    exact Or.inr ⟨_, hb, by rw [← hs, happ]⟩
  · left
    exact ⟨_, rest, by rw [← hs, happ], hb⟩

theorem closesFirst_iff :
    ClosesFirst text body ↔ ∃ rest, text = body ++ quoteMark :: rest ∧ StringBody body := by
  constructor
  · intro h
    rcases exists_body_or_unclosed text with ⟨body', rest, rfl, hb⟩ | hu
    · have he : body = body' := h.unique (hb.closesFirst rest)
      subst he
      exact ⟨rest, rfl, hb⟩
    · exact absurd h.1 (hu.not_closes body)
  · rintro ⟨rest, rfl, hb⟩
    exact hb.closesFirst rest

theorem Closes.exists_closesFirst (h : Closes text front) : ∃ body, ClosesFirst text body := by
  rcases exists_body_or_unclosed text with ⟨body, rest, rfl, hb⟩ | hu
  · exact ⟨body, hb.closesFirst rest⟩
  · exact absurd h (hu.not_closes front)

theorem unclosed_iff : Unclosed text ↔ ∀ front, ¬Closes text front := by
  constructor
  · exact fun h => h.not_closes
  · intro h
    rcases exists_body_or_unclosed text with ⟨body, rest, rfl, hb⟩ | hu
    · exact absurd (hb.closes rest) (h body)
    · exact hu

section Map

variable {f : Char → Char} (hq : ∀ c, f c = quoteMark ↔ c = quoteMark)
  (he : ∀ c, f c = escapeMark ↔ c = escapeMark)
include hq he

theorem StringBody.map (h : StringBody body) : StringBody (body.map f) := by
  induction h with
  | nil => exact .nil
  | plain hcq hce _ ih => exact .plain (mt (hq _).1 hcq) (mt (he _).1 hce) ih
  | escaped _ ih =>
    rw [List.map_cons, (he escapeMark).2 rfl]
    exact .escaped ih

theorem Unclosed.map (h : Unclosed text) : Unclosed (text.map f) := by
  rcases h with hb | ⟨body, hb, rfl⟩
  · exact (hb.map hq he).unclosed
  · refine Or.inr ⟨body.map f, hb.map hq he, ?_⟩
    rw [List.map_append, List.map_singleton, (he escapeMark).2 rfl]

theorem ClosesFirst.map (h : ClosesFirst text body) : ClosesFirst (text.map f) (body.map f) := by
  obtain ⟨rest, rfl, hb⟩ := closesFirst_iff.1 h
  rw [List.map_append, List.map_cons, (hq quoteMark).2 rfl]
  exact (hb.map hq he).closesFirst (rest.map f)

theorem closesFirst_map_iff {body' : List Char} :
    ClosesFirst (text.map f) body' ↔ ∃ body, body' = body.map f ∧ ClosesFirst text body := by
  constructor
  · intro h
    rcases exists_body_or_unclosed text with ⟨body, rest, rfl, hb⟩ | hu
    · have hc : ClosesFirst (body ++ quoteMark :: rest) body := hb.closesFirst rest
      exact ⟨body, h.unique (hc.map hq he), hc⟩
    · exact absurd h.1 ((hu.map hq he).not_closes body')
  · rintro ⟨body, rfl, h⟩
    exact h.map hq he

end Map

end Segment

namespace Lexer

open Segment (ClosesFirst Unclosed)

variable {s s' : Lexer} {cs body : List Char}

theorem Takes.slot_eq_none (ht : s.Takes cs s') (hcs : cs ≠ []) : s'.slot = none := by
  induction ht with
  | nil s => exact absurd rfl hcs
  | @cons s s₁ s' c cs ha ht ih =>
    cases ht with
    | nil =>
      obtain ⟨s₂, -, rfl⟩ := exists_peek_of_advance_some ha
      rfl
    | cons ha' ht' => exact ih (List.cons_ne_nil _ _)

theorem stringToken_of_ahead (hq : s.Quiet) (line : Int) :
    (∃ body s', ClosesFirst s.ahead body ∧ s.Takes (body ++ [quoteMark]) s' ∧
      s.stringToken line = ⟨.ok (some (s.token .string body line)), s'⟩) ∨
    ∃ s₁ s', Unclosed s.ahead ∧ s.Takes s.ahead s₁ ∧ s₁.peek = ⟨.ok none, s'⟩ ∧
      s.stringToken line = s'.cutOffString s.ahead line := by
  have hc := takeLiteral_cases [] s
  unfold stringToken
  generalize takeLiteral [] s = step at hc
  cases hc with
  | @closed body s₁ ht hb =>
    left
    have happ := ht.ahead_eq
    rw [List.append_assoc, List.singleton_append] at happ
    refine ⟨body, s₁, ?_, ht, ?_⟩
    · rw [happ]
      exact hb.closesFirst s₁.ahead
    · simp only [List.reverse_nil, List.nil_append]
  | @ended body s₁ s₂ ht hb hp =>
    right
    have happ := ht.ahead_eq
    have hnil : s₁.ahead = [] := by simpa using head?_ahead_of_peek hp
    rw [hnil, List.append_nil] at happ
    rw [happ]
    exact ⟨s₁, s₂, hb, ht, hp, rfl⟩
  | fault ht hb hp => exact absurd hp ((hq.takes ht).peek_ne_error _)

def unterminated (s : Lexer) (text : List Char) (line : Int) : Except Fault (Option Token) :=
  match s.options.strings with
  | .discard => .ok none
  | .raise => .error (.scan (.unterminatedString (some ⟨s.filename, line⟩)
      (some (String.ofList (quoteMark :: text.take ScanError.fragmentLimit)))))

theorem unterminated_ne_token (s : Lexer) (text : List Char) (line : Int) (t : Token) :
    s.unterminated text line ≠ .ok (some t) := by
  rw [unterminated]
  split
  · simp
  · simp

theorem SameSetting.result_cutOffString (h : s.SameSetting s') (text : List Char) (line : Int) :
    (s'.cutOffString text line).result = s.unterminated text line := by
  rw [cutOffString, unterminated, location, h.options, h.filename]
  cases s.options.strings with
  | discard => rfl
  | raise => rfl

theorem stringToken_of_closesFirst (hq : s.Quiet) (h : ClosesFirst s.ahead body) (line : Int) :
    let step := s.stringToken line
    step.result = .ok (some ⟨.string, String.ofList body, line, s.filename⟩) ∧
      (∃ given, s.Moves given (body ++ [quoteMark]) step.state) ∧ step.state.slot = none := by
  intro step
  rcases stringToken_of_ahead hq line with ⟨body', s', h', ht, hs⟩ | ⟨s₁, s', hu, -⟩
  · have he : body' = body := h'.unique h
    subst he
    have hstep : step = _ := hs
    rw [hstep]
    exact ⟨rfl, ht.moves, ht.slot_eq_none (by simp)⟩
  · exact absurd h.1 (hu.not_closes body)

theorem stringToken_of_unclosed (hq : s.Quiet) (h : Unclosed s.ahead) (line : Int) :
    let step := s.stringToken line
    step.result = s.unterminated s.ahead line ∧
      (∃ given, s.Moves given s.ahead step.state) ∧ step.state.hasMore = false := by
  intro step
  rcases stringToken_of_ahead hq line with ⟨body, s', h', -⟩ | ⟨s₁, s', -, ht, hp, hs⟩
  · exact absurd h'.1 (h.not_closes body)
  · have hstep : step = s'.cutOffString s.ahead line := hs
    have halike : s'.Alike (s'.cutOffString s.ahead line).state :=
      alike_answer s' line (.cutOff s.ahead)
    obtain ⟨given, hm⟩ := ht.moves
    obtain ⟨given', hm'⟩ := moves_of_peek_ok hp
    rw [hstep]
    refine ⟨?_, ⟨_, by simpa using (hm.trans hm').trans halike.moves⟩, ?_⟩
    · exact (ht.sameSetting.trans (.of_peek hp)).result_cutOffString s.ahead line
    · rw [halike.hasMore_eq]
      exact hasMore_of_peek_none hp

theorem nextToken_of_quoteMark (hq : s.Quiet) (ha : s.ahead = quoteMark :: cs) :
    ∃ s₁ : Lexer, s₁.Quiet ∧ s₁.ahead = cs ∧ s.nextToken = s₁.stringToken s.line := by
  cases hp : s.peek with
  | mk result s₁ =>
    cases result with
    | error e => exact absurd hp (hq.peek_ne_error e)
    | ok c =>
      have hc : c = some quoteMark := by
        rw [← head?_ahead_of_peek hp, ha]
        rfl
      subst hc
      have happ : s₁.ahead = quoteMark :: (s₁.take quoteMark).ahead := ahead_take (slot_of_peek hp)
      rw [ahead_of_peek hp, ha, List.cons.injEq] at happ
      have hq₁ : s₁.Quiet := hq.of_peek hp
      have hclass : classify quoteMark = .quote := by decide
      refine ⟨s₁.take quoteMark, hq₁, happ.2.symm, ?_⟩
      simp only [nextToken, advance_of_peek_some hp, tokenFrom, hclass]

end Lexer

open Segment (Closes ClosesFirst)

/-- A call that takes a quote goes on with what follows it. There is a string token if and only if
that text has a quote with an even number of escape marks right before it. The token is the text up
to the first such quote, which is the last character used up, and nothing is looked at beyond. If
there is none, all of the text is used up and the literal is unterminated. Characters other than
quotes and escape marks have no part in where a literal ends. -/
theorem literal_ends_at_closing_quote {s : Lexer} (hq : s.Quiet) (line : Int) :
    let step := s.stringToken line
    (∀ cs, s.ahead = quoteMark :: cs →
      ∃ s₁ : Lexer, s₁.Quiet ∧ s₁.ahead = cs ∧ s.nextToken = s₁.stringToken s.line) ∧
    ((∃ t, step.result = .ok (some t)) ↔ ∃ front, Closes s.ahead front) ∧
    ((∃ front, Closes s.ahead front) → ∃ body, ClosesFirst s.ahead body ∧
      step.result = .ok (some ⟨.string, String.ofList body, line, s.filename⟩) ∧
      (∃ given, s.Moves given (body ++ [quoteMark]) step.state) ∧ step.state.slot = none) ∧
    ((¬∃ front, Closes s.ahead front) →
      step.result = s.unterminated s.ahead line ∧
      (∃ given, s.Moves given s.ahead step.state) ∧ step.state.hasMore = false) ∧
    ∀ f : Char → Char, (∀ c, f c = quoteMark ↔ c = quoteMark) →
      (∀ c, f c = escapeMark ↔ c = escapeMark) → ∀ body', ClosesFirst (s.ahead.map f) body' ↔
        ∃ body, body' = body.map f ∧ ClosesFirst s.ahead body := by
  intro step
  have hclosed {body : List Char} (hfirst : ClosesFirst s.ahead body) :=
    Lexer.stringToken_of_closesFirst hq hfirst line
  have hunclosed (hn : ¬∃ front, Closes s.ahead front) :=
    Lexer.stringToken_of_unclosed hq (Segment.unclosed_iff.2 (not_exists.1 hn)) line
  refine ⟨fun cs ha => Lexer.nextToken_of_quoteMark hq ha, ⟨?_, ?_⟩, ?_, hunclosed, ?_⟩
  · rintro ⟨t, ht⟩
    by_contra hn
    exact s.unterminated_ne_token s.ahead line t ((hunclosed hn).1.symm.trans ht)
  · rintro ⟨front, hc⟩
    obtain ⟨body, hfirst⟩ := hc.exists_closesFirst
    exact ⟨_, (hclosed hfirst).1⟩
  · rintro ⟨front, hc⟩
    obtain ⟨body, hfirst⟩ := hc.exists_closesFirst
    exact ⟨body, hfirst, hclosed hfirst⟩
  · intro f hquote hescape body'
    exact Segment.closesFirst_map_iff hquote hescape

theorem literal_of_escaped_quote :
    let s := Lexer.ofString "it\\'s\n\\\\' //" "a.rpal" {}
    let step := s.stringToken 1
    s.Quiet ∧ Closes s.ahead "it\\'s\n\\\\".toList ∧
      step.result = .ok (some ⟨.string, "it\\'s\n\\\\", 1, "a.rpal"⟩) ∧
      step.state.slot = none := by
  intro s step
  have hq : s.Quiet := Lexer.quiet_ofString _ _ _
  have hbody : Segment.StringBody "it\\'s\n\\\\".toList := by
    have hn : Segment.StringBody ['\\', '\\'] := .escaped .nil
    have hs : Segment.StringBody ('s' :: '\n' :: ['\\', '\\']) :=
      .plain (by decide) (by decide) (.plain (by decide) (by decide) hn)
    exact .plain (by decide) (by decide) (.plain (by decide) (by decide) (.escaped hs))
  have hfirst : ClosesFirst s.ahead "it\\'s\n\\\\".toList := by
    rw [Lexer.ahead_ofString]
    exact hbody.closesFirst [' ', '/', '/']
  obtain ⟨-, -, hclosed, -⟩ := literal_ends_at_closing_quote hq 1
  obtain ⟨body, hfirst', hr, -, hslot⟩ := hclosed ⟨_, hfirst.1⟩
  have he : body = _ := hfirst'.unique hfirst
  subst he
  exact ⟨hq, hfirst.1, hr, hslot⟩

end RpalLexer
