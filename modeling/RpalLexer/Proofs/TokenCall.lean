import RpalLexer.Lexer
import RpalLexer.Proofs.CharacterAccess

/-!
# Calls for a token

Everything that a call for a token can do, on any stream: it takes the source of one segment and
answers as the segment's content and the policies demand, or it comes to the end of the input or to
a fault. Main statement: every call is of one of these forms (`Lexer.nextToken_cases`).
-/
namespace RpalLexer
namespace Lexer

variable {s s' s₀ s₁ : Lexer} {source : List Char} {step : Step Fault Lexer (Option Token)}

def answer (s : Lexer) (line : Int) : Content → Step Fault Lexer (Option Token)
  | .lexeme kind text => ⟨.ok (some (s.token kind text line)), s⟩
  | .unknown c => s.unknownChar c line
  | .cutOff body => s.cutOffString body line

theorem result_answer (s : Lexer) (line : Int) (g : Segment) :
    (s.answer line g.content).result = (g.outcome s.options s.filename line).mapError .scan := by
  unfold Segment.outcome
  cases g.content with
  | lexeme kind text => rfl
  | unknown c =>
    simp only [answer, unknownChar]
    cases s.options.chars <;> rfl
  | cutOff body =>
    simp only [answer, cutOffString]
    cases s.options.strings <;> rfl

theorem SameSetting.result_answer (h : s.SameSetting s') (line : Int) (content : Content) :
    (s'.answer line content).result = (s.answer line content).result := by
  have hr := Lexer.result_answer s line ⟨content, [], []⟩
  have hr' := Lexer.result_answer s' line ⟨content, [], []⟩
  rw [h.options, h.filename] at hr'
  exact hr'.trans hr.symm

theorem answer_of_commutes {change : Lexer → Lexer} (s : Lexer)
    (hchars : (change s).options.chars = s.options.chars)
    (hstrings : (change s).options.strings = s.options.strings)
    (hfile : (change s).filename = s.filename)
    (hnote : ∀ e, (change s).note e = change (s.note e)) (line : Int) (content : Content) :
    (change s).answer line content =
      ⟨(s.answer line content).result, change (s.answer line content).state⟩ := by
  cases content with
  | lexeme kind text => simp only [answer, token, hfile]
  | unknown c =>
    simp only [answer, unknownChar, location, hchars, hfile, hnote]
    cases s.options.chars <;> rfl
  | cutOff body =>
    simp only [answer, cutOffString, location, hstrings, hfile, hnote]
    cases s.options.strings <;> rfl

/-- All that a call for a token can do. A segment is taken that shows its end itself (`whole`) or is
complete because of what follows it (`delimited`), unless a fault is met before that is known
(`broken`). -/
inductive CallCase (s : Lexer) : List Char → Step Fault Lexer (Option Token) → Prop
  | ended {s' : Lexer} (hp : s.peek = ⟨.ok none, s'⟩) : CallCase s [] ⟨.ok none, s'⟩
  | unread {e : Fault} {s' : Lexer} (hp : s.peek = ⟨.error e, s'⟩) : CallCase s [] ⟨.error e, s'⟩
  | whole {content : Content} {source : List Char} {s' : Lexer}
      (hc : ∀ rest, Segment.Cut content source rest) (ho : Segment.isOpen source content = false)
      (ht : s.Takes source s') : CallCase s source (s'.answer s.line content)
  | delimited {content : Content} {source : List Char} {next : Option Char} {s₁ s' : Lexer}
      (hc : ∀ rest, rest.head? = next → Segment.Cut content source rest)
      (ho : Segment.isOpen source content = true) (ht : s.Takes source s₁)
      (hp : s₁.peek = ⟨.ok next, s'⟩) : CallCase s source (s'.answer s.line content)
  | broken {content : Content} {source : List Char} {e : Fault} {s₁ s' : Lexer}
      (hc : Segment.Cut content source []) (ho : Segment.isOpen source content = true)
      (ht : s.Takes source s₁) (hp : s₁.peek = ⟨.error e, s'⟩) : CallCase s source ⟨.error e, s'⟩

theorem CallCase.last {content : Content} {s₁ : Lexer} (hc : Segment.Cut content source [])
    (ho : Segment.isOpen source content = true) (ht : s.Takes source s₁)
    (hp : s₁.peek = ⟨.ok none, s'⟩) : CallCase s source (s'.answer s.line content) := by
  refine .delimited (fun rest hr => ?_) ho ht hp
  rwa [List.head?_eq_none_iff.1 hr]

theorem SameSetting.token_eq (h : s.SameSetting s') : s'.token = s.token := by
  unfold token
  rw [h.filename]

theorem runToken_cases {kind : Kind} {p : Char → Bool} {c : Char}
    (ha : s₀.advance = ⟨.ok (some c), s⟩)
    (hcut : ∀ run s₁ rest, s.Takes run s₁ → (∀ d ∈ run, p d = true) → Segment.Stops p rest →
      Segment.Cut (.lexeme kind (c :: run)) (c :: run) rest)
    (ho : ∀ text, Segment.isOpen text (.lexeme kind text) = true) :
    ∃ source, CallCase s₀ source (s.runToken kind p c s₀.line) := by
  have hc := takeRun_cases p [c] s
  unfold runToken
  generalize takeRun p [c] s = step at hc
  cases hc with
  | @ended run next _ _ ht hrun hp hn =>
    simp only [← (ht.sameSetting.trans (.of_peek hp)).token_eq]
    refine ⟨c :: run, .delimited (fun rest hr => ?_) (ho _) (.cons ha ht) hp⟩
    rw [← hr] at hn
    exact hcut run _ _ ht hrun hn
  | @fault run _ _ _ ht hrun hp =>
    exact ⟨c :: run, .broken (hcut run _ _ ht hrun (by simp [Segment.Stops])) (ho _)
      (.cons ha ht) hp⟩

theorem commentToken_cases (ht₀ : s₀.Takes [commentMark, commentMark] s) :
    ∃ source, CallCase s₀ source (s.commentToken s₀.line) := by
  have hc := takeLine_cases [commentMark, commentMark] s
  unfold commentToken
  generalize takeLine [commentMark, commentMark] s = step at hc
  cases hc with
  | stopped ht hn =>
    simp only [← ht.sameSetting.token_eq]
    exact ⟨_, .whole (fun rest => .comment hn) (by simp [Segment.isOpen]) (ht₀.append ht)⟩
  | ended ht hn hp =>
    simp only [← (ht.sameSetting.trans (.of_peek hp)).token_eq]
    exact ⟨_, .last (.lastComment hn) (by simp [Segment.isOpen]) (ht₀.append ht) hp⟩
  | fault ht hn hp =>
    exact ⟨_, .broken (.lastComment hn) (by simp [Segment.isOpen]) (ht₀.append ht) hp⟩

theorem stringToken_cases (ha : s₀.advance = ⟨.ok (some quoteMark), s⟩) :
    ∃ source, CallCase s₀ source (s.stringToken s₀.line) := by
  have hc := takeLiteral_cases [] s
  unfold stringToken
  generalize takeLiteral [] s = step at hc
  cases hc with
  | closed ht hb =>
    simp only [← ht.sameSetting.token_eq]
    exact ⟨_, .whole (fun rest => .string hb) rfl (.cons ha ht)⟩
  | ended ht hb hp => exact ⟨_, .last (.cutOff hb) rfl (.cons ha ht) hp⟩
  | fault ht hb hp => exact ⟨_, .broken (.cutOff hb) rfl (.cons ha ht) hp⟩

theorem runToken_of_peek {kind : Kind} {p : Char → Bool} {first : Char} {line : Int}
    {c : Option Char} (h : s.peek = ⟨.ok c, s'⟩) :
    s'.runToken kind p first line = s.runToken kind p first line := by
  unfold runToken
  rw [takeRun_of_peek h, (SameSetting.of_peek h).token_eq]

theorem operator_run_not_isComment {c : Char} {run : List Char} (ht : s.Takes run s₁)
    (hn : c = commentMark → ∀ s', s.peek ≠ ⟨.ok (some commentMark), s'⟩) :
    ¬Segment.IsComment (c :: run) := by
  cases ht with
  | nil => exact Segment.not_isComment_singleton c
  | @cons _ _ _ d ds ha _ =>
    rw [Segment.isComment_iff]
    rintro ⟨hc, rfl⟩
    -- The second character of the run is the one that was looked at.
    obtain ⟨s₂, hp, -⟩ := exists_peek_of_advance_some ha
    exact hn hc s₂ hp

theorem operatorRun_cases {c : Char} (ha : s₀.advance = ⟨.ok (some c), s⟩)
    (hc : isOperatorSymbol c = true)
    (hn : c = commentMark → ∀ s', s.peek ≠ ⟨.ok (some commentMark), s'⟩) :
    ∃ source, CallCase s₀ source (s.runToken .operator isOperatorSymbol c s₀.line) :=
  runToken_cases ha
    (fun _ _ _ ht hrun hr => .operator hc hrun (operator_run_not_isComment ht hn) hr) fun _ => rfl

theorem operatorToken_cases {c : Char} (ha : s₀.advance = ⟨.ok (some c), s⟩)
    (hc : isOperatorSymbol c = true) :
    ∃ source, CallCase s₀ source (s.operatorToken c s₀.line) := by
  unfold operatorToken
  split
  · rename_i hcm
    subst hcm
    split
    · rename_i e s' hp
      refine ⟨[commentMark], .broken (.operator hc (by simp) ?_ ?_) rfl (.single ha) hp⟩
      · exact Segment.not_isComment_singleton _
      · simp [Segment.Stops]
    · rename_i next s' hp
      split
      · rename_i hnext
        subst hnext
        exact commentToken_cases (.cons ha (.single (advance_of_peek_some hp)))
      · rename_i hnext
        rw [runToken_of_peek hp]
        refine operatorRun_cases ha hc fun _ s'' hp' => hnext ?_
        rw [hp] at hp'
        cases hp'
        rfl
  · rename_i hcm
    exact operatorRun_cases ha hc fun h => absurd h hcm

theorem tokenFrom_cases {c : Char} (ha : s₀.advance = ⟨.ok (some c), s⟩) :
    ∃ source, CallCase s₀ source (s.tokenFrom c s₀.line) := by
  unfold tokenFrom
  split
  case h_1 hc =>
    have hl := classify_eq_letter_iff.1 hc
    exact runToken_cases ha (fun _ _ _ _ hrun hr => .identifier hl hrun hr) fun _ => rfl
  case h_2 hc =>
    have hd := classify_eq_digit_iff.1 hc
    exact runToken_cases ha (fun _ _ _ _ hrun hr => .integer hd hrun hr) fun _ => rfl
  case h_3 hc => exact operatorToken_cases ha (classify_eq_operator_iff.1 hc)
  case h_4 hc =>
    rw [classify_eq_quote_iff] at hc
    subst hc
    exact stringToken_cases ha
  case h_5 hc =>
    have hs := classify_eq_space_iff.1 hc
    exact runToken_cases ha (fun _ _ _ _ hrun hr => .space hs hrun hr)
      fun _ => by simp [Segment.isOpen]
  case h_6 hc =>
    obtain ⟨kind, hk⟩ := classify_eq_punctuation_iff.1 hc
    rw [hk]
    exact ⟨[c], .whole (fun rest => .punctuation hk) (Segment.isOpen_punctuation hk) (.single ha)⟩
  case h_7 hc =>
    exact ⟨[c], .whole (fun rest => .unknown hc) rfl (.single ha)⟩

theorem nextToken_cases (s : Lexer) : ∃ source, CallCase s source s.nextToken := by
  unfold nextToken
  split
  · rename_i e s' ha
    exact ⟨[], .unread (peek_of_advance_error ha)⟩
  · rename_i s' ha
    exact ⟨[], .ended (peek_of_advance_none ha)⟩
  · rename_i c s' ha
    exact tokenFrom_cases ha

theorem nextToken_of_not_hasMore (hm : s.hasMore = false) : s.nextToken = ⟨.ok none, s⟩ := by
  rw [nextToken, advance_of_peek_none (peek_of_not_hasMore hm)]

end Lexer
end RpalLexer
