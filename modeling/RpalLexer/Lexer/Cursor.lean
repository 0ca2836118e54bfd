import RpalLexer.Lexer

/-!
# Consumers of tokens

Going through the tokens of a lexer, with or without the deleted ones. A cursor does so one token
at a time; any number of them may share a lexer, and one that came to the end or met a fault is
finished for good.
-/
namespace RpalLexer

namespace Lexer

def nextKept (skipDeleted : Bool) (s : Lexer) : Step Fault Lexer (Option Token) :=
  if _hm : s.hasMore = true then
    match _h : s.nextToken with
    | ⟨.error e, s'⟩ => ⟨.error e, s'⟩
    | ⟨.ok none, s'⟩ => nextKept skipDeleted s'
    | ⟨.ok (some t), s'⟩ =>
      if skipDeleted && t.isDeleted then nextKept skipDeleted s' else ⟨.ok (some t), s'⟩
  else ⟨.ok none, s⟩
termination_by s.weight
decreasing_by all_goals exact weight_nextToken_lt _hm _h

theorem weight_nextKept_some {skipDeleted : Bool} {s s' : Lexer} {t : Token}
    (h : s.nextKept skipDeleted = ⟨.ok (some t), s'⟩) : s'.weight < s.weight := by
  fun_induction nextKept skipDeleted s with
  | case1 s hm e s₁ hn => cases h
  | case2 s hm s₁ hn ih => exact Nat.lt_trans (ih h) (weight_nextToken_lt hm hn)
  | case3 s hm u s₁ hn hd ih => exact Nat.lt_trans (ih h) (weight_nextToken_lt hm hn)
  | case4 s hm u s₁ hn hd =>
    cases h
    exact weight_nextToken_lt hm hn
  | case5 s hm => cases h

structure Harvest where
  tokens : List Token
  fault : Option Fault
  lexer : Lexer

def harvest (skipDeleted : Bool) (limit : Option Nat) (s : Lexer) : Harvest :=
  if limit = some 0 then ⟨[], none, s⟩
  else
    match _h : s.nextKept skipDeleted with
    | ⟨.error e, s'⟩ => ⟨[], some e, s'⟩
    | ⟨.ok none, s'⟩ => ⟨[], none, s'⟩
    | ⟨.ok (some t), s'⟩ =>
      let rest := harvest skipDeleted (limit.map (· - 1)) s'
      { rest with tokens := t :: rest.tokens }
termination_by s.weight
decreasing_by exact weight_nextKept_some _h

/-- A harvest as a step: its tokens count only if nothing went wrong. -/
def Harvest.toStep (h : Harvest) : Step Fault Lexer (List Token) :=
  match h.fault with
  | none => ⟨.ok h.tokens, h.lexer⟩
  | some e => ⟨.error e, h.lexer⟩

def tokensAndClose (skipDeleted : Bool) (s : Lexer) : Step Fault Lexer (List Token) :=
  (s.harvest skipDeleted none).toStep.thenAlways close

end Lexer

structure Cursor where
  skipDeleted : Bool
  finished : Bool := false
  deriving DecidableEq

def Cursor.next (cursor : Cursor) (s : Lexer) : Step Fault (Cursor × Lexer) (Option Token) :=
  if cursor.finished then ⟨.ok none, (cursor, s)⟩
  else
    match s.nextKept cursor.skipDeleted with
    | ⟨.error e, s'⟩ => ⟨.error e, ({ cursor with finished := true }, s')⟩
    | ⟨.ok none, s'⟩ => ⟨.ok none, ({ cursor with finished := true }, s')⟩
    | ⟨.ok (some t), s'⟩ => ⟨.ok (some t), (cursor, s')⟩

end RpalLexer
