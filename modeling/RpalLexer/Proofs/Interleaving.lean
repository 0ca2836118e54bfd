import RpalLexer.Proofs.CallInvariant

/-!
# Many consumers of one lexer

Cursors hold nothing back: whatever a cursor takes from the lexer it gives out or passes over at
once. So any number of them, moved in any order and mixed with calls, see between them what calls
alone would see. Main statement: `interleaving_sees_calls`.
-/
namespace RpalLexer

def seen : Except Fault (Option Token) → List (Except Fault Token)
  | .ok none => []
  | .ok (some t) => [.ok t]
  | .error e => [.error e]

namespace Lexer

variable {s s' s₁ : Lexer} {outs outs' : List (Except Fault Token)} {skip : Bool} {n : Nat}

def outcomes : Nat → Lexer → List (Except Fault Token)
  | 0, _ => []
  | n + 1, s => seen s.nextToken.result ++ outcomes n s.nextToken.state

theorem outcomes_add (m k : Nat) (s : Lexer) :
    s.outcomes (m + k) = s.outcomes m ++ (s.afterCalls m).outcomes k := by
  induction m generalizing s with
  | zero => rw [Nat.zero_add, outcomes, afterCalls, List.nil_append]
  | succ m ih => rw [Nat.succ_add, outcomes, outcomes, afterCalls, ih, List.append_assoc]

theorem outcomes_of_not_hasMore (hm : s.hasMore = false) (n : Nat) : s.outcomes n = [] := by
  induction n with
  | zero => rfl
  | succ n ih =>
    rw [outcomes, nextToken_of_not_hasMore hm, ih]
    rfl

def Gives (s : Lexer) (outs : List (Except Fault Token)) (s' : Lexer) : Prop :=
  ∃ n, s' = s.afterCalls n ∧ outs = s.outcomes n

theorem Gives.refl (s : Lexer) : s.Gives [] s := ⟨0, rfl, rfl⟩

theorem Gives.trans (h : s.Gives outs s₁) (h' : s₁.Gives outs' s') :
    s.Gives (outs ++ outs') s' := by
  obtain ⟨m, rfl, rfl⟩ := h
  obtain ⟨k, rfl, rfl⟩ := h'
  exact ⟨m + k, (afterCalls_add m k s).symm, (outcomes_add m k s).symm⟩

theorem gives_nextToken (s : Lexer) : s.Gives (seen s.nextToken.result) s.nextToken.state :=
  ⟨1, rfl, by rw [outcomes, outcomes, List.append_nil]⟩

theorem gives_of_nextToken {result : Except Fault (Option Token)} (h : s.nextToken = ⟨result, s'⟩) :
    s.Gives (seen result) s' := by
  have hg := gives_nextToken s
  rwa [h] at hg

theorem Gives.outcomes_prefix (h : s.Gives outs s') (hm : s'.hasMore = false) (m : Nat) :
    s.outcomes m <+: outs := by
  obtain ⟨n, rfl, rfl⟩ := h
  rcases Nat.le_total m n with hle | hle
  · obtain ⟨d, rfl⟩ := Nat.exists_eq_add_of_le hle
    rw [outcomes_add]
    exact List.prefix_append _ _
  · obtain ⟨d, rfl⟩ := Nat.exists_eq_add_of_le hle
    refine ⟨[], ?_⟩
    rw [outcomes_add, outcomes_of_not_hasMore hm, List.append_nil, List.append_nil]

def passedOver (skip : Bool) (s : Lexer) : List Token :=
  if _hm : s.hasMore = true then
    match _h : s.nextToken with
    | ⟨.error _, _⟩ => []
    | ⟨.ok none, s'⟩ => passedOver skip s'
    | ⟨.ok (some t), s'⟩ => if skip && t.isDeleted then t :: passedOver skip s' else []
  else []
termination_by s.weight
decreasing_by all_goals exact weight_nextToken_lt _hm _h

theorem passedOver_of_not_hasMore (hm : s.hasMore = false) : s.passedOver skip = [] := by
  rw [passedOver]
  simp [hm]

theorem passedOver_of_error {e : Fault} (h : s.nextToken = ⟨.error e, s'⟩) :
    s.passedOver skip = [] := by
  rw [passedOver, h]
  simp

theorem passedOver_of_none (hm : s.hasMore = true) (h : s.nextToken = ⟨.ok none, s'⟩) :
    s.passedOver skip = s'.passedOver skip := by
  rw [passedOver, h]
  simp [hm]

theorem passedOver_of_some {t : Token} (hm : s.hasMore = true) (h : s.nextToken = ⟨.ok t, s'⟩) :
    s.passedOver skip = if skip && t.isDeleted then t :: s'.passedOver skip else [] := by
  rw [passedOver, h]
  simp [hm]

theorem gives_nextKept (skip : Bool) (s : Lexer) :
    s.Gives ((s.passedOver skip).map .ok ++ seen (s.nextKept skip).result)
      (s.nextKept skip).state := by
  fun_induction Lexer.nextKept skip s with
  | case1 s hm e s' hn =>
    rw [passedOver_of_error hn]
    exact gives_of_nextToken hn
  | case2 s hm s' hn ih =>
    rw [passedOver_of_none hm hn]
    exact (gives_of_nextToken hn).trans ih
  | case3 s hm t s' hn hd ih =>
    rw [passedOver_of_some hm hn, if_pos hd]
    exact (gives_of_nextToken hn).trans ih
  | case4 s hm t s' hn hd =>
    rw [passedOver_of_some hm hn, if_neg hd]
    exact gives_of_nextToken hn
  | case5 s hm =>
    rw [passedOver_of_not_hasMore (by simpa using hm)]
    exact .refl s

theorem isDeleted_of_mem_passedOver {t : Token} (h : t ∈ s.passedOver skip) :
    skip = true ∧ t.isDeleted = true := by
  fun_induction passedOver skip s with
  | case1 s hm e s' hn => cases h
  | case2 s hm s' hn ih => exact ih h
  | case3 s hm u s' hn hd ih =>
    rcases List.mem_cons.1 h with rfl | h
    · simpa using hd
    · exact ih h
  | case4 s hm u s' hn hd => cases h
  | case5 s hm => cases h

theorem not_isDeleted_of_nextKept {t : Token} (h : (s.nextKept skip).result = .ok (some t)) :
    ¬(skip = true ∧ t.isDeleted = true) := by
  fun_induction Lexer.nextKept skip s with
  | case1 s hm e s' hn => cases h
  | case2 s hm s' hn ih => exact ih h
  | case3 s hm u s' hn hd ih => exact ih h
  | case4 s hm u s' hn hd =>
    cases h
    simpa using hd
  | case5 s hm => cases h

theorem hasMore_of_nextKept_none (h : (s.nextKept skip).result = .ok none) :
    (s.nextKept skip).state.hasMore = false := by
  fun_induction Lexer.nextKept skip s with
  | case1 s hm e s' hn => cases h
  | case2 s hm s' hn ih => exact ih h
  | case3 s hm t s' hn hd ih => exact ih h
  | case4 s hm t s' hn hd => cases h
  | case5 s hm => simpa using hm

theorem deleted_of_nextKept_none {out : Except Fault Token}
    (h : (s.nextKept skip).result = .ok none) (hout : out ∈ s.outcomes n) :
    ∃ t, out = .ok t ∧ skip = true ∧ t.isDeleted = true := by
  have hg := gives_nextKept skip s
  rw [h, seen, List.append_nil] at hg
  have hpre := hg.outcomes_prefix (hasMore_of_nextKept_none h) n
  obtain ⟨t, ht, rfl⟩ := List.mem_map.1 (hpre.subset hout)
  exact ⟨t, rfl, isDeleted_of_mem_passedOver ht⟩

end Lexer

def Reply.seen : Reply → List (Except Fault Token)
  | .token result => RpalLexer.seen result
  | _ => []

def Request.made? : Request → Option Bool
  | .cursor skipDeleted => some skipDeleted
  | _ => none

namespace Session

variable {u : Session} {cursor : Cursor} {i : Nat}

def passedOver (u : Session) : Request → List Token
  | .advance index =>
    match u.cursors[index]? with
    | none => []
    | some cursor => if cursor.finished then [] else u.lexer.passedOver cursor.skipDeleted
  | _ => []

/-- All that the consumers see and pass over, in the order of the requests. -/
def history (u : Session) : List Request → List (Except Fault Token)
  | [] => []
  | q :: qs => (u.passedOver q).map .ok ++ (u.serve q).1.seen ++ history (u.serve q).2 qs

theorem passedOver_advance (hc : u.cursors[i]? = some cursor) : u.passedOver (.advance i) =
    if cursor.finished then [] else u.lexer.passedOver cursor.skipDeleted := by
  rw [passedOver, hc]

theorem gives_advance (u : Session) (i : Nat) :
    u.lexer.Gives ((u.passedOver (.advance i)).map .ok ++ (u.serve (.advance i)).1.seen)
      (u.serve (.advance i)).2.lexer := by
  cases hc : u.cursors[i]? with
  | none =>
    rw [passedOver, hc, serve_advance_of_none hc]
    exact .refl u.lexer
  | some cursor =>
    rw [passedOver_advance hc, serve_advance hc]
    by_cases hf : cursor.finished = true
    · rw [if_pos hf, Cursor.next_of_finished hf]
      exact .refl u.lexer
    · obtain ⟨finished, hnext, -⟩ := Cursor.next_of_not_finished hf u.lexer
      rw [if_neg hf, hnext]
      exact Lexer.gives_nextKept cursor.skipDeleted u.lexer

theorem gives_serve {q : Request} (hq : q ≠ .close) :
    u.lexer.Gives ((u.passedOver q).map .ok ++ (u.serve q).1.seen) (u.serve q).2.lexer := by
  cases q with
  | next => exact Lexer.gives_nextToken u.lexer
  | hasMore => exact .refl u.lexer
  | cursor skip => exact .refl u.lexer
  | advance index => exact gives_advance u index
  | close => exact absurd rfl hq

theorem gives_history {qs : List Request} (hqs : Request.close ∉ qs) :
    u.lexer.Gives (u.history qs) (u.after qs).lexer := by
  induction qs generalizing u with
  | nil => exact .refl u.lexer
  | cons q qs ih =>
    rw [List.mem_cons, not_or] at hqs
    apply Lexer.Gives.trans
    · apply gives_serve
      intro hq
      exact hqs.1 hq.symm
    · exact ih hqs.2

theorem finished_serve {q : Request} (hc : (u.serve q).2.cursors[i]? = some cursor)
    (hf : cursor.finished = true) :
    (∃ cursor, u.cursors[i]? = some cursor ∧ cursor.finished = true) ∨
    q = .advance i ∧ u.cursors[i]?.isSome = true ∧ ∀ t, (u.serve q).1 ≠ .token (.ok (some t)) := by
  cases q with
  | next => exact Or.inl ⟨cursor, hc, hf⟩
  | hasMore => exact Or.inl ⟨cursor, hc, hf⟩
  | close => exact Or.inl ⟨cursor, hc, hf⟩
  | cursor skip =>
    change (u.cursors ++ [_])[i]? = some cursor at hc
    by_cases hi : i < u.cursors.length
    · rw [List.getElem?_append_left hi] at hc
      exact Or.inl ⟨cursor, hc, hf⟩
    · rw [List.getElem?_append_right (Nat.le_of_not_lt hi)] at hc
      obtain rfl := List.mem_singleton.1 (List.mem_of_getElem? hc)
      cases hf
  | advance j =>
    cases hj : u.cursors[j]? with
    | none =>
      rw [serve_advance_of_none hj] at hc
      exact Or.inl ⟨cursor, hc, hf⟩
    | some moved =>
      rw [serve_advance hj] at hc ⊢
      by_cases hij : j = i
      · subst hij
        obtain ⟨hlt, -⟩ := List.getElem?_eq_some_iff.1 hj
        rw [List.getElem?_set_self hlt] at hc
        cases hc
        by_cases hm : moved.finished = true
        · exact Or.inl ⟨moved, hj, hm⟩
        -- This request finished it, so it gave no token.
        · obtain ⟨finished, hnext, hn⟩ := Cursor.next_of_not_finished hm u.lexer
          rw [hnext] at hf ⊢
          right
          refine ⟨rfl, by rw [hj]; rfl, fun t ht => ?_⟩
          exact hn hf t (Reply.token.inj ht)
      · rw [List.getElem?_set_ne hij] at hc
        exact Or.inl ⟨cursor, hc, hf⟩

/-- The cursor was moved before without giving a token. -/
def StoppedIn (u : Session) (i : Nat) (qs : List Request) : Prop :=
  ∃ earlier later, qs = earlier ++ .advance i :: later ∧
    (u.after earlier).cursors[i]?.isSome = true ∧
    ∀ t, ((u.after earlier).serve (.advance i)).1 ≠ .token (.ok (some t))

theorem finished_after {qs : List Request} (hc : (u.after qs).cursors[i]? = some cursor)
    (hf : cursor.finished = true) :
    (∃ cursor, u.cursors[i]? = some cursor ∧ cursor.finished = true) ∨ u.StoppedIn i qs := by
  induction qs generalizing u with
  | nil => exact Or.inl ⟨cursor, hc, hf⟩
  | cons q qs ih =>
    rcases ih hc with ⟨cursor, hc, hf⟩ | ⟨earlier, later, rfl, hmade, hstop⟩
    · rcases finished_serve hc hf with hf | ⟨rfl, hmade, hstop⟩
      · exact Or.inl hf
      · exact Or.inr ⟨[], qs, rfl, hmade, hstop⟩
    · exact Or.inr ⟨q :: earlier, later, rfl, hmade, hstop⟩

theorem skipDeleted_next (cursor : Cursor) (s : Lexer) :
    (cursor.next s).state.1.skipDeleted = cursor.skipDeleted := by
  by_cases hf : cursor.finished = true
  · rw [Cursor.next_of_finished hf]
  · obtain ⟨finished, hnext, -⟩ := Cursor.next_of_not_finished hf s
    rw [hnext]

theorem flags_serve (u : Session) (q : Request) :
    (u.serve q).2.cursors.map Cursor.skipDeleted =
      u.cursors.map Cursor.skipDeleted ++ q.made?.toList := by
  cases q with
  | next => exact (List.append_nil _).symm
  | hasMore => exact (List.append_nil _).symm
  | close => exact (List.append_nil _).symm
  | cursor skip => exact List.map_append
  | advance j =>
    change _ = _ ++ []
    rw [List.append_nil]
    cases hj : u.cursors[j]? with
    | none => rw [serve_advance_of_none hj]
    | some moved =>
      obtain ⟨hlt, hmoved⟩ := List.getElem?_eq_some_iff.1 hj
      have hlt' : j < (u.cursors.map Cursor.skipDeleted).length := by rwa [List.length_map]
      have hset := List.set_getElem_self hlt'
      rw [List.getElem_map, hmoved] at hset
      rw [serve_advance hj, List.map_set, skipDeleted_next, hset]

theorem flags_after (u : Session) (qs : List Request) :
    (u.after qs).cursors.map Cursor.skipDeleted =
      u.cursors.map Cursor.skipDeleted ++ qs.filterMap Request.made? := by
  induction qs generalizing u with
  | nil => exact (List.append_nil _).symm
  | cons q qs ih =>
    rw [after, ih, flags_serve, List.append_assoc, List.filterMap_cons]
    cases q.made? with
    | none => rfl
    | some skip => rfl

theorem stopped_or_deleted {qs : List Request} (hu : u.cursors = [])
    (hc : (u.after qs).cursors[i]? = some cursor)
    (hstop : ((u.after qs).serve (.advance i)).1 = .token (.ok none)) :
    u.StoppedIn i qs ∨ ∀ n, ∀ out ∈ (u.after qs).lexer.outcomes n,
      ∃ t, out = .ok t ∧ cursor.skipDeleted = true ∧ t.isDeleted = true := by
  by_cases hf : cursor.finished = true
  · left
    rcases finished_after hc hf with ⟨cursor, hc, -⟩ | h
    · simp [hu] at hc
    · exact h
  · right
    intro n out hout
    obtain ⟨finished, hnext, -⟩ := Cursor.next_of_not_finished hf (u.after qs).lexer
    rw [serve_advance hc, hnext] at hstop
    exact Lexer.deleted_of_nextKept_none (Reply.token.inj hstop) hout

end Session

/-- Any number of cursors, made and moved at any time, and calls in between: what they all see, with
the tokens that were passed over in their places, is what the first so many calls alone would give.
If there is no more, it is all that calls would ever give. A cursor passes over deleted tokens only,
does not give one that it should pass over, and stops only if it stopped or failed before or there
is nothing left that it would give. -/
theorem interleaving_sees_calls (s : Lexer) {requests : List Request}
    (h : Request.close ∉ requests) :
    let start := Session.mk s []
    let u := start.after requests
    (∃ n, u.lexer = s.afterCalls n ∧ start.history requests = s.outcomes n ∧
      ∀ m, n ≤ m → start.history requests <+: s.outcomes m) ∧
    (u.lexer.hasMore = false → ∀ m, s.outcomes m <+: start.history requests) ∧
    u.cursors.map Cursor.skipDeleted = requests.filterMap Request.made? ∧
    ∀ i cursor, u.cursors[i]? = some cursor →
      (∀ t ∈ u.passedOver (.advance i), cursor.skipDeleted = true ∧ t.isDeleted = true) ∧
      (∀ t, (u.serve (.advance i)).1 = .token (.ok (some t)) →
        ¬(cursor.skipDeleted = true ∧ t.isDeleted = true)) ∧
      ((u.serve (.advance i)).1 = .token (.ok none) →
        start.StoppedIn i requests ∨ ∀ n, ∀ out ∈ u.lexer.outcomes n,
          ∃ t, out = .ok t ∧ cursor.skipDeleted = true ∧ t.isDeleted = true) := by
  intro start u
  have hgives : s.Gives (start.history requests) u.lexer := Session.gives_history h
  refine ⟨?_, hgives.outcomes_prefix, start.flags_after requests, ?_⟩
  · obtain ⟨n, hs, ho⟩ := hgives
    refine ⟨n, hs, ho, fun m hm => ?_⟩
    obtain ⟨d, rfl⟩ := Nat.exists_eq_add_of_le hm
    rw [ho, Lexer.outcomes_add]
    exact List.prefix_append _ _
  · intro i cursor hc
    refine ⟨fun t ht => ?_, fun t ht => ?_, Session.stopped_or_deleted rfl hc⟩
    · rw [Session.passedOver_advance hc] at ht
      split at ht
      · cases ht
      · exact Lexer.isDeleted_of_mem_passedOver ht
    · rw [Session.serve_advance hc] at ht
      have ht := Reply.token.inj ht
      by_cases hf : cursor.finished = true
      · rw [Cursor.next_of_finished hf] at ht
        cases ht
      · obtain ⟨finished, hnext, -⟩ := Cursor.next_of_not_finished hf u.lexer
        rw [hnext] at ht
        exact Lexer.not_isDeleted_of_nextKept ht

theorem interleaving_of_two_cursors :
    let s := Lexer.ofString "a (b" "a.rpal" {}
    let requests := [.cursor true, .advance 0, .cursor false, .advance 0, .next, .advance 1]
    Request.close ∉ requests ∧ ∀ m, s.outcomes m <+: (Session.mk s []).history requests := by
  intro s requests
  have hclose : Request.close ∉ requests := by simp [requests]
  obtain ⟨-, hall, -⟩ := interleaving_sees_calls s hclose
  refine ⟨hclose, hall ?_⟩
  decide +kernel

end RpalLexer
