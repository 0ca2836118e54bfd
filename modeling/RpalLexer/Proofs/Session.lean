import RpalLexer.Proofs.Simulation
import RpalLexer.Proofs.Tokenization

/-!
# Sessions

What a user does with one lexer, request after request: calls for a token, questions whether there
is more, any number of cursors made and moved at any time, closings. Main statement: over readers
that cannot be told apart all replies are the same (`Session.Twin.replies_eq`).
-/
namespace RpalLexer

inductive Request where
  | next
  | hasMore
  | cursor (skipDeleted : Bool)
  | advance (index : Nat)
  | close

inductive Reply where
  | token (result : Except Fault (Option Token))
  | more (answer : Bool)
  | done (result : Except Fault Unit)

structure Session where
  lexer : Lexer
  cursors : List Cursor := []

namespace Session

def serve (u : Session) : Request → Reply × Session
  | .next => (.token u.lexer.nextToken.result, { u with lexer := u.lexer.nextToken.state })
  | .hasMore => (.more u.lexer.hasMore, u)
  | .cursor skipDeleted =>
    (.done (.ok ()), { u with cursors := u.cursors ++ [{ skipDeleted }] })
  | .advance index =>
    match u.cursors[index]? with
    | none => (.token (.ok none), u)
    | some cursor =>
      let step := cursor.next u.lexer
      (.token step.result, ⟨step.state.2, u.cursors.set index step.state.1⟩)
  | .close => (.done u.lexer.close.result, { u with lexer := u.lexer.close.state })

def replies (u : Session) : List Request → List Reply
  | [] => []
  | q :: qs => (u.serve q).1 :: replies (u.serve q).2 qs

def after (u : Session) : List Request → Session
  | [] => u
  | q :: qs => after (u.serve q).2 qs

end Session

variable {R : Reader → Reader → Prop} (hR : Reader.Bisimulation R)

namespace Lexer

variable {s s' s₁ : Lexer} {skip : Bool}

theorem nextKept_of_error {e : Fault} (hm : s.hasMore = true) (h : s.nextToken = ⟨.error e, s₁⟩) :
    s.nextKept skip = ⟨.error e, s₁⟩ := by
  rw [nextKept, h]
  simp [hm]

include hR

theorem Twin.nextKept (skip : Bool) (h : s.Twin R s') :
    Step.Match (Twin R) (s.nextKept skip) (s'.nextKept skip) := by
  fun_induction Lexer.nextKept skip s generalizing s' with
  | case1 s hm e s₁ hn =>
    obtain ⟨s₁', hn', h₁⟩ := (h.nextToken hR).exists_eq hn
    rw [nextKept_of_error ((h.toBeside.hasMore hR).trans hm) hn']
    exact ⟨rfl, h₁⟩
  | case2 s hm s₁ hn ih =>
    obtain ⟨s₁', hn', h₁⟩ := (h.nextToken hR).exists_eq hn
    rw [nextKept_of_none ((h.toBeside.hasMore hR).trans hm) hn']
    exact ih h₁
  | case3 s hm t s₁ hn hd ih =>
    obtain ⟨s₁', hn', h₁⟩ := (h.nextToken hR).exists_eq hn
    rw [nextKept_of_some ((h.toBeside.hasMore hR).trans hm) hn', if_pos hd]
    exact ih h₁
  | case4 s hm t s₁ hn hd =>
    obtain ⟨s₁', hn', h₁⟩ := (h.nextToken hR).exists_eq hn
    rw [nextKept_of_some ((h.toBeside.hasMore hR).trans hm) hn', if_neg hd]
    exact ⟨rfl, h₁⟩
  | case5 s hm =>
    have hm' : s'.hasMore = false := by simpa [h.toBeside.hasMore hR] using hm
    rw [nextKept_of_not_hasMore hm']
    exact ⟨rfl, h⟩

end Lexer

include hR in
theorem Cursor.next_match (cursor : Cursor) {s s' : Lexer} (h : s.Twin R s') :
    Step.Match (fun p p' => p'.1 = p.1 ∧ p.2.Twin R p'.2) (cursor.next s) (cursor.next s') := by
  cases hf : cursor.finished with
  | true =>
    simp only [Cursor.next, hf, if_true]
    exact ⟨rfl, rfl, h⟩
  | false =>
    cases hk : s.nextKept cursor.skipDeleted with
    | mk result s₁ =>
      obtain ⟨s₁', hk', h₁⟩ := (h.nextKept hR cursor.skipDeleted).exists_eq hk
      simp only [Cursor.next, hf, hk, hk']
      match result with
      | .ok (some t) => exact ⟨rfl, rfl, h₁⟩
      | .ok none => exact ⟨rfl, rfl, h₁⟩
      | .error e => exact ⟨rfl, rfl, h₁⟩

namespace Session

structure Twin (R : Reader → Reader → Prop) (u u' : Session) : Prop where
  lexer : u.lexer.Twin R u'.lexer
  cursors : u'.cursors = u.cursors

variable {u u' : Session}

include hR

theorem Twin.advance (h : u.Twin R u') (index : Nat) :
    (u'.serve (.advance index)).1 = (u.serve (.advance index)).1 ∧
      (u.serve (.advance index)).2.Twin R (u'.serve (.advance index)).2 := by
  simp only [serve, h.cursors]
  cases u.cursors[index]? with
  | none => exact ⟨rfl, h⟩
  | some cursor =>
    obtain ⟨hresult, hcursor, hlexer⟩ := cursor.next_match hR h.lexer
    exact ⟨congrArg Reply.token hresult, hlexer, congrArg (u.cursors.set index) hcursor⟩

theorem Twin.serve (h : u.Twin R u') (q : Request) :
    (u'.serve q).1 = (u.serve q).1 ∧ (u.serve q).2.Twin R (u'.serve q).2 := by
  cases q with
  | next =>
    obtain ⟨hresult, hstate⟩ := h.lexer.nextToken hR
    exact ⟨congrArg Reply.token hresult, hstate, h.cursors⟩
  | hasMore => exact ⟨congrArg Reply.more (h.lexer.toBeside.hasMore hR), h⟩
  | cursor skip => exact ⟨rfl, h.lexer, congrArg (· ++ [_]) h.cursors⟩
  | advance index => exact h.advance hR index
  | close =>
    obtain ⟨hresult, hstate⟩ := h.lexer.close hR
    exact ⟨congrArg Reply.done hresult, hstate, h.cursors⟩

theorem Twin.after (h : u.Twin R u') (qs : List Request) : (u.after qs).Twin R (u'.after qs) := by
  induction qs generalizing u u' with
  | nil => exact h
  | cons q qs ih => exact ih (h.serve hR q).2

theorem Twin.replies_eq (h : u.Twin R u') (qs : List Request) : u'.replies qs = u.replies qs := by
  induction qs generalizing u u' with
  | nil => rfl
  | cons q qs ih =>
    obtain ⟨hreply, hstate⟩ := h.serve hR q
    rw [replies, replies, hreply, ih hstate]

end Session
end RpalLexer
