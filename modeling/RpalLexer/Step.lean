/-!
An operation that changes a state and may fail. The new state is there in both cases: an operation
that fails has still happened.
-/
namespace RpalLexer

structure Step (ε σ α : Type) where
  result : Except ε α
  state : σ

namespace Step

variable {ε σ α : Type}

theorem eq_of_result {step : Step ε σ α} {result : Except ε α} (h : step.result = result) :
    step = ⟨result, step.state⟩ := by
  rw [← h]

def times (op : σ → Step ε σ α) : Nat → σ → Step ε σ (List α)
  | 0, s => ⟨.ok [], s⟩
  | n + 1, s =>
    match op s with
    | ⟨.error e, s'⟩ => ⟨.error e, s'⟩
    | ⟨.ok a, s'⟩ =>
      match times op n s' with
      | ⟨.error e, s''⟩ => ⟨.error e, s''⟩
      | ⟨.ok as, s''⟩ => ⟨.ok (a :: as), s''⟩

/-- Does `last` after the step, whatever came of it; a failure there takes the place of the
step's result. -/
def thenAlways (last : σ → Step ε σ Unit) (step : Step ε σ α) : Step ε σ α :=
  match last step.state with
  | ⟨.ok _, s⟩ => ⟨step.result, s⟩
  | ⟨.error e, s⟩ => ⟨.error e, s⟩

end Step
end RpalLexer
