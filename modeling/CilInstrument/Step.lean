import CilInstrument.Error

/- Steps on a state. A step that fails still leaves a state behind: what it did before
   it failed stays done, and a caller may go on from there. -/
namespace CilInstrument

/-- A step on a state of type `σ`, with a result of type `α` or an error. -/
abbrev Step (σ : Type) := EStateM Error σ

namespace Step

variable {σ α : Type}

/-- A result that leaves the state alone. -/
def ofExcept : Except Error α → Step σ α
  | .ok a => pure a
  | .error e => throw e

/-- What the step gives, without the state that it leaves. -/
def outcome (step : Step σ α) (s : σ) : Except Error α :=
  match step s with
  | .ok a _ => .ok a
  | .error e _ => .error e

/-- The step as often as `count` says; the results in order. -/
def collect (count : Nat) (step : Step σ α) : Step σ (List α) :=
  go count #[]
where
  go : Nat → Array α → Step σ (List α)
    | 0, found => pure found.toList
    | count + 1, found => do
      let a ← step
      go count (found.push a)

@[simp] theorem ofExcept_ok (a : α) (s : σ) : ofExcept (.ok a) s = .ok a s := rfl

@[simp] theorem ofExcept_error (e : Error) (s : σ) :
    (ofExcept (.error e) : Step σ α) s = .error e s := rfl

end Step

end CilInstrument
