import CilInstrument.Proofs.StepRuns

/- Steps that note what they go through. A traced step is a step together with the events on
   its way, for every state that it may start in; the events in front of a failure are noted
   as well, so they say what was done and not only what came of it. A program is traced by
   writing it down again with its notes; the steps of the two are the same. -/
namespace CilInstrument

/-- A step, and what it notes from each state on. -/
structure Traced (ε σ α : Type) where
  step : Step σ α
  log : σ → List ε

namespace Traced

variable {ε σ τ α β : Type}

instance : Monad (Traced ε σ) where
  pure a := ⟨pure a, fun _ => []⟩
  bind x f := {
    step := x.step >>= fun a => (f a).step
    log := fun s => x.log s ++
      match x.step.run s with
      | .ok a t => (f a).log t
      | .error _ _ => [] }

/-- A step that notes nothing. -/
def quiet (x : Step σ α) : Traced ε σ α := ⟨x, fun _ => []⟩

/-- Notes an event and does nothing. -/
def note (event : ε) : Traced ε σ Unit := ⟨pure (), fun _ => [event]⟩

/-- Runs `x` on a state of its own, which is gone when it is through. -/
def startingAt (start : τ) (x : Traced ε τ α) : Traced ε σ α where
  step := Step.ofExcept (x.step.outcome start)
  log := fun _ => x.log start

/-- The step as often as `count` says, the results in order, with all its notes. -/
def collect (count : Nat) (x : Traced ε σ α) : Traced ε σ (List α) :=
  go count #[]
where
  go : Nat → Array α → Traced ε σ (List α)
    | 0, found => pure found.toList
    | count + 1, found => do
      let a ← x
      go count (found.push a)

theorem step_bind (x : Traced ε σ α) (f : α → Traced ε σ β) :
    (x >>= f).step = x.step >>= fun a => (f a).step := rfl

section
variable {x : Traced ε σ α} {f : α → Traced ε σ β} {s t : σ} {a : α} {e : Error}

theorem log_bind_of_ok (h : x.step.run s = .ok a t) :
    (x >>= f).log s = x.log s ++ (f a).log t := by
  show x.log s ++ _ = _
  rw [h]

theorem log_bind_of_error (h : x.step.run s = .error e t) : (x >>= f).log s = x.log s := by
  show x.log s ++ _ = _
  rw [h, List.append_nil]

theorem run_bind_of_ok (h : x.step.run s = .ok a t) :
    (x >>= f).step.run s = (f a).step.run t := by
  rw [step_bind, EStateM.run_bind, h]

theorem run_bind_of_error (h : x.step.run s = .error e t) :
    (x >>= f).step.run s = .error e t := by
  rw [step_bind, EStateM.run_bind, h]

end

section
variable {x : Traced ε τ α} {start t : τ} {a : α} {e : Error}

theorem run_startingAt_of_ok (h : x.step.run start = .ok a t) (s : σ) :
    (startingAt start x : Traced ε σ α).step.run s = .ok a s := by
  show (Step.ofExcept (x.step.outcome start) : Step σ α).run s = _
  rw [Step.outcome_of_ok h]
  rfl

end

/-- All that is noted from the state on is of the kind. -/
def Notes (P : ε → Prop) (x : Traced ε σ α) (s : σ) : Prop := ∀ event ∈ x.log s, P event

namespace Notes

variable {P : ε → Prop} {x : Traced ε σ α} {f : α → Traced ε σ β} {s t : σ} {a : α} {e : Error}

theorem quiet (x : Step σ α) : Notes P (Traced.quiet x) s := fun _ h => absurd h List.not_mem_nil

theorem pure (a : α) : Notes P (Pure.pure a : Traced ε σ α) s := quiet _

theorem startingAt {x : Traced ε τ α} {start : τ} (h : Notes P x start) :
    Notes P (Traced.startingAt start x) s := h

theorem bind_of_ok (h : x.step.run s = .ok a t) :
    Notes P (x >>= f) s ↔ Notes P x s ∧ Notes P (f a) t := by
  unfold Notes
  rw [log_bind_of_ok h]
  exact List.forall_mem_append

theorem bind_of_error (h : x.step.run s = .error e t) : Notes P (x >>= f) s ↔ Notes P x s := by
  unfold Notes
  rw [log_bind_of_error h]

theorem bind (hx : Notes P x s) (hf : ∀ a t, x.step.run s = .ok a t → Notes P (f a) t) :
    Notes P (x >>= f) s := by
  cases h : x.step.run s with
  | ok a t => exact (bind_of_ok h).mpr ⟨hx, hf a t h⟩
  | error e t => exact (bind_of_error h).mpr hx

theorem ite {c : Prop} [Decidable c] {y : Traced ε σ α} (hx : c → Notes P x s)
    (hy : ¬c → Notes P y s) : Notes P (if c then x else y) s := by
  split
  · next hc => exact hx hc
  · next hc => exact hy hc

end Notes

end Traced

end CilInstrument
