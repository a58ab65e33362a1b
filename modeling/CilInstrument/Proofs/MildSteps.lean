import CilInstrument.Proofs.StepRuns

/- Steps whose failures are mild, which is to say not fatal. That is closed under everything
   that steps are put together with, so it is enough that each error that a program throws
   itself is a mild one. -/
namespace CilInstrument

/-- The computation fails with no fatal error. -/
def FailsMildly {α : Type} (x : Except Error α) : Prop := ∀ e, x = .error e → e.isFatal = false

namespace FailsMildly

variable {α β : Type}

theorem ok (a : α) : FailsMildly (.ok a) := by
  intro e h
  cases h

theorem error {e : Error} (h : e.isFatal = false) : FailsMildly (.error e : Except Error α) := by
  intro e' he
  cases he
  exact h

theorem bind {x : Except Error α} {f : α → Except Error β} (hx : FailsMildly x)
    (hf : ∀ a, FailsMildly (f a)) : FailsMildly (x >>= f) := by
  intro e h
  rcases Step.except_bind_error.mp h with h | ⟨a, -, h⟩
  · exact hx e h
  · exact hf a e h

theorem ite {c : Prop} [Decidable c] {x y : Except Error α} (hx : FailsMildly x)
    (hy : FailsMildly y) : FailsMildly (if c then x else y) := by
  split
  · exact hx
  · exact hy

theorem mapM {f : α → Except Error β} (hf : ∀ a, FailsMildly (f a)) (l : List α) :
    FailsMildly (l.mapM f) := by
  induction l with
  | nil => exact ok []
  | cons a rest ih =>
    rw [List.mapM_cons]
    exact bind (hf a) fun b => bind ih fun more => ok (b :: more)

end FailsMildly

namespace Step

variable {σ τ α β : Type}

/-- The step fails with no fatal error, in whatever state it is taken. -/
def Mild (x : Step σ α) : Prop := ∀ s e t, x.run s = .error e t → e.isFatal = false

namespace Mild

variable {x : Step σ α}

theorem outcome (h : Mild x) (s : σ) : FailsMildly (x.outcome s) := by
  intro e he
  cases hrun : x.run s with
  | ok a t =>
    rw [outcome_of_ok hrun] at he
    cases he
  | error e' t =>
    rw [outcome_of_error hrun] at he
    cases he
    exact h s _ t hrun

theorem pure (a : α) : Mild (Pure.pure a : Step σ α) := by
  intro s e t h
  cases h

theorem throw {e : Error} (h : e.isFatal = false) : Mild (throw e : Step σ α) := by
  intro s e' t h'
  cases h'
  exact h

theorem ofExcept {r : Except Error α} (h : FailsMildly r) : Mild (Step.ofExcept r : Step σ α) := by
  cases r with
  | ok a => exact .pure a
  | error e => exact .throw (h e rfl)

theorem get : Mild (MonadState.get : Step σ σ) := by
  intro s e t h
  cases h

theorem modify (f : σ → σ) : Mild (modify f : Step σ PUnit) := by
  intro s e t h
  cases h

theorem bind {f : α → Step σ β} (hx : Mild x) (hf : ∀ a, Mild (f a)) : Mild (x >>= f) := by
  intro s e t h
  rcases run_bind_error.mp h with h | ⟨a, u, -, h⟩
  · exact hx s e t h
  · exact hf a u e t h

theorem discard (hx : Mild x) : Mild (discard x : Step σ PUnit) := by
  intro s e t h
  rw [run_discard] at h
  cases hrun : x.run s with
  | ok a u =>
    rw [hrun] at h
    cases h
  | error e' u =>
    rw [hrun] at h
    cases h
    exact hx s _ _ hrun

theorem ite {c : Prop} [Decidable c] {y : Step σ α} (hx : Mild x) (hy : Mild y) :
    Mild (if c then x else y) := of_ite hx hy

/-- A condition is checked first. -/
theorem check {c : Prop} [Decidable c] {e : Error} (he : e.isFatal = false) (hx : Mild x) :
    Mild (if c then (MonadExcept.throw e : Step σ PUnit) >>= fun _ => x else x) :=
  .ite (.bind (.throw he) fun _ => hx) hx

/-- A step on a part of the state. -/
theorem lifted {y : Step τ α} (part : σ → τ) (put : σ → τ → σ)
    (hrun : ∀ s, x.run s = match y.run (part s) with
      | .ok a t => .ok a (put s t)
      | .error e t => .error e (put s t)) (hy : Mild y) : Mild x := by
  intro s e u h
  rw [hrun] at h
  cases hpart : y.run (part s) with
  | ok a t =>
    rw [hpart] at h
    cases h
  | error e' t =>
    rw [hpart] at h
    cases h
    exact hy _ _ _ hpart

theorem collect (hx : Mild x) (count : Nat) : Mild (Step.collect count x) := by
  have hgo : ∀ found, Mild (Step.collect.go x count found) := by
    induction count with
    | zero => exact fun found => .pure _
    | succ count ih => exact fun found => .bind hx fun a => ih _
  exact hgo #[]

end Mild

end Step

end CilInstrument
