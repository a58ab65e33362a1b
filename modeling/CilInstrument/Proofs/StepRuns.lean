import CilInstrument.Step

/- Running steps: what each combinator does to a state, the state that a step leaves
   behind whatever its outcome, and steps that are put together from simpler ones. A
   relation that all the simple steps respect is respected by every step made of them
   (`MadeOf.after`, `MadeOf.ok`), and what they leave alone is left alone (`MadeOf.keeps`),
   so later modules argue about the simple ones only. -/
namespace CilInstrument.Step

variable {σ α β : Type}

theorem run_throw (e : Error) (s : σ) : (throw e : Step σ α).run s = .error e s := rfl

theorem run_ofExcept (x : Except Error α) (s : σ) :
    (ofExcept x : Step σ α).run s =
      match x with
      | .ok a => .ok a s
      | .error e => .error e s := by
  cases x <;> rfl

theorem run_ofExcept_ok {x : Except Error α} {s t : σ} {a : α} :
    (ofExcept x : Step σ α).run s = .ok a t ↔ x = .ok a ∧ t = s := by
  rw [run_ofExcept]
  cases x with
  | ok b =>
    constructor
    · intro h
      cases h
      exact ⟨rfl, rfl⟩
    · intro h
      obtain ⟨⟨rfl⟩, rfl⟩ := h
      rfl
  | error e => simp

theorem run_discard (x : Step σ α) (s : σ) :
    (discard x : Step σ PUnit).run s =
      match x.run s with
      | .ok _ s' => .ok () s'
      | .error e s' => .error e s' := by
  show EStateM.map _ x s = _
  unfold EStateM.map
  simp only [EStateM.run]
  cases x s <;> rfl

theorem discard_eq_bind (x : Step σ α) : (discard x : Step σ PUnit) = x >>= fun _ => pure () := by
  funext s
  show (discard x : Step σ PUnit).run s = (x >>= fun _ => pure ()).run s
  rw [run_discard, EStateM.run_bind]
  cases x.run s <;> rfl

/-- A composed step goes through exactly if both of its parts do. -/
theorem run_bind_ok {x : Step σ α} {f : α → Step σ β} {s s' : σ} {b : β} :
    (x >>= f).run s = .ok b s' ↔ ∃ a t, x.run s = .ok a t ∧ (f a).run t = .ok b s' := by
  rw [EStateM.run_bind]
  cases x.run s with
  | ok a t =>
    constructor
    · intro h
      exact ⟨a, t, rfl, h⟩
    · intro h
      obtain ⟨_, _, ⟨rfl, rfl⟩, h⟩ := h
      exact h
  | error e t => simp

/-- A composed step fails if one of its parts does; the first failure counts. -/
theorem run_bind_error {x : Step σ α} {f : α → Step σ β} {s s' : σ} {e : Error} :
    (x >>= f).run s = .error e s' ↔
      x.run s = .error e s' ∨ ∃ a t, x.run s = .ok a t ∧ (f a).run t = .error e s' := by
  rw [EStateM.run_bind]
  cases x.run s with
  | ok a t =>
    constructor
    · intro h
      exact .inr ⟨a, t, rfl, h⟩
    · intro h
      rcases h with h | ⟨_, _, ⟨rfl, rfl⟩, h⟩
      · cases h
      · exact h
  | error e' t => simp

/-- Composed results without a state, likewise. -/
theorem except_bind_ok {x : Except Error α} {f : α → Except Error β} {b : β} :
    x >>= f = .ok b ↔ ∃ a, x = .ok a ∧ f a = .ok b := by
  cases x with
  | ok a =>
    constructor
    · intro h
      exact ⟨a, rfl, h⟩
    · intro h
      obtain ⟨_, ⟨rfl⟩, h⟩ := h
      exact h
  | error e =>
    constructor
    · intro h
      cases h
    · intro h
      obtain ⟨_, ⟨⟩, _⟩ := h

/-- A composed result is an error exactly if one of its parts is; the first one counts. -/
theorem except_bind_error {x : Except Error α} {f : α → Except Error β} {e : Error} :
    x >>= f = .error e ↔ x = .error e ∨ ∃ a, x = .ok a ∧ f a = .error e := by
  cases x with
  | ok a =>
    constructor
    · intro h
      exact .inr ⟨a, rfl, h⟩
    · intro h
      rcases h with h | ⟨_, ⟨rfl⟩, h⟩
      · cases h
      · exact h
  | error e' =>
    constructor
    · intro h
      cases h
      exact .inl rfl
    · intro h
      rcases h with h | ⟨_, h, _⟩
      · cases h
        rfl
      · cases h

theorem except_map_ok {x : Except Error α} {f : α → β} {b : β} :
    x.map f = .ok b ↔ ∃ a, x = .ok a ∧ f a = b := by
  cases x <;> simp [Except.map]

theorem except_map_error {x : Except Error α} {f : α → β} {e : Error} :
    x.map f = .error e ↔ x = .error e := by
  cases x <;> simp [Except.map]

/-- A result of which something is known is there. -/
theorem exists_ok_of_map {ε : Type} {x : Except ε α} {f : α → β} {b : β}
    (h : x.toOption.map f = some b) : ∃ a, x = .ok a ∧ f a = b := by
  cases x with
  | ok a => exact ⟨a, rfl, Option.some.inj h⟩
  | error e => cases h

/-- What the step leaves behind, also if it fails. -/
def after (x : Step σ α) (s : σ) : σ :=
  match x.run s with
  | .ok _ s' => s'
  | .error _ s' => s'

/-- Whether the step goes through. -/
def succeeds (x : Step σ α) (s : σ) : Bool :=
  match x.run s with
  | .ok _ _ => true
  | .error _ _ => false

theorem after_of_ok {x : Step σ α} {s s' : σ} {a : α} (h : x.run s = .ok a s') :
    x.after s = s' := by
  simp only [after, h]

theorem after_of_error {x : Step σ α} {s s' : σ} {e : Error} (h : x.run s = .error e s') :
    x.after s = s' := by
  simp only [after, h]

theorem outcome_of_ok {x : Step σ α} {s s' : σ} {a : α} (h : x.run s = .ok a s') :
    x.outcome s = .ok a := by
  unfold outcome
  rw [show x s = .ok a s' from h]

theorem outcome_of_error {x : Step σ α} {s s' : σ} {e : Error} (h : x.run s = .error e s') :
    x.outcome s = .error e := by
  unfold outcome
  rw [show x s = .error e s' from h]

theorem succeeds_iff {x : Step σ α} {s : σ} :
    x.succeeds s = true ↔ ∃ a s', x.run s = .ok a s' := by
  unfold succeeds
  cases x.run s with
  | ok a t => simp
  | error e t => simp

/-- A step that goes through gives a result, and leaves `after` behind. -/
theorem exists_ok_of_succeeds {x : Step σ α} {s : σ} (h : x.succeeds s = true) :
    ∃ a, x.run s = .ok a (x.after s) := by
  obtain ⟨a, s', hrun⟩ := succeeds_iff.mp h
  exact ⟨a, by rw [after_of_ok hrun, hrun]⟩

theorem after_bind (x : Step σ α) (f : α → Step σ β) (s : σ) :
    (x >>= f).after s =
      match x.run s with
      | .ok a s' => (f a).after s'
      | .error _ s' => s' := by
  unfold after
  rw [EStateM.run_bind]
  cases x.run s <;> rfl

theorem after_discard (x : Step σ α) (s : σ) : (discard x : Step σ PUnit).after s = x.after s := by
  unfold after
  rw [run_discard]
  cases x.run s <;> rfl

theorem succeeds_discard (x : Step σ α) (s : σ) :
    (discard x : Step σ PUnit).succeeds s = x.succeeds s := by
  unfold succeeds
  rw [run_discard]
  cases x.run s <;> rfl

/-! Steps put together from simpler ones. -/

/-- What is so of both branches is so of the choice. -/
theorem of_ite {p : Step σ α → Prop} {c : Prop} [Decidable c] {x y : Step σ α} (hx : p x)
    (hy : p y) : p (if c then x else y) := by
  split
  · exact hx
  · exact hy

/-- A step that only looks at the state, fails, or does what steps of the kind `base` do,
one after the other. -/
inductive MadeOf (base : ∀ ⦃α : Type⦄, Step σ α → Prop) : ∀ {α : Type}, Step σ α → Prop
  | base {α : Type} {x : Step σ α} : base x → MadeOf base x
  | pure {α : Type} (a : α) : MadeOf base (pure a : Step σ α)
  | throw {α : Type} (e : Error) : MadeOf base (throw e : Step σ α)
  | get : MadeOf base (get : Step σ σ)
  | bind {α β : Type} {x : Step σ α} {f : α → Step σ β} :
    MadeOf base x → (∀ a, MadeOf base (f a)) → MadeOf base (x >>= f)

namespace MadeOf

variable {base base' : ∀ ⦃α : Type⦄, Step σ α → Prop}

theorem mono (hbase : ∀ ⦃α : Type⦄ (x : Step σ α), base x → base' x) {x : Step σ α}
    (h : MadeOf base x) : MadeOf base' x := by
  induction h with
  | base hx => exact .base (hbase _ hx)
  | pure a => exact .pure a
  | throw e => exact .throw e
  | get => exact .get
  | bind _ _ ihx ihf => exact .bind ihx ihf

theorem ofExcept (x : Except Error α) : MadeOf base (Step.ofExcept x : Step σ α) := by
  cases x with
  | ok a => exact .pure a
  | error e => exact .throw e

theorem discard {x : Step σ α} (hx : MadeOf base x) :
    MadeOf base (discard x : Step σ PUnit) := by
  rw [discard_eq_bind]
  exact .bind hx fun _ => .pure ()

theorem ite {c : Prop} [Decidable c] {x y : Step σ α} (hx : MadeOf base x) (hy : MadeOf base y) :
    MadeOf base (if c then x else y) := of_ite hx hy

/-- What all base steps do to the state, whatever their outcome, the composed step does. -/
theorem after {R : σ → σ → Prop} (hrefl : ∀ s, R s s)
    (htrans : ∀ {s t u}, R s t → R t u → R s u)
    (hbase : ∀ ⦃α : Type⦄ (x : Step σ α), base x → ∀ s, R s (x.after s)) {x : Step σ α}
    (h : MadeOf base x) (s : σ) : R s (x.after s) := by
  induction h generalizing s with
  | base hx => exact hbase _ hx s
  | pure a => exact hrefl s
  | throw e => exact hrefl s
  | get => exact hrefl s
  | @bind α β x f _ _ ihx ihf =>
    rw [after_bind]
    have hx := ihx s
    unfold Step.after at hx
    cases hrun : x.run s with
    | ok a t =>
      rw [hrun] at hx
      exact htrans hx (ihf a t)
    | error e t =>
      rw [hrun] at hx
      exact hx

/-- What all base steps that go through do to the state, the composed step does if it
goes through. -/
theorem ok {R : σ → σ → Prop} (hrefl : ∀ s, R s s)
    (htrans : ∀ {s t u}, R s t → R t u → R s u)
    (hbase : ∀ ⦃α : Type⦄ (x : Step σ α), base x → ∀ s a t, x.run s = .ok a t → R s t)
    {x : Step σ α} (h : MadeOf base x) {s t : σ} {a : α} (hrun : x.run s = .ok a t) : R s t := by
  induction h generalizing s t with
  | base hx => exact hbase _ hx s a t hrun
  | pure b =>
    cases hrun
    exact hrefl s
  | throw e => cases hrun
  | get =>
    cases hrun
    exact hrefl s
  | bind _ _ ihx ihf =>
    obtain ⟨b, u, hx, hf⟩ := run_bind_ok.mp hrun
    exact htrans (ihx hx) (ihf b hf)

end MadeOf

/-- The step leaves alone what `view` shows of the state, whatever its outcome. -/
def Keeps (view : σ → β) ⦃α : Type⦄ (x : Step σ α) : Prop := ∀ s, view (x.after s) = view s

/-- What all the simple steps leave alone, the step that is made of them does. -/
theorem MadeOf.keeps {view : σ → β} {x : Step σ α} (h : MadeOf (Keeps view) x) : Keeps view x :=
  h.after (R := fun s t => view t = view s) (fun _ => rfl) (fun hst htu => htu.trans hst)
    fun _ _ hx s => hx s

end CilInstrument.Step
