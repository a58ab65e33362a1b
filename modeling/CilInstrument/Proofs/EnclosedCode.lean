import Mathlib.Logic.Relation
import CilInstrument.Proofs.Blocks
import CilInstrument.Proofs.Growth

/- Code that a caller hands over. It may do anything with the builder and ask the host
   anything, in any order and with any decisions in between, and it may go on after a step
   of its own was refused; all it can not do is change the builder other than by elementary
   steps (`Emit.Builds`). So whatever it does, what no change takes back stays: code,
   labels that are placed, and clauses (`Builder.Grows`). -/
namespace CilInstrument

open Step

/-- All that stays of a builder, however it is built on. -/
structure Builder.Grows (b b' : Builder) : Prop where
  items : b.code.items.toList <+: b'.code.items.toList
  /-- Labels are not moved. -/
  places : ∀ {label p}, b.place label = some p → b'.place label = some p
  labels : b.labels.size ≤ b'.labels.size
  inherited : b'.exceptions.inherited = b.exceptions.inherited
  /-- Clauses are only added behind the others. -/
  added : b.exceptions.added.toList <+: b'.exceptions.added.toList

namespace Builder.Grows

variable {b b' b'' : Builder}

theorem refl (b : Builder) : b.Grows b := ⟨List.prefix_rfl, id, Nat.le_refl _, rfl, List.prefix_rfl⟩

theorem trans (h : b.Grows b') (h' : b'.Grows b'') : b.Grows b'' where
  items := h.items.trans h'.items
  places hp := h'.places (h.places hp)
  labels := Nat.le_trans h.labels h'.labels
  inherited := h'.inherited.trans h.inherited
  added := h.added.trans h'.added

theorem size_le (h : b.Grows b') : b.size ≤ b'.size := size_le_of_prefix h.items

end Builder.Grows

/-! Labels. -/

/-- A new label can be jumped to, -/
theorem Builder.lt_size_addLabel (b : Builder) : b.labels.size < b.addLabel.labels.size := by
  unfold addLabel
  rw [Array.size_push]
  exact Nat.lt_succ_self _

/-- and nothing is known of it. -/
theorem Builder.expected_new (b : Builder) : b.addLabel.expected b.labels.size = none := by
  rw [expected_addLabel]
  unfold expected
  rw [Array.getElem?_eq_none (Nat.le_refl _)]
  rfl

theorem Builder.size_labels_meet (b : Builder) (label : Nat) :
    (b.meet label).labels.size = b.labels.size := by
  unfold Builder.meet Builder.expect
  split
  · exact Array.size_modify
  · rfl

/-- No label is taken back. -/
theorem Change.labels_size_le {b b' : Builder} (h : Change b b') :
    b.labels.size ≤ b'.labels.size := by
  cases h with
  | createLabel => exact Nat.le_of_lt b.lt_size_addLabel
  | @jump op label _ _ _ _ _ =>
    exact Nat.le_of_eq (Builder.size_labels_meet (b.settle (b.landing op)) label).symm
  | place _ _ _ _ =>
    exact Nat.le_of_eq (Array.size_modify.trans (Builder.size_labels_resume _ _)).symm
  | resume _ _ _ => exact Nat.le_of_eq (Builder.size_labels_resume _ _).symm
  | region h => exact Nat.le_of_eq (congrArg Array.size h.extended.labels).symm
  | _ => exact Nat.le_refl _

theorem Change.grows {b b' : Builder} (h : Change b b') : b.Grows b' where
  items := h.items_prefix
  places hp := (h.places _).1 _ hp
  labels := h.labels_size_le
  inherited := by
    rcases h.exceptions with hsame | ⟨clause, -, hadd⟩
    · rw [hsame]
    · rw [hadd]
      rfl
  added := by
    rcases h.exceptions with hsame | ⟨clause, -, hadd⟩
    · exact hsame ▸ List.prefix_rfl
    · rw [hadd]
      exact ⟨[clause], Array.toList_push.symm⟩

theorem Builder.Grows.of_changes {b b' : Builder} (h : Relation.ReflTransGen Change b b') :
    b.Grows b' := by
  induction h with
  | refl => exact .refl b
  | tail _ hlast ih => exact ih.trans hlast.grows

/-! Steps that are not about regions. -/

/-- Neither regions nor clauses are touched, and `size` bytes are added. -/
structure Builder.Adding (size : Nat) (b b' : Builder) : Prop where
  regions : b'.regions = b.regions
  exceptions : b'.exceptions = b.exceptions
  size_eq : b'.size = b.size + size

namespace Build

variable {b b' : Builder}

theorem jumpTo_adding {op : OpCode} {label : Nat} (h : (jumpTo op label).run b = .ok () b') :
    Builder.Adding (op.encoding.length + 4) b b' := by
  obtain ⟨-, -, -, -, -, rfl⟩ := jumpTo_ok.mp h
  have hmeet := Builder.meet_eq (b.settle (b.landing op)) label
  constructor
  · show (Builder.meet _ _).regions = _
    rw [hmeet]
    rfl
  · show (Builder.meet _ _).exceptions = _
    rw [hmeet]
    rfl
  · show (Builder.meet _ _).code.size + _ = _
    rw [Builder.code_meet]
    rfl

theorem placeLabel_adding {label : Nat} (h : (placeLabel label).run b = .ok () b') :
    Builder.Adding 0 b b' := by
  obtain ⟨-, -, -, -, rfl⟩ := placeLabel_ok.mp h
  have hresume := Builder.resume_eq b label
  constructor
  · show (Builder.resume _ _).regions = _
    rw [hresume]
  · show (Builder.resume _ _).exceptions = _
    rw [hresume]
  · show (Builder.resume _ _).code.size = _
    rw [Builder.code_resume]
    rfl

end Build

/-! Code that is handed over. -/

namespace Emit

variable {σ α β : Type}

/-- Whatever becomes of it, the code does to the builder what elementary steps do. -/
def Builds ⦃α : Type⦄ (x : Emit σ α) : Prop :=
  ∀ s, Relation.ReflTransGen Change s.builder (x.after s).builder

namespace Builds

variable {x : Emit σ α}

theorem of_madeOf (h : MadeOf Elementary x) : Builds x :=
  h.after (R := fun s t : Emission σ => Relation.ReflTransGen Change s.builder t.builder)
    (fun _ => .refl) .trans fun _ _ hx s => .single (hx.change s)

theorem bind {f : α → Emit σ β} (hx : Builds x) (hf : ∀ a, Builds (f a)) : Builds (x >>= f) := by
  intro s
  have hfirst := hx s
  rw [after_bind]
  cases hrun : x.run s with
  | ok a t =>
    rw [after_of_ok hrun] at hfirst
    exact hfirst.trans (hf a t)
  | error e t =>
    rw [after_of_error hrun] at hfirst
    exact hfirst

theorem grows (h : Builds x) {s t : Emission σ} {a : α} (hrun : x.run s = .ok a t) :
    s.builder.Grows t.builder := by
  rw [← after_of_ok hrun]
  exact .of_changes (h s)

end Builds

end Emit

end CilInstrument
