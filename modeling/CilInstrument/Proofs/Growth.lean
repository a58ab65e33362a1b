import CilInstrument.Proofs.Changes

/- What no action takes back. Code is only added at the end, a label that is placed stays
   where it is, the depth that is known of a label stays known, and the largest depth
   stays one that a header can state. Each is one case split over the changes, and holds
   of all runs, refused actions included. -/
namespace CilInstrument

/-- Code is only added at the end. -/
theorem Change.items_prefix {b b' : Builder} (h : Change b b') :
    b.code.items.toList <+: b'.code.items.toList := by
  have hpush : ∀ {c : Code} {item : CodeItem}, c = b.code →
      b.code.items.toList <+: (c.push item).items.toList := by
    intro c item hc
    rw [hc]
    exact ⟨[item], (Array.toList_push).symm⟩
  have hsame : ∀ {c : Code}, c = b.code → b.code.items.toList <+: c.items.toList := by
    intro c hc
    subst hc
    exact List.prefix_rfl
  cases h with
  | nothing => exact hsame rfl
  | refused _ _ => exact hsame rfl
  | instruction _ _ _ _ => exact hpush rfl
  | createLabel => exact hsame rfl
  | jump _ _ _ _ _ => exact hpush (Builder.code_meet _ _)
  | @place label _ _ _ _ => exact hsame (c := (b.resume label).code) (Builder.code_resume _ _)
  | resume _ _ _ => exact hsame (Builder.code_resume _ _)
  | region h =>
    obtain ⟨more, -, hitems⟩ := h.extended.items
    exact ⟨more, hitems.symm⟩
  | splice _ _ _ => exact hpush rfl

theorem size_le_of_prefix {b b' : Builder} (h : b.code.items.toList <+: b'.code.items.toList) :
    b.size ≤ b'.size := by
  obtain ⟨more, hmore⟩ := h
  unfold Builder.size
  rw [b.code.size_eq, b'.code.size_eq, ← hmore, CodeItem.totalSize_append]
  exact Nat.le_add_right _ _

/-- A label that is placed stays where it is, and a label is placed at the end of the code. -/
theorem Change.places {b b' : Builder} (h : Change b b') (label : Nat) :
    (∀ p, b.place label = some p → b'.place label = some p) ∧
    ∀ p, b'.place label = some p → b.place label = some p ∨ p = b.size := by
  have hsame : b'.place label = b.place label →
      (∀ p, b.place label = some p → b'.place label = some p) ∧
      ∀ p, b'.place label = some p → b.place label = some p ∨ p = b.size := by
    intro heq
    rw [heq]
    exact ⟨fun _ h => h, fun _ h => .inl h⟩
  cases h with
  | nothing => exact hsame rfl
  | refused _ _ => exact hsame rfl
  | instruction _ _ _ _ => exact hsame rfl
  | createLabel => exact hsame (b.place_addLabel label)
  | jump _ _ _ _ _ => exact hsame (Builder.place_meet _ _ label)
  | @place placed hlt hplace _ _ =>
    rw [Builder.place_put, Builder.place_resume]
    by_cases heq : placed = label
    · subst heq
      rw [if_pos ⟨rfl, by rw [Builder.size_labels_resume]; exact hlt⟩]
      refine ⟨fun p hp => ?_, fun p hp => ?_⟩
      · rw [hplace] at hp
        cases hp
      · cases hp
        exact .inr rfl
    · rw [if_neg fun h => heq h.1]
      exact ⟨fun _ h => h, fun _ h => .inl h⟩
  | resume _ _ _ => exact hsame (Builder.place_resume _ _ label)
  | region h => exact hsame (h.extended.place label)
  | splice _ _ _ => exact hsame rfl

/-- Once the depth at a label is known, it stays: who comes to the label later joins. -/
theorem Change.expected_of_some {b b' : Builder} (h : Change b b') {label d : Nat}
    (hd : b.expected label = some d) : b'.expected label = some d := by
  cases h with
  | nothing => exact hd
  | refused _ _ => exact hd
  | instruction _ _ _ _ => exact hd
  | createLabel =>
    rw [Builder.expected_addLabel]
    exact hd
  | @jump op k _ hlt _ _ hjoins =>
    exact Builder.expected_meet_of_joins (b := b.settle (b.landing op)) hlt hjoins hd
  | @place k hlt _ hjoins _ =>
    rw [Builder.expected_put]
    exact Builder.expected_resume_of_joins hlt hjoins hd
  | resume hlt hjoins _ => exact Builder.expected_resume_of_joins hlt hjoins hd
  | region h =>
    rw [h.extended.expected]
    exact hd
  | splice _ _ _ => exact hd

/-- The largest depth is one that a header can state. -/
theorem Change.maxDepth_le {b b' : Builder} (h : Change b b')
    (hb : b.maxDepth ≤ Builder.depthLimit) : b'.maxDepth ≤ Builder.depthLimit := by
  cases h with
  | nothing => exact hb
  | refused _ hlimit => exact Nat.le_trans hlimit (Nat.max_le.mpr ⟨hb, Nat.le_refl _⟩)
  | instruction _ _ _ hlimit => exact Nat.max_le.mpr ⟨hb, hlimit⟩
  | createLabel => exact hb
  | jump _ _ _ hlimit _ =>
    show Builder.maxDepth (Builder.meet _ _) ≤ _
    rw [Builder.meet_eq]
    exact Nat.max_le.mpr ⟨hb, hlimit⟩
  | place _ _ _ _ =>
    show Builder.maxDepth (Builder.resume _ _) ≤ _
    rw [Builder.resume_eq]
    exact hb
  | resume _ _ _ =>
    rw [Builder.resume_eq]
    exact hb
  | region h =>
    cases h with
    | startHandler _ _ => exact Nat.max_le.mpr ⟨hb, by decide⟩
    | _ => exact hb
  | splice _ _ _ => exact hb

/-- Clauses are only added behind the others, and are typed ones. -/
theorem Change.exceptions {b b' : Builder} (h : Change b b') :
    b'.exceptions = b.exceptions ∨
      ∃ clause, clause.flags = ExceptionClause.typed ∧ b'.exceptions = b.exceptions.add clause := by
  rcases h.regions with h | ⟨-, hsame⟩
  · cases h with
    | endHandler _ _ _ => exact .inr ⟨_, rfl, rfl⟩
    | _ => exact .inl rfl
  · exact .inl hsame

/-- The method's own code comes to stand at the end of the code, once. -/
theorem Change.spliceOffset {b b' : Builder} (h : Change b b') :
    b'.spliceOffset = b.spliceOffset ∨
      b.spliceOffset = none ∧ b'.spliceOffset = some b.size ∧ b.size < 0x100000000 := by
  cases h with
  | jump _ _ _ _ _ => exact .inl (Builder.spliceOffset_meet _ _)
  | place _ _ _ _ => exact .inl (Builder.spliceOffset_resume _ _)
  | resume _ _ _ => exact .inl (Builder.spliceOffset_resume _ _)
  | region h => exact .inl h.extended.spliceOffset
  | splice hnone _ hsize => exact .inr ⟨hnone, rfl, hsize⟩
  | _ => exact .inl rfl

/-- A step that marks a region appends nothing. -/
theorem Emit.Marking.keeps_code {σ α : Type} {x : Emit σ α} (h : Emit.Marking x) :
    Step.Keeps (fun s => s.builder.code) x := by
  intro s
  have hchange := h.change s
  show (x.after s).builder.code = s.builder.code
  generalize (x.after s).builder = b' at hchange
  cases hchange <;> rfl

namespace Action

variable {σ : Type} [Resolver σ]

/-- Code is only added at the end. -/
theorem items_prefix_run (acts : List (Action σ)) (s : Emission σ) :
    s.builder.code.items.toList <+: (run acts s).builder.code.items.toList :=
  run_respects (R := fun b b' => b.code.items.toList <+: b'.code.items.toList)
    (fun _ => List.prefix_rfl) .trans (fun h => h.items_prefix) acts s

theorem size_le_run (acts : List (Action σ)) (s : Emission σ) :
    s.builder.size ≤ (run acts s).builder.size :=
  size_le_of_prefix (items_prefix_run acts s)

theorem place_run_of_some (acts : List (Action σ)) {s : Emission σ} {label p : Nat}
    (h : s.builder.place label = some p) : (run acts s).builder.place label = some p :=
  run_keeps (P := fun b => b.place label = some p) (fun hchange => (hchange.places label).1 p) acts h

theorem expected_run_of_some (acts : List (Action σ)) {s : Emission σ} {label d : Nat}
    (h : s.builder.expected label = some d) : (run acts s).builder.expected label = some d :=
  run_keeps (P := fun b => b.expected label = some d) (fun hchange => hchange.expected_of_some)
    acts h

theorem maxDepth_le_run (acts : List (Action σ)) {s : Emission σ}
    (h : s.builder.maxDepth ≤ Builder.depthLimit) :
    (run acts s).builder.maxDepth ≤ Builder.depthLimit :=
  run_keeps (P := fun b => b.maxDepth ≤ Builder.depthLimit) (fun hchange => hchange.maxDepth_le)
    acts h

end Action

end CilInstrument
