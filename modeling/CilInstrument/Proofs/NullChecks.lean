import CilInstrument.Proofs.KnownNames

/- Checks for null that print a message. A check comes back to the depth that it found where
   control falls through; where it does not, its label is reached all the same, with nothing
   on the stack (`Builder.checked`, `TokenTable.run_check`). Code with checks is compared with
   the code without them entry by entry, up to the names of the labels that are new
   (`TokenTable.Shows`), and code that may stand behind a check is code that does not mind
   one check more in front of it (`Build.Portable`). -/
namespace CilInstrument

open Step

/-! Labels that are created and placed. -/

theorem modify_push_size {α : Type} (a : Array α) (x : α) (f : α → α) :
    (a.push x).modify a.size f = a.push (f x) := by
  apply Array.ext_getElem?
  intro k
  rw [Array.getElem?_modify, Array.getElem?_push, Array.getElem?_push]
  by_cases h : a.size = k
  · subst h
    simp
  · simp [h, Ne.symm h]

namespace Build

variable {b : Builder}

/-- A jump to a new label is the first path that comes to it. -/
theorem run_jump_new {op : OpCode} (hop : op.operand = .branchTarget)
    (hflow : op.flow.isTerminal = false) (hpops : b.reachable = true → op.branchPops ≤ b.depth)
    (hlimit : b.landing op ≤ Builder.depthLimit) :
    (jump op).run b = .ok b.labels.size {
      b with
      code := b.code.push (.jump op b.labels.size)
      labels := b.labels.push ⟨none, if b.reachable then some (b.landing op) else none⟩
      depth := b.landing op
      maxDepth := max b.maxDepth (b.landing op) } := by
  have hjump := (jumpTo_ok (u := ()) (b := b.addLabel)).mpr
    ⟨hop, b.lt_size_addLabel, hpops, hlimit, fun _ => .inl b.expected_new, rfl⟩
  have hmeet : ((b.addLabel.settle (b.addLabel.landing op)).meet b.labels.size).labels =
      b.labels.push ⟨none, if b.reachable then some (b.landing op) else none⟩ := by
    unfold Builder.meet
    split
    · next hr =>
      rw [if_pos (show b.reachable = true from hr)]
      exact modify_push_size b.labels ⟨none, none⟩
        fun l => { l with depth := some (b.landing op) }
    · next hr =>
      rw [if_neg (show ¬b.reachable = true from hr)]
      rfl
  rw [run_jump, hjump, Builder.meet_eq, hmeet]
  simp only [Builder.append, hflow, Bool.not_false, Bool.and_true]
  rfl

/-- The label that was created last goes on for the paths that come to it. -/
theorem run_placeLabel_last (labels : Array Label) (expected : Option Nat)
    (hlabels : b.labels = labels.push ⟨none, expected⟩)
    (hjoins : b.reachable = true → expected = none ∨ expected = some b.depth)
    (hsize : b.size < 0x100000000) :
    (placeLabel labels.size).run b = .ok () {
      b with
      labels := labels.push ⟨some b.size, if b.reachable then some b.depth else expected⟩
      depth := if b.reachable then b.depth else expected.getD 0
      reachable := true } := by
  have hexpected : b.expected labels.size = expected := by simp [Builder.expected, hlabels]
  have hplace : b.place labels.size = none := by simp [Builder.place, hlabels]
  have hlt : labels.size < b.labels.size := by simp [hlabels]
  have hmeets : b.Joins labels.size b.depth := by
    unfold Builder.Joins
    rw [hexpected]
    exact hjoins
  rw [(placeLabel_ok (u := ())).mpr ⟨hlt, hplace, hmeets, hsize, rfl⟩]
  unfold Builder.put Builder.resume
  cases hr : b.reachable with
  | true =>
    unfold Builder.meet Builder.expect
    simp only [hr, if_true, hlabels, modify_push_size]
  | false =>
    simp only [Bool.false_eq_true, if_false, hlabels, modify_push_size, hexpected]

end Build

/-! The check. -/

/-- The code with more entries at its end. -/
def Code.pushAll (c : Code) (items : List CodeItem) : Code := items.foldl Code.push c

theorem Code.toList_pushAll (c : Code) (items : List CodeItem) :
    (c.pushAll items).items.toList = c.items.toList ++ items := by
  induction items generalizing c with
  | nil => exact (List.append_nil _).symm
  | cons item rest ih =>
    show ((c.push item).pushAll rest).items.toList = _
    rw [ih, push, Array.toList_push, List.append_assoc, List.singleton_append]

namespace TokenTable

/-- The instructions of a check for null that prints a message. -/
def checkItems (names : TokenTable) (message : String) (label : Nat) : List CodeItem :=
  [.instruction .dup .none ⟨1, 2⟩, .jump .brtrue label,
    .instruction .ldstr (.token (names.string message)) ⟨0, 1⟩,
    .instruction .call (.token (names.member RuntimeLibrary.writeLine)) ⟨1, 0⟩]

/-- Bytes of a check. -/
def checkSize : Nat := 16

/-- Prints a message if the value on the stack is null. -/
def check (names : TokenTable) (message : String) : Build Unit := do
  Build.emit .dup ⟨1, 2⟩ .none
  let notNull ← Build.jump .brtrue
  Build.emit .ldstr ⟨0, 1⟩ (.token (names.string message))
  Build.emit .call ⟨1, 0⟩ (.token (names.member RuntimeLibrary.writeLine))
  Build.placeLabel notNull

end TokenTable

namespace Builder

/-- There is a value that can be checked, and room for another one. -/
structure TakesCheck (b : Builder) : Prop where
  pops : 1 ≤ b.depth
  limit : b.depth < depthLimit

/-- The builder behind a check. Where control falls through, it stands as before; where it
does not, the label of the check is reached all the same, with nothing on the stack. -/
def checked (names : TokenTable) (message : String) (b : Builder) : Builder := {
  b with
  code := b.code.pushAll (names.checkItems message b.labels.size)
  labels := b.labels.push
    ⟨some (b.size + TokenTable.checkSize), if b.reachable then some b.depth else none⟩
  depth := if b.reachable then b.depth else 0
  maxDepth := max b.maxDepth (b.depth + 1)
  reachable := true }

end Builder

theorem TokenTable.run_check (names : TokenTable) (message : String) {b : Builder}
    (htakes : b.TakesCheck) (hsize : b.size + checkSize < 0x100000000) :
    (names.check message).run b = .ok () (b.checked names message) := by
  obtain ⟨hpops, hlimit⟩ := htakes
  have hd : b.depth - 1 + 1 = b.depth := Nat.sub_add_cancel hpops
  unfold check
  rw [EStateM.run_bind, Build.run_emit_through rfl .none (fun _ => hpops) (by
    show b.depth - 1 + 2 ≤ _
    omega)]
  dsimp only
  rw [EStateM.run_bind, Build.run_jump_new rfl rfl (fun _ => Nat.le_add_left _ _) (by
    show b.depth - 1 + 2 - 1 ≤ _
    omega)]
  dsimp only
  rw [EStateM.run_bind, Build.run_emit_through rfl _ (fun _ => Nat.zero_le _) (by
    show b.depth - 1 + 1 + 1 ≤ _
    omega)]
  dsimp only
  rw [EStateM.run_bind, Build.run_emit_through rfl _ (fun _ => Nat.le_add_left _ _) (by
    show b.depth - 1 + 1 ≤ _
    omega)]
  refine (Build.run_placeLabel_last b.labels
    (if b.reachable then some (b.depth - 1 + 1) else none) rfl ?_ ?_).trans ?_
  · intro hr
    exact .inr (if_pos hr)
  · exact hsize
  · have hmax : max (max (max (max b.maxDepth (b.depth - 1 + 2)) (b.depth - 1 + 1))
        (b.depth - 1 + 2)) (b.depth - 1 + 1) = max b.maxDepth (b.depth + 1) := by
      omega
    rw [Builder.checked, EStateM.Result.ok.injEq, Builder.mk.injEq]
    refine ⟨rfl, rfl, ?_, rfl, rfl, rfl, ?_, hmax, rfl⟩
    · show b.labels.push ⟨some (b.size + 16), if b.reachable then some (b.depth - 1 + 1) else
        if b.reachable then some (b.depth - 1 + 1) else none⟩ = _
      rw [hd]
      cases b.reachable <;> rfl
    · show (if b.reachable then b.depth - 1 + 1 else _) = _
      rw [hd]
      cases b.reachable <;> rfl

/-! Code with checks. -/

/-- The entry with other names for labels. -/
def CodeItem.relabel (ρ : Nat → Nat) : CodeItem → CodeItem
  | jump op label => jump op (ρ label)
  | item => item

theorem CodeItem.size_relabel (ρ : Nat → Nat) (item : CodeItem) :
    (item.relabel ρ).size = item.size := by
  cases item <;> rfl

theorem CodeItem.totalSize_relabel (ρ : Nat → Nat) (items : List CodeItem) :
    totalSize (items.map (relabel ρ)) = totalSize items := by
  induction items with
  | nil => rfl
  | cons item rest ih => rw [List.map_cons, totalSize_cons, totalSize_cons, size_relabel, ih]

/-- The first code is the second one without some checks, with labels named by `ρ`. -/
inductive TokenTable.Checked (names : TokenTable) (ρ : Nat → Nat) :
    List CodeItem → List CodeItem → Prop
  | nil : Checked names ρ [] []
  | keep (item : CodeItem) {rest rest' : List CodeItem} :
    Checked names ρ rest rest' → Checked names ρ (item :: rest) (item.relabel ρ :: rest')
  | check (message : String) (label : Nat) {rest rest' : List CodeItem} :
    Checked names ρ rest rest' → Checked names ρ rest (names.checkItems message label ++ rest')

namespace TokenTable.Checked

variable (names : TokenTable) (ρ : Nat → Nat)

theorem kept (items : List CodeItem) : Checked names ρ items (items.map (CodeItem.relabel ρ)) := by
  induction items with
  | nil => exact .nil
  | cons item rest ih => exact .keep item ih

theorem one (message : String) (label : Nat) :
    Checked names ρ [] (names.checkItems message label) := by
  rw [← List.append_nil (names.checkItems message label)]
  exact .check message label .nil

variable {names ρ}

theorem append {items items' rest rest' : List CodeItem} (h : Checked names ρ items items')
    (hrest : Checked names ρ rest rest') : Checked names ρ (items ++ rest) (items' ++ rest') := by
  induction h with
  | nil => exact hrest
  | keep item _ ih => exact .keep item ih
  | check message label _ ih =>
    rw [List.append_assoc]
    exact .check message label ih

end TokenTable.Checked

/-- From one builder on, the second run came to what the first one came to, and to checks. The
labels that there were keep their names. -/
def TokenTable.Shows (names : TokenTable) (b t t' : Builder) : Prop :=
  ∃ (ρ : Nat → Nat) (more more' : List CodeItem), Function.Injective ρ ∧
    (∀ label < b.labels.size, ρ label = label) ∧
    t.code.items.toList = b.code.items.toList ++ more ∧
    t'.code.items.toList = b.code.items.toList ++ more' ∧ names.Checked ρ more more'

theorem CodeItem.relabel_id (items : List CodeItem) : items.map (relabel id) = items := by
  induction items with
  | nil => rfl
  | cons item rest ih =>
    rw [List.map_cons, ih]
    cases item <;> rfl

theorem TokenTable.Shows.refl (names : TokenTable) {b t : Builder}
    (h : b.code.items.toList <+: t.code.items.toList) : names.Shows b t t := by
  obtain ⟨more, hmore⟩ := h
  refine ⟨id, more, more, Function.injective_id, fun _ _ => rfl, hmore.symm, hmore.symm, ?_⟩
  have hkept := Checked.kept names id more
  rw [CodeItem.relabel_id] at hkept
  exact hkept

/-! Code that may stand behind a check. -/

/-- The second builder has one check more than the first, and no other difference. -/
structure Builder.Ahead (b b' : Builder) : Prop where
  size : b'.size = b.size + TokenTable.checkSize
  labels : ∃ label, label.position.isSome = true ∧ b'.labels = b.labels.push label
  rest : b' = { b with code := b'.code, labels := b'.labels }

namespace Builder.Ahead

variable {b b' : Builder}

theorem depth (h : b.Ahead b') : b'.depth = b.depth := by rw [h.rest]

theorem reachable (h : b.Ahead b') : b'.reachable = b.reachable := by rw [h.rest]

end Builder.Ahead

/-- The names of labels if one more was created before the label `n`. -/
def skip (n label : Nat) : Nat := if label < n then label else label + 1

theorem skip_injective (n : Nat) : Function.Injective (skip n) := by
  intro k l h
  unfold skip at h
  split at h <;> split at h <;> omega

/-- Code that does the same behind one check more: it goes through alike, comes to the same
depth, and appends the same, up to the names of its own labels. It adds to the code only, and
leaves no depth beyond the limit if it found none. -/
structure Build.Portable (y : Build Unit) : Prop where
  items : ∀ b, b.code.items.toList <+: (y.after b).code.items.toList
  depth : ∀ {b t}, b.depth ≤ Builder.depthLimit → y.run b = .ok () t → t.depth ≤ Builder.depthLimit
  back : ∀ {b b' t'}, b.Ahead b' → (y.after b).size + TokenTable.checkSize < 0x100000000 →
    y.run b' = .ok () t' → ∃ t, y.run b = .ok () t
  forth : ∀ {b b' t}, b.Ahead b' → t.size + TokenTable.checkSize < 0x100000000 →
    y.run b = .ok () t →
    ∃ t' more, y.run b' = .ok () t' ∧ t'.depth = t.depth ∧ t'.reachable = t.reachable ∧
      t.code.items.toList = b.code.items.toList ++ more ∧
      t'.code.items.toList =
        b'.code.items.toList ++ more.map (CodeItem.relabel (skip b.labels.size))

namespace Build

theorem relabel_instructions {items : List CodeItem}
    (h : ∀ item ∈ items, ∃ op operand effect, item = CodeItem.instruction op operand effect)
    (ρ : Nat → Nat) : items.map (CodeItem.relabel ρ) = items := by
  induction items with
  | nil => rfl
  | cons item rest ih =>
    obtain ⟨op, operand, effect, rfl⟩ := h item List.mem_cons_self
    rw [List.map_cons, ih fun i hi => h i (List.mem_cons_of_mem _ hi)]
    rfl

theorem Steady.portable {y : Build Unit} (hy : Steady y) : Portable y where
  items := hy.items
  depth := hy.depth
  back hahead _ hrun := by
    obtain ⟨t, -, hrun', -⟩ := hy.alike hahead.depth.symm hahead.reachable.symm hrun
    exact ⟨t, hrun'⟩
  forth hahead _ hrun := by
    obtain ⟨t', more, hrun', hd, hr, hmore, hitems, hitems'⟩ :=
      hy.alike hahead.depth hahead.reachable hrun
    refine ⟨t', more, hrun', hd, hr, hitems, ?_⟩
    rw [relabel_instructions hmore]
    exact hitems'

/-- An instruction that falls through keeps the difference as it is. -/
theorem emit_ahead {op : OpCode} {effect : StackEffect} {operand : Operand} {b b' t : Builder}
    (hahead : b.Ahead b') (hrun : (emit op effect operand).run b = .ok () t) :
    ∃ t', (emit op effect operand).run b' = .ok () t' ∧ t.Ahead t' ∧
      t.labels = b.labels ∧
      t.code.items.toList = b.code.items.toList ++ [.instruction op operand effect] ∧
      t'.code.items.toList = b'.code.items.toList ++ [.instruction op operand effect] := by
  obtain ⟨hpops, hlimit, rfl⟩ := emit_ok.mp hrun
  rw [← hahead.depth] at hlimit
  rw [← hahead.depth, ← hahead.reachable] at hpops
  refine ⟨_, emit_ok.mpr ⟨hpops, hlimit, rfl⟩, ⟨?_, hahead.labels, ?_⟩, rfl,
    Array.toList_push, Array.toList_push⟩
  · show b'.size + _ = b.size + _ + _
    rw [hahead.size, Nat.add_right_comm]
  · rw [hahead.rest]
    rfl

/-- Portable code with an instruction in front of it, -/
theorem Portable.behind {y : Build Unit} (hy : Portable y) (op : OpCode) (effect : StackEffect)
    (operand : Operand) : Portable (do emit op effect operand; y) where
  items b := (items_bind ((Steady.emit op effect operand).items b) fun _ => hy.items).2
  depth hd hrun := by
    obtain ⟨_, t, hfirst, hrest⟩ := run_bind_ok.mp hrun
    exact hy.depth ((Steady.emit op effect operand).depth hd hfirst) hrest
  back hahead hsize hrun := by
    obtain ⟨_, t', hfirst', hrest'⟩ := run_bind_ok.mp hrun
    obtain ⟨t, -, hfirst, -⟩ := (Steady.emit op effect operand).alike hahead.depth.symm
      hahead.reachable.symm hfirst'
    obtain ⟨u', hfirst'', hbehind, -⟩ := emit_ahead hahead hfirst
    rw [hfirst'] at hfirst''
    cases hfirst''
    rw [after_bind, hfirst] at hsize
    obtain ⟨u, hrest⟩ := hy.back hbehind hsize hrest'
    exact ⟨u, run_bind_ok.mpr ⟨_, t, hfirst, hrest⟩⟩
  forth hahead hsize hrun := by
    obtain ⟨_, u, hfirst, hrest⟩ := run_bind_ok.mp hrun
    obtain ⟨u', hfirst', hbehind, hlabels, hitems, hitems'⟩ := emit_ahead hahead hfirst
    obtain ⟨t', more, hrest', hd, hr, hmore, hmore'⟩ := hy.forth hbehind hsize hrest
    refine ⟨t', .instruction op operand effect :: more, run_bind_ok.mpr ⟨_, u', hfirst', hrest'⟩,
      hd, hr, ?_, ?_⟩
    · rw [hmore, hitems, List.append_assoc]
      rfl
    · rw [hmore', hitems', hlabels, List.append_assoc]
      rfl

/-- and with steady code behind it. -/
theorem Portable.before {y z : Build Unit} (hy : Portable y) (hz : Steady z) :
    Portable (do y; z) where
  items b := (items_bind (hy.items b) fun _ => hz.items).2
  depth hd hrun := by
    obtain ⟨_, t, hfirst, hrest⟩ := run_bind_ok.mp hrun
    exact hz.depth (hy.depth hd hfirst) hrest
  back {b b' t'} hahead hsize hrun := by
    obtain ⟨_, u', hfirst', hrest'⟩ := run_bind_ok.mp hrun
    have hle := size_le_of_prefix (items_bind (g := fun _ => z) (hy.items b) fun _ => hz.items).1
    obtain ⟨u, hfirst⟩ := hy.back hahead (by omega) hfirst'
    rw [after_of_ok hfirst] at hle
    obtain ⟨v', -, hfirst'', hd, hr, -⟩ := hy.forth hahead (by omega) hfirst
    rw [hfirst'] at hfirst''
    cases hfirst''
    obtain ⟨t, -, hrest, -⟩ := hz.alike hd.symm hr.symm hrest'
    exact ⟨t, run_bind_ok.mpr ⟨_, u, hfirst, hrest⟩⟩
  forth {b b' t} hahead hsize hrun := by
    obtain ⟨_, u, hfirst, hrest⟩ := run_bind_ok.mp hrun
    have hle := size_le_of_prefix (hz.items u)
    rw [after_of_ok hrest] at hle
    obtain ⟨u', more, hfirst', hd, hr, hmore, hmore'⟩ := hy.forth hahead (by omega) hfirst
    obtain ⟨t', last, hrest', hd', hr', hlast, hitems, hitems'⟩ := hz.alike hd hr hrest
    refine ⟨t', more ++ last, run_bind_ok.mpr ⟨_, u', hfirst', hrest'⟩, hd', hr', ?_, ?_⟩
    · rw [hitems, hmore, List.append_assoc]
    · rw [hitems', hmore', List.map_append, relabel_instructions hlast, List.append_assoc]

end Build

end CilInstrument
