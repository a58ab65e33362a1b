import CilInstrument.Code.Builder
import CilInstrument.Proofs.StepRuns

/- What each step of building does to the builder. For every step there is one lemma
   that says exactly when it goes through and what the builder is then, and one that
   says what may have changed if it is refused. Later modules use these lemmas and do
   not open the steps again. -/
namespace CilInstrument

namespace Builder

/-- The depth that the known paths to a label have. -/
def expected (b : Builder) (label : Nat) : Option Nat := b.labels[label]?.bind (·.depth)

/-- The builder once `depth` values are on the stack. -/
def settle (b : Builder) (depth : Nat) : Builder :=
  { b with depth, maxDepth := max b.maxDepth depth }

/-- The builder with one more entry; `falls` says whether control goes on behind it. -/
def append (b : Builder) (item : CodeItem) (falls : Bool) : Builder :=
  { b with code := b.code.push item, reachable := b.reachable && falls }

/-- The builder that expects `depth` on the paths to a label. -/
def expect (b : Builder) (label depth : Nat) : Builder :=
  { b with labels := b.labels.modify label fun l => { l with depth := some depth } }

/-- The builder with a label placed. -/
def put (b : Builder) (label position : Nat) : Builder :=
  { b with labels := b.labels.modify label fun l => { l with position := some position } }

/-- The builder with a new label, which stands nowhere yet. -/
def addLabel (b : Builder) : Builder := { b with labels := b.labels.push ⟨none, none⟩ }

/-- The builder after the path that stands here has come to a label. -/
def meet (b : Builder) (label : Nat) : Builder :=
  if b.reachable then b.expect label b.depth else b

/-- The builder that goes on at a label: on the path that stands here, or on the paths
that are known, or with nothing on the stack. -/
def resume (b : Builder) (label : Nat) : Builder :=
  if b.reachable then b.meet label
  else { b with depth := (b.expected label).getD 0, reachable := true }

/-- The path that stands here may come to a label: it is the first, or has the depth of
the others. -/
def Joins (b : Builder) (label depth : Nat) : Prop :=
  b.reachable = true → b.expected label = none ∨ b.expected label = some depth

theorem labels_get_of_lt {b : Builder} {label : Nat} (h : label < b.labels.size) :
    b.labels[label]? = some ⟨b.place label, b.expected label⟩ := by
  simp [place, expected, Array.getElem?_eq_getElem h]

theorem expected_eq_of_get {b : Builder} {label : Nat} {l : Label}
    (h : b.labels[label]? = some l) : b.expected label = l.depth := by
  simp [expected, h]

theorem place_eq_of_get {b : Builder} {label : Nat} {l : Label}
    (h : b.labels[label]? = some l) : b.place label = l.position := by
  simp [place, h]

theorem lt_of_get {b : Builder} {label : Nat} {l : Label} (h : b.labels[label]? = some l) :
    label < b.labels.size :=
  (Array.getElem?_eq_some_iff.mp h).1

/-- A label that is not part of the code stands nowhere. -/
theorem lt_of_place {b : Builder} {label p : Nat} (h : b.place label = some p) :
    label < b.labels.size := by
  obtain ⟨l, hl, -⟩ := Option.bind_eq_some_iff.mp h
  exact lt_of_get hl

theorem lt_of_expected {b : Builder} {label d : Nat} (h : b.expected label = some d) :
    label < b.labels.size := by
  obtain ⟨l, hl, -⟩ := Option.bind_eq_some_iff.mp h
  exact lt_of_get hl

@[simp] theorem place_expect (b : Builder) (label depth k : Nat) :
    (b.expect label depth).place k = b.place k := by
  simp only [place, expect, Array.getElem?_modify]
  split
  · next h => subst h; cases b.labels[label]? <;> rfl
  · rfl

theorem expected_expect (b : Builder) (label depth k : Nat) :
    (b.expect label depth).expected k =
      if label = k ∧ label < b.labels.size then some depth else b.expected k := by
  simp only [expected, expect, Array.getElem?_modify]
  by_cases h : label = k
  · subst h
    by_cases hlt : label < b.labels.size
    · simp [hlt]
    · simp [hlt]
  · simp [h]

theorem place_put (b : Builder) (label position k : Nat) :
    (b.put label position).place k =
      if label = k ∧ label < b.labels.size then some position else b.place k := by
  simp only [place, put, Array.getElem?_modify]
  by_cases h : label = k
  · subst h
    by_cases hlt : label < b.labels.size
    · simp [hlt]
    · simp [hlt]
  · simp [h]

@[simp] theorem expected_put (b : Builder) (label position k : Nat) :
    (b.put label position).expected k = b.expected k := by
  simp only [expected, put, Array.getElem?_modify]
  split
  · next h => subst h; cases b.labels[label]? <;> rfl
  · rfl

theorem size_labels_resume (b : Builder) (label : Nat) :
    (b.resume label).labels.size = b.labels.size := by
  unfold resume meet expect
  split
  · simp
  · rfl

/-- Coming to a label changes what is known of the labels, and nothing else. -/
theorem meet_eq (b : Builder) (label : Nat) :
    b.meet label = { b with labels := (b.meet label).labels } := by
  unfold meet
  split <;> rfl

/-- Going on at a label changes what is known of the labels and where the builder stands. -/
theorem resume_eq (b : Builder) (label : Nat) :
    b.resume label = {
      b with
      labels := (b.resume label).labels
      depth := (b.resume label).depth
      reachable := true } := by
  unfold resume
  split
  · next hr =>
    rw [meet_eq]
    simp [hr]
  · rfl

@[simp] theorem code_meet (b : Builder) (label : Nat) : (b.meet label).code = b.code := by
  rw [meet_eq]

@[simp] theorem code_resume (b : Builder) (label : Nat) : (b.resume label).code = b.code := by
  rw [resume_eq]

@[simp] theorem spliceOffset_meet (b : Builder) (label : Nat) :
    (b.meet label).spliceOffset = b.spliceOffset := by
  rw [meet_eq]

@[simp] theorem spliceOffset_resume (b : Builder) (label : Nat) :
    (b.resume label).spliceOffset = b.spliceOffset := by
  rw [resume_eq]

@[simp] theorem place_meet (b : Builder) (label k : Nat) :
    (b.meet label).place k = b.place k := by
  unfold meet
  split
  · exact place_expect b label b.depth k
  · rfl

@[simp] theorem place_resume (b : Builder) (label k : Nat) :
    (b.resume label).place k = b.place k := by
  unfold resume
  split
  · exact place_meet b label k
  · rfl

theorem expected_meet {b : Builder} {label : Nat} (hlt : label < b.labels.size) (k : Nat) :
    (b.meet label).expected k =
      if label = k ∧ b.reachable then some b.depth else b.expected k := by
  unfold meet
  by_cases hr : b.reachable = true
  · simp [hr, expected_expect, hlt]
  · simp [hr]

theorem expected_resume {b : Builder} {label : Nat} (hlt : label < b.labels.size) (k : Nat) :
    (b.resume label).expected k =
      if label = k ∧ b.reachable then some b.depth else b.expected k := by
  unfold resume
  by_cases hr : b.reachable = true
  · simp [hr, expected_meet hlt]
  · simp only [hr, and_false, if_false, Bool.false_eq_true]
    rfl

/-- What is known of a label stays known, if the path that stands here joins. -/
theorem expected_meet_of_joins {b : Builder} {label k d : Nat} (hlt : label < b.labels.size)
    (hjoins : b.Joins label b.depth) (h : b.expected k = some d) :
    (b.meet label).expected k = some d := by
  rw [expected_meet hlt]
  split
  · next hk =>
    obtain ⟨rfl, hr⟩ := hk
    rcases hjoins hr with hnone | hsome
    · rw [hnone] at h
      cases h
    · rw [← hsome, h]
  · exact h

theorem expected_resume_of_joins {b : Builder} {label k d : Nat} (hlt : label < b.labels.size)
    (hjoins : b.Joins label b.depth) (h : b.expected k = some d) :
    (b.resume label).expected k = some d := by
  rw [expected_resume hlt, ← expected_meet hlt]
  exact expected_meet_of_joins hlt hjoins h

@[simp] theorem place_addLabel (b : Builder) (k : Nat) : b.addLabel.place k = b.place k := by
  unfold place addLabel
  simp only [Array.getElem?_push]
  split
  · next hk =>
    subst hk
    simp
  · rfl

@[simp] theorem expected_addLabel (b : Builder) (k : Nat) :
    b.addLabel.expected k = b.expected k := by
  unfold expected addLabel
  simp only [Array.getElem?_push]
  split
  · next hk =>
    subst hk
    simp
  · rfl

/-- A path that may not come to a label has another depth than the known ones. -/
theorem not_joins {b : Builder} {label depth : Nat} (h : ¬b.Joins label depth) :
    ∃ d, b.reachable = true ∧ b.expected label = some d ∧ depth ≠ d := by
  unfold Joins at h
  rw [Classical.not_imp, not_or] at h
  obtain ⟨hr, hnone, hne⟩ := h
  cases hexp : b.expected label with
  | none => exact absurd hexp hnone
  | some d =>
    refine ⟨d, hr, rfl, ?_⟩
    rintro rfl
    exact hne hexp

/-- Expecting what is expected changes nothing. -/
theorem expect_of_expected {b : Builder} {label depth : Nat}
    (h : b.expected label = some depth) : b.expect label depth = b := by
  have hlabels : b.labels.modify label (fun l => { l with depth := some depth }) = b.labels := by
    apply Array.ext_getElem?
    intro k
    rw [Array.getElem?_modify]
    split
    · next hk =>
      subst hk
      cases hl : b.labels[label]? with
      | none => rfl
      | some l =>
        rw [expected_eq_of_get hl] at h
        simp [← h]
    · rfl
  simp only [expect, hlabels]

end Builder

namespace Build

open Step

variable {b b' : Builder} {u : Unit} {e : Error} {op : OpCode} {label : Nat}

/-! Positions and depths. -/

theorem run_position (b : Builder) :
    position.run b =
      if b.size < 0x100000000 then .ok b.size b
      else .error (.malformed (.valueTooLarge b.size)) b := by
  simp only [position, EStateM.run_bind, EStateM.run_get, run_ofExcept, codeOffset, Builder.size]
  by_cases h : b.code.size < 0x100000000
  · simp only [h, if_true]
  · simp only [h, if_false]

theorem run_applyEffect (op : OpCode) (effect : StackEffect) (b : Builder) :
    (applyEffect op effect).run b =
      if b.depth < effect.pops ∧ b.reachable then
        .error (.stackImbalance (.underflow op effect.pops b.depth)) b
      else if Builder.depthLimit < b.depth - effect.pops + effect.pushes then
        .error (.stackImbalance .overflow) { b with depth := b.depth - effect.pops + effect.pushes }
      else .ok () (b.settle (b.depth - effect.pops + effect.pushes)) := by
  unfold applyEffect
  simp only [EStateM.run_bind, EStateM.run_get]
  split
  · simp only [EStateM.run_bind, run_throw]
  · simp only [EStateM.run_bind, EStateM.run_modify]
    split
    · simp only [EStateM.run_bind, run_throw]
    · simp only [EStateM.run_modify, Builder.settle]

theorem applyEffect_ok {effect : StackEffect} :
    (applyEffect op effect).run b = .ok u b' ↔
      (b.reachable = true → effect.pops ≤ b.depth) ∧
      b.depth - effect.pops + effect.pushes ≤ Builder.depthLimit ∧
      b' = b.settle (b.depth - effect.pops + effect.pushes) := by
  rw [run_applyEffect]
  split
  · next hlow =>
    constructor
    · intro h
      cases h
    · intro h
      obtain ⟨hpops, -, -⟩ := h
      have := hpops hlow.2
      omega
  · next hlow =>
    have hpops : b.reachable = true → effect.pops ≤ b.depth := fun hr =>
      Nat.le_of_not_lt fun hlt => hlow ⟨hlt, hr⟩
    split
    · next hlimit =>
      constructor
      · intro h
        cases h
      · intro h
        obtain ⟨-, hle, -⟩ := h
        omega
    · next hlimit =>
      constructor
      · intro h
        cases h
        exact ⟨hpops, Nat.le_of_not_lt hlimit, rfl⟩
      · intro h
        obtain ⟨-, -, rfl⟩ := h
        rfl

theorem run_endFlow (op : OpCode) (b : Builder) :
    (endFlow op).run b = .ok () { b with reachable := b.reachable && !op.flow.isTerminal } := by
  unfold endFlow
  split
  · next h => simp [h]
  · next h => simp [h]

/-! Instructions and labels. -/

theorem run_emit (op : OpCode) (effect : StackEffect) (operand : Operand) (b : Builder) :
    (emit op effect operand).run b =
      match (applyEffect op effect).run b with
      | .ok _ b' => .ok () (b'.append (.instruction op operand effect) (!op.flow.isTerminal))
      | .error e b' => .error e b' := by
  unfold emit
  rw [EStateM.run_bind]
  cases (applyEffect op effect).run b with
  | ok u b' => simp only [EStateM.run_bind, EStateM.run_modify, run_endFlow, Builder.append]
  | error e b' => rfl

theorem emit_ok {effect : StackEffect} {operand : Operand} :
    (emit op effect operand).run b = .ok u b' ↔
      (b.reachable = true → effect.pops ≤ b.depth) ∧
      b.depth - effect.pops + effect.pushes ≤ Builder.depthLimit ∧
      b' = (b.settle (b.depth - effect.pops + effect.pushes)).append
        (.instruction op operand effect) (!op.flow.isTerminal) := by
  rw [run_emit]
  cases h : (applyEffect op effect).run b with
  | ok u b₁ =>
    obtain ⟨hpops, hlimit, rfl⟩ := applyEffect_ok.mp h
    constructor
    · intro h
      cases h
      exact ⟨hpops, hlimit, rfl⟩
    · intro h
      obtain ⟨-, -, rfl⟩ := h
      rfl
  | error e b₁ =>
    constructor
    · intro h
      cases h
    · intro h
      obtain ⟨hpops, hlimit, -⟩ := h
      have hok : (applyEffect op effect).run b = .ok () _ :=
        applyEffect_ok.mpr ⟨hpops, hlimit, rfl⟩
      rw [h] at hok
      cases hok

/-- An instruction that falls through, where the stack allows it. -/
theorem run_emit_through (hflow : op.flow.isTerminal = false) {effect : StackEffect}
    (operand : Operand) (hpops : b.reachable = true → effect.pops ≤ b.depth)
    (hlimit : b.depth - effect.pops + effect.pushes ≤ Builder.depthLimit) :
    (emit op effect operand).run b = .ok () {
      b with
      code := b.code.push (.instruction op operand effect)
      depth := b.depth - effect.pops + effect.pushes
      maxDepth := max b.maxDepth (b.depth - effect.pops + effect.pushes) } := by
  rw [(emit_ok (u := ())).mpr ⟨hpops, hlimit, rfl⟩]
  simp only [Builder.append, Builder.settle, hflow, Bool.not_false, Bool.and_true]

/-- Why an instruction is refused, and what is left then. -/
theorem emit_refused {effect : StackEffect} {operand : Operand} :
    (emit op effect operand).run b = .error e b' ↔
      (b.depth < effect.pops ∧ b.reachable = true) ∧
        e = .stackImbalance (.underflow op effect.pops b.depth) ∧ b' = b ∨
      ¬(b.depth < effect.pops ∧ b.reachable = true) ∧
        Builder.depthLimit < b.depth - effect.pops + effect.pushes ∧
        e = .stackImbalance .overflow ∧
        b' = { b with depth := b.depth - effect.pops + effect.pushes } := by
  rw [run_emit, run_applyEffect]
  by_cases hlow : b.depth < effect.pops ∧ b.reachable = true
  · simp [hlow, eq_comm]
  rw [if_neg hlow]
  by_cases hlimit : Builder.depthLimit < b.depth - effect.pops + effect.pushes
  · rw [if_pos hlimit]
    simp only [hlow, hlimit, not_false_eq_true, false_and, true_and, false_or,
      EStateM.Result.error.injEq, @eq_comm _ _ e, @eq_comm _ _ b']
  · rw [if_neg hlimit]
    simp [hlow, hlimit]

/-- A refused instruction may leave the depth changed, and nothing else. -/
theorem emit_error {effect : StackEffect} {operand : Operand}
    (h : (emit op effect operand).run b = .error e b') :
    (∃ fault, e = .stackImbalance fault) ∧ ∃ d, b' = { b with depth := d } := by
  rcases emit_refused.mp h with ⟨-, rfl, rfl⟩ | ⟨-, -, rfl, rfl⟩
  · exact ⟨⟨_, rfl⟩, b'.depth, rfl⟩
  · exact ⟨⟨_, rfl⟩, _, rfl⟩

theorem run_createLabel (b : Builder) :
    createLabel.run b = .ok b.labels.size b.addLabel := rfl

theorem run_labelAt (label : Nat) (b : Builder) :
    (labelAt label).run b =
      if label < b.labels.size then .ok ⟨b.place label, b.expected label⟩ b
      else .error (.unknownLabel label) b := by
  simp only [labelAt, EStateM.run_bind, EStateM.run_get]
  split
  · next l hl =>
    rw [if_pos (Builder.lt_of_get hl), Builder.place_eq_of_get hl, Builder.expected_eq_of_get hl]
    rfl
  · next hl =>
    rw [if_neg (Nat.not_lt.mpr (Array.getElem?_eq_none_iff.mp hl)), run_throw]

theorem run_setLabel {label : Nat} {l : Label} {f : Label → Label} {b : Builder}
    (hl : b.labels[label]? = some l) :
    (setLabel label (f l)).run b = .ok () { b with labels := b.labels.modify label f } := by
  have hlt := Builder.lt_of_get hl
  have hset : b.labels.setIfInBounds label (f l) = b.labels.modify label f := by
    apply Array.ext_getElem?
    intro k
    rw [Array.getElem?_setIfInBounds, Array.getElem?_modify]
    split
    · next hk =>
      subst hk
      obtain ⟨-, rfl⟩ := Array.getElem?_eq_some_iff.mp hl
      simp [hlt]
    · rfl
  simp only [setLabel, EStateM.run_modify, hset]

theorem run_meetLabel {label : Nat} {b : Builder} (hlt : label < b.labels.size) :
    (meetLabel label).run b =
      if b.reachable then
        match b.expected label with
        | some expected =>
          if expected ≠ b.depth then .error (.stackImbalance (.jump label b.depth expected)) b
          else .ok () b
        | none => .ok () (b.expect label b.depth)
      else .ok () b := by
  simp only [meetLabel, EStateM.run_bind, EStateM.run_get]
  split
  · simp only [EStateM.run_bind, run_labelAt, hlt, if_true]
    cases h : b.expected label with
    | some expected =>
      simp only
      split
      · rw [run_throw]
      · rw [EStateM.run_pure]
    | none =>
      exact run_setLabel (f := fun l => { l with depth := some b.depth })
        (Builder.labels_get_of_lt hlt)
  · rw [EStateM.run_pure]

/-- A path is let into a label exactly if it joins the paths that are known. -/
theorem meetLabel_ok (hlt : label < b.labels.size) :
    (meetLabel label).run b = .ok u b' ↔ b.Joins label b.depth ∧ b' = b.meet label := by
  rw [run_meetLabel hlt]
  unfold Builder.Joins Builder.meet
  by_cases hr : b.reachable = true
  · simp only [hr, if_true, true_implies]
    cases h : b.expected label with
    | none => simp [eq_comm]
    | some expected =>
      by_cases hd : expected = b.depth
      · subst hd
        simp [Builder.expect_of_expected h, eq_comm]
      · simp [hd]
  · simp [hr, eq_comm]

theorem run_meetLabel_apart {d : Nat} (hr : b.reachable = true) (hexp : b.expected label = some d)
    (hne : b.depth ≠ d) :
    (meetLabel label).run b = .error (.stackImbalance (.jump label b.depth d)) b := by
  rw [run_meetLabel (Builder.lt_of_expected hexp), if_pos hr, hexp]
  exact if_pos hne.symm

end Build

/-! Jumps. -/

/-- What a jump takes off the stack to decide whether it is taken. -/
def OpCode.branchPops : OpCode → Nat
  | .brfalse | .brtrue => 1
  | _ => 0

/-- The depth with which a jump comes to its label. -/
def Builder.landing (b : Builder) (op : OpCode) : Nat :=
  if op.flow = .leave then 0 else b.depth - op.branchPops

theorem Builder.landing_le (b : Builder) (op : OpCode) : b.landing op ≤ b.depth := by
  unfold Builder.landing
  split
  · exact Nat.zero_le _
  · exact Nat.sub_le _ _

namespace Build

open Step

variable {b b' : Builder} {u : Unit} {e : Error} {op : OpCode} {label : Nat}

theorem fixedEffect_of_branch (hop : op.operand = .branchTarget) (hflow : op.flow ≠ .leave) :
    fixedEffect op .branchTarget = .ok ⟨op.branchPops, 0⟩ := by
  cases op <;> first | rfl | exact absurd rfl hflow | cases hop

theorem branchPops_of_leave (hflow : op.flow = .leave) : op.branchPops = 0 := by
  cases op <;> first | rfl | cases hflow

theorem run_jumpTo (hop : op.operand = .branchTarget) (hlt : label < b.labels.size) :
    (jumpTo op label).run b =
      if b.depth < op.branchPops ∧ b.reachable then
        .error (.stackImbalance (.underflow op op.branchPops b.depth)) b
      else if Builder.depthLimit < b.landing op then
        .error (.stackImbalance .overflow) { b with depth := b.landing op }
      else
        match (meetLabel label).run (b.settle (b.landing op)) with
        | .ok _ b' => .ok () (b'.append (.jump op label) (!op.flow.isTerminal))
        | .error e b' => .error e b' := by
  -- what both kinds of jumps do once the depth is known
  have hrest : ∀ b₁ : Builder,
      (do
        meetLabel label
        modify fun b => { b with code := b.code.push (.jump op label) }
        endFlow op : Build Unit).run b₁ =
        match (meetLabel label).run b₁ with
        | .ok _ b' => .ok () (b'.append (.jump op label) (!op.flow.isTerminal))
        | .error e b' => .error e b' := by
    intro b₁
    rw [EStateM.run_bind]
    cases (meetLabel label).run b₁ with
    | ok u b' => simp only [EStateM.run_bind, EStateM.run_modify, run_endFlow, Builder.append]
    | error e b' => rfl
  unfold jumpTo
  simp only [hop, ne_eq, not_true_eq_false, if_false, EStateM.run_bind, run_discard, run_labelAt,
    hlt, if_true]
  by_cases hflow : op.flow = .leave
  · have hlanding : b.landing op = 0 := if_pos hflow
    have hsettle : { b with depth := 0 } = b.settle 0 := by simp [Builder.settle]
    simp only [hflow, if_true, hlanding, branchPops_of_leave hflow, Nat.not_lt_zero, false_and,
      if_false, ← hsettle]
    rw [EStateM.run_bind, EStateM.run_modify]
    simpa only [hflow] using hrest { b with depth := 0 }
  · have hlanding : b.landing op = b.depth - op.branchPops + 0 := if_neg hflow
    simp only [hflow, if_false, hlanding]
    rw [EStateM.run_bind, run_ofExcept, fixedEffect_of_branch hop hflow]
    simp only [EStateM.run_bind (applyEffect _ _), run_applyEffect]
    by_cases hlow : b.depth < op.branchPops ∧ b.reachable
    · simp only [hlow, and_self, if_true]
    · simp only [hlow, if_false]
      by_cases hlimit : Builder.depthLimit < b.depth - op.branchPops + 0
      · simp only [hlimit, if_true]
      · simp only [hlimit, if_false]
        exact hrest _

/-- A jump that is none, or that has no label, is refused before anything else. -/
theorem run_jumpTo_unfit (h : ¬(op.operand = .branchTarget ∧ label < b.labels.size)) :
    ∃ e, (jumpTo op label).run b = .error e b := by
  unfold jumpTo
  by_cases hop : op.operand = .branchTarget
  · have hlt : ¬label < b.labels.size := fun hlt => h ⟨hop, hlt⟩
    simp only [hop, ne_eq, not_true_eq_false, if_false, EStateM.run_bind, run_discard, run_labelAt,
      hlt]
    exact ⟨_, rfl⟩
  · simp only [ne_eq, hop, not_false_eq_true, if_true]
    exact ⟨_, rfl⟩

/-- A jump is appended only to an opcode that jumps and a label that exists. -/
theorem branch_of_jumpTo_ok (h : (jumpTo op label).run b = .ok u b') :
    op.operand = .branchTarget ∧ label < b.labels.size := by
  apply Decidable.byContradiction
  intro hunfit
  obtain ⟨e, hrun⟩ := run_jumpTo_unfit hunfit
  rw [hrun] at h
  cases h

theorem jumpTo_ok :
    (jumpTo op label).run b = .ok u b' ↔
      op.operand = .branchTarget ∧ label < b.labels.size ∧
      (b.reachable = true → op.branchPops ≤ b.depth) ∧ b.landing op ≤ Builder.depthLimit ∧
      b.Joins label (b.landing op) ∧
      b' = ((b.settle (b.landing op)).meet label).append (.jump op label) (!op.flow.isTerminal) := by
  constructor
  · intro h
    obtain ⟨hop, hlt⟩ := branch_of_jumpTo_ok h
    rw [run_jumpTo hop hlt] at h
    split at h
    · cases h
    · next hlow =>
      split at h
      · cases h
      · next hlimit =>
        cases hmeet : (meetLabel label).run (b.settle (b.landing op)) with
        | ok v b₁ =>
          rw [hmeet] at h
          cases h
          obtain ⟨hjoins, rfl⟩ := (meetLabel_ok (b := b.settle (b.landing op)) hlt).mp hmeet
          exact ⟨hop, hlt, fun hr => Nat.le_of_not_lt fun hd => hlow ⟨hd, hr⟩,
            Nat.le_of_not_lt hlimit, hjoins, rfl⟩
        | error e b₁ =>
          rw [hmeet] at h
          cases h
  · intro h
    obtain ⟨hop, hlt, hpops, hlimit, hjoins, rfl⟩ := h
    have hlow : ¬(b.depth < op.branchPops ∧ b.reachable = true) := fun h =>
      absurd (hpops h.2) (Nat.not_le.mpr h.1)
    have hmeet := (meetLabel_ok (b := b.settle (b.landing op)) (u := ()) hlt).mpr ⟨hjoins, rfl⟩
    rw [run_jumpTo hop hlt, if_neg hlow, if_neg (Nat.not_lt.mpr hlimit), hmeet]

/-- What an appended jump leaves behind, view by view. -/
structure Jumped (b : Builder) (op : OpCode) (label : Nat) (b' : Builder) : Prop where
  isJump : op.operand = .branchTarget
  lt : label < b.labels.size
  pops : b.reachable = true → op.branchPops ≤ b.depth
  joins : b.Joins label (b.landing op)
  code : b'.code = b.code.push (.jump op label)
  place : ∀ k, b'.place k = b.place k
  expected : ∀ k, b'.expected k =
    if label = k ∧ b.reachable then some (b.landing op) else b.expected k
  expected_of_some : ∀ {k d}, b.expected k = some d → b'.expected k = some d
  depth : b'.depth = b.landing op
  maxDepth : b'.maxDepth = max b.maxDepth (b.landing op)
  reachable : b'.reachable = (b.reachable && !op.flow.isTerminal)

theorem jumped_of_ok (h : (jumpTo op label).run b = .ok u b') : Jumped b op label b' := by
  obtain ⟨hop, hlt, hpops, -, hjoins, rfl⟩ := jumpTo_ok.mp h
  have hmeet := Builder.meet_eq (b.settle (b.landing op)) label
  constructor
  · exact hop
  · exact hlt
  · exact hpops
  · exact hjoins
  · show Code.push _ _ = _
    rw [Builder.code_meet]
    rfl
  · exact Builder.place_meet (b.settle (b.landing op)) label
  · exact Builder.expected_meet (b := b.settle (b.landing op)) hlt
  · intro k d hd
    exact Builder.expected_meet_of_joins (b := b.settle (b.landing op)) hlt hjoins hd
  · show Builder.depth (Builder.meet _ _) = _
    rw [hmeet]
    rfl
  · show Builder.maxDepth (Builder.meet _ _) = _
    rw [hmeet]
    rfl
  · show (Builder.reachable (Builder.meet _ _) && _) = _
    rw [hmeet]
    rfl

/-- Every other jump is refused for its depth. -/
theorem jumpTo_refused (hop : op.operand = .branchTarget) (hlt : label < b.labels.size) :
    (jumpTo op label).run b = .error e b' ↔
      (b.depth < op.branchPops ∧ b.reachable = true) ∧
        e = .stackImbalance (.underflow op op.branchPops b.depth) ∧ b' = b ∨
      ¬(b.depth < op.branchPops ∧ b.reachable = true) ∧ Builder.depthLimit < b.landing op ∧
        e = .stackImbalance .overflow ∧ b' = { b with depth := b.landing op } ∨
      ¬(b.depth < op.branchPops ∧ b.reachable = true) ∧ b.landing op ≤ Builder.depthLimit ∧
        ∃ d, b.reachable = true ∧ b.expected label = some d ∧ b.landing op ≠ d ∧
          e = .stackImbalance (.jump label (b.landing op) d) ∧ b' = b.settle (b.landing op) := by
  rw [run_jumpTo hop hlt]
  by_cases hlow : b.depth < op.branchPops ∧ b.reachable = true
  · simp [hlow, eq_comm]
  rw [if_neg hlow]
  by_cases hlimit : Builder.depthLimit < b.landing op
  · rw [if_pos hlimit]
    simp only [hlow, hlimit, Nat.not_le.mpr hlimit, not_false_eq_true, false_and, true_and, false_or,
      and_false, or_false, EStateM.Result.error.injEq, @eq_comm _ _ e, @eq_comm _ _ b']
  have hle : b.landing op ≤ Builder.depthLimit := Nat.le_of_not_lt hlimit
  rw [if_neg hlimit]
  simp only [hlow, hlimit, hle, not_false_eq_true, false_and, and_false, false_or, true_and]
  -- the label is asked by a builder that has already counted the new depth
  constructor
  · intro h
    by_cases hjoins : b.Joins label (b.landing op)
    · rw [(meetLabel_ok (b := b.settle (b.landing op)) (u := ()) hlt).mpr ⟨hjoins, rfl⟩] at h
      cases h
    · obtain ⟨d, hr, hexp, hne⟩ := Builder.not_joins hjoins
      rw [run_meetLabel_apart (b := b.settle (b.landing op)) hr hexp hne] at h
      cases h
      exact ⟨d, hr, hexp, hne, rfl, rfl⟩
  · intro h
    obtain ⟨d, hr, hexp, hne, rfl, rfl⟩ := h
    rw [run_meetLabel_apart (b := b.settle (b.landing op)) hr hexp hne]
    rfl

/-- A refused jump may leave other depths behind; a jump to a label that exists is refused
for its depth only. -/
theorem jumpTo_error (h : (jumpTo op label).run b = .error e b') :
    (op.operand = .branchTarget → label < b.labels.size → ∃ fault, e = .stackImbalance fault) ∧
    ∃ d m, b.maxDepth ≤ m ∧ m ≤ max b.maxDepth Builder.depthLimit ∧
      b' = { b with depth := d, maxDepth := m } := by
  by_cases hfit : op.operand = .branchTarget ∧ label < b.labels.size
  · rcases (jumpTo_refused hfit.1 hfit.2).mp h with
      ⟨-, rfl, rfl⟩ | ⟨-, -, rfl, rfl⟩ | ⟨-, hlimit, d, -, -, -, rfl, rfl⟩
    · exact ⟨fun _ _ => ⟨_, rfl⟩, b'.depth, b'.maxDepth, Nat.le_refl _, Nat.le_max_left _ _, rfl⟩
    · exact ⟨fun _ _ => ⟨_, rfl⟩, _, b.maxDepth, Nat.le_refl _, Nat.le_max_left _ _, rfl⟩
    · exact ⟨fun _ _ => ⟨_, rfl⟩, _, max b.maxDepth (b.landing op), Nat.le_max_left _ _, by omega,
        rfl⟩
  · obtain ⟨e', hunfit⟩ := run_jumpTo_unfit hfit
    rw [hunfit] at h
    cases h
    exact ⟨fun hop hlt => absurd ⟨hop, hlt⟩ hfit, b.depth, b.maxDepth, Nat.le_refl _,
      Nat.le_max_left _ _, rfl⟩

/-- A jump to a new label is a jump to the label that was created last. -/
theorem run_jump (op : OpCode) (b : Builder) :
    (jump op).run b =
      match (jumpTo op b.labels.size).run b.addLabel with
      | .ok _ b' => .ok b.labels.size b'
      | .error e b' => .error e b' := by
  unfold jump
  simp only [EStateM.run_bind, run_createLabel]
  cases (jumpTo op b.labels.size).run b.addLabel <;> rfl

/-! Placing labels. -/

/-- A path that joins the known ones is let on at the label; only the size of the code can
still stand against it. -/
theorem run_placeLabel (hlt : label < b.labels.size) (hplace : b.place label = none)
    (hjoins : b.Joins label b.depth) :
    (placeLabel label).run b =
      if b.size < 0x100000000 then .ok () ((b.resume label).put label b.size)
      else .error (.malformed (.valueTooLarge b.size)) (b.resume label) := by
  -- what is left to do once the depth is settled
  have hrest : ∀ b₁ : Builder, b₁.size = b.size → b₁.labels.size = b.labels.size →
      (do
        modify fun b => { b with reachable := true }
        let position ← position
        setLabel label { ← labelAt label with position := some position } : Build Unit).run b₁ =
        if b.size < 0x100000000 then .ok () (({ b₁ with reachable := true } : Builder).put label b.size)
        else .error (.malformed (.valueTooLarge b.size)) { b₁ with reachable := true } := by
    intro b₁ hsize hlabels
    rw [EStateM.run_bind, EStateM.run_modify]
    generalize hb₂ : ({ b₁ with reachable := true } : Builder) = b₂
    have hsize₂ : b₂.size = b.size := by rw [← hb₂]; exact hsize
    have hlt₂ : label < b₂.labels.size := by rw [← hb₂, hlabels]; exact hlt
    simp only [EStateM.run_bind, run_position, hsize₂]
    by_cases hlimit : b.size < 0x100000000
    · simp only [hlimit, if_true, run_labelAt, hlt₂]
      exact run_setLabel (f := fun l => { l with position := some b.size })
        (Builder.labels_get_of_lt hlt₂)
    · simp only [hlimit, if_false]
  unfold placeLabel
  simp only [EStateM.run_bind, run_labelAt, hlt, if_true, hplace, Option.isSome_none,
    Bool.false_eq_true, if_false, EStateM.run_get]
  unfold Builder.resume Builder.meet
  -- a known depth is the builder's on reached code and is taken over on other code
  cases hexp : b.expected label with
  | some expected =>
    cases hr : b.reachable with
    | true =>
      have heq : expected = b.depth := by
        rcases hjoins hr with h | h <;> rw [hexp] at h <;> cases h
        rfl
      have hb : ({ b with reachable := true } : Builder) = b := by rw [← hr]
      simp only [← heq, ne_eq, not_true_eq_false, if_false, if_true,
        Builder.expect_of_expected hexp]
      rw [hrest b rfl rfl, hb]
    | false =>
      simp only [Bool.false_eq_true, if_false, Option.getD_some]
      rw [EStateM.run_bind, EStateM.run_modify]
      exact hrest { b with depth := expected } rfl rfl
  -- reached code notes its depth at the label, other code notes nothing
  | none =>
    cases hr : b.reachable with
    | true =>
      have hb : ({ b.expect label b.depth with reachable := true } : Builder) =
          b.expect label b.depth := by rw [← hr]; rfl
      have hset := run_setLabel (f := fun l => { l with depth := some b.depth })
        (Builder.labels_get_of_lt hlt)
      rw [hplace] at hset
      simp only [if_true]
      rw [EStateM.run_bind, hset]
      refine (hrest (b.expect label b.depth) rfl (by simp [Builder.expect])).trans ?_
      rw [hb]
    | false =>
      simp only [Bool.false_eq_true, if_false, Option.getD_none]
      rw [EStateM.run_bind, EStateM.run_modify]
      exact hrest { b with depth := 0 } rfl rfl

theorem run_placeLabel_apart {d : Nat} (hplace : b.place label = none) (hr : b.reachable = true)
    (hexp : b.expected label = some d) (hne : b.depth ≠ d) :
    (placeLabel label).run b = .error (.stackImbalance (.join label d b.depth)) b := by
  have hlt := Builder.lt_of_expected hexp
  unfold placeLabel
  simp only [EStateM.run_bind, run_labelAt, hlt, if_true, hplace, Option.isSome_none,
    Bool.false_eq_true, if_false, EStateM.run_get, hexp, hr, ne_eq, hne, not_false_eq_true,
    run_throw]

theorem run_placeLabel_placed {p : Nat} (hplace : b.place label = some p) :
    (placeLabel label).run b = .error (.malformed (.labelPlacedTwice label)) b := by
  have hlt := Builder.lt_of_place hplace
  unfold placeLabel
  simp only [EStateM.run_bind, run_labelAt, hlt, if_true, hplace, Option.isSome_some, run_throw]

theorem run_placeLabel_unknown (hlt : ¬label < b.labels.size) :
    (placeLabel label).run b = .error (.unknownLabel label) b := by
  unfold placeLabel
  simp only [EStateM.run_bind, run_labelAt, hlt, if_false]

theorem placeLabel_ok :
    (placeLabel label).run b = .ok u b' ↔
      label < b.labels.size ∧ b.place label = none ∧ b.Joins label b.depth ∧ b.size < 0x100000000 ∧
      b' = (b.resume label).put label b.size := by
  constructor
  · intro h
    by_cases hlt : label < b.labels.size
    · cases hplace : b.place label with
      | some p =>
        rw [run_placeLabel_placed hplace] at h
        cases h
      | none =>
        by_cases hjoins : b.Joins label b.depth
        · rw [run_placeLabel hlt hplace hjoins] at h
          split at h
          · next hsize =>
            cases h
            exact ⟨hlt, rfl, hjoins, hsize, rfl⟩
          · cases h
        · obtain ⟨d, hr, hexp, hne⟩ := Builder.not_joins hjoins
          rw [run_placeLabel_apart hplace hr hexp hne] at h
          cases h
    · rw [run_placeLabel_unknown hlt] at h
      cases h
  · intro h
    obtain ⟨hlt, hplace, hjoins, hsize, rfl⟩ := h
    rw [run_placeLabel hlt hplace hjoins, if_pos hsize]

/-- What a placed label leaves behind, view by view. -/
structure Placed (b : Builder) (label : Nat) (b' : Builder) : Prop where
  lt : label < b.labels.size
  unplaced : b.place label = none
  joins : b.Joins label b.depth
  code : b'.code = b.code
  place : ∀ k, b'.place k = if label = k then some b.size else b.place k
  expected : ∀ k, b'.expected k =
    if label = k ∧ b.reachable then some b.depth else b.expected k
  expected_of_some : ∀ {k d}, b.expected k = some d → b'.expected k = some d
  depth : b'.depth = if b.reachable then b.depth else (b.expected label).getD 0
  maxDepth : b'.maxDepth = b.maxDepth
  reachable : b'.reachable = true

theorem placed_of_ok (h : (placeLabel label).run b = .ok u b') : Placed b label b' := by
  obtain ⟨hlt, hplace, hjoins, -, rfl⟩ := placeLabel_ok.mp h
  have hresume := Builder.resume_eq b label
  constructor
  · exact hlt
  · exact hplace
  · exact hjoins
  · exact Builder.code_resume b label
  · intro k
    rw [Builder.place_put, Builder.place_resume, Builder.size_labels_resume]
    simp [hlt]
  · intro k
    rw [Builder.expected_put]
    exact Builder.expected_resume hlt k
  · intro k d hd
    rw [Builder.expected_put]
    exact Builder.expected_resume_of_joins hlt hjoins hd
  · show Builder.depth (Builder.resume _ _) = _
    unfold Builder.resume
    split
    · rw [Builder.meet_eq]
    · rfl
  · show Builder.maxDepth (Builder.resume _ _) = _
    rw [hresume]
  · show Builder.reachable (Builder.resume _ _) = _
    rw [hresume]

/-- A label that is not placed leaves the builder as it was, unless the code is too long
for any label. -/
theorem placeLabel_error (h : (placeLabel label).run b = .error e b') :
    b' = b ∨
      label < b.labels.size ∧ 0x100000000 ≤ b.size ∧ b.Joins label b.depth ∧ b' = b.resume label := by
  by_cases hlt : label < b.labels.size
  · cases hplace : b.place label with
    | some p =>
      rw [run_placeLabel_placed hplace] at h
      cases h
      exact .inl rfl
    | none =>
      by_cases hjoins : b.Joins label b.depth
      · rw [run_placeLabel hlt hplace hjoins] at h
        split at h
        · cases h
        · next hsize =>
          cases h
          exact .inr ⟨hlt, Nat.le_of_not_lt hsize, hjoins, rfl⟩
      · obtain ⟨d, hr, hexp, hne⟩ := Builder.not_joins hjoins
        rw [run_placeLabel_apart hplace hr hexp hne] at h
        cases h
        exact .inl rfl
  · rw [run_placeLabel_unknown hlt] at h
    cases h
    exact .inl rfl

/-! Regions. -/

theorem run_startTry (b : Builder) :
    startTry.run b =
      if b.depth ≠ 0 ∧ b.reachable then .error (.stackImbalance (.tryEntered b.depth)) b
      else if b.size < 0x100000000 then .ok () { b with regions := .inTry b.size :: b.regions }
      else .error (.malformed (.valueTooLarge b.size)) b := by
  unfold startTry
  simp only [EStateM.run_bind, EStateM.run_get]
  by_cases hdepth : b.depth ≠ 0 ∧ b.reachable
  · rw [if_pos hdepth, if_pos hdepth, EStateM.run_bind, run_throw]
  · rw [if_neg hdepth, if_neg hdepth, EStateM.run_bind, run_position]
    by_cases hsize : b.size < 0x100000000
    · simp only [hsize, if_true, EStateM.run_modify]
    · simp only [hsize, if_false]

theorem startTry_ok :
    startTry.run b = .ok u b' ↔
      (b.reachable = true → b.depth = 0) ∧ b.size < 0x100000000 ∧
      b' = { b with regions := .inTry b.size :: b.regions } := by
  rw [run_startTry]
  constructor
  · intro h
    split at h
    · cases h
    · next hdepth =>
      split at h
      · next hsize =>
        cases h
        exact ⟨fun hr => Classical.not_not.mp fun hne => hdepth ⟨hne, hr⟩, hsize, rfl⟩
      · cases h
  · intro h
    obtain ⟨hempty, hsize, rfl⟩ := h
    rw [if_neg fun h => h.1 (hempty h.2), if_pos hsize]

theorem startTry_error (h : startTry.run b = .error e b') : b' = b := by
  rw [run_startTry] at h
  split at h
  · cases h
    rfl
  · split at h
    · cases h
    · cases h
      rfl

theorem run_endTry (b : Builder) :
    endTry.run b =
      if b.size < 0x100000000 then
        match b.regions with
        | .inTry start :: outer =>
          if b.reachable then .error (.malformed (.tryFallsThrough start)) b
          else .ok () { b with regions := .afterTry start b.size :: outer }
        | _ => .error (.malformed (.noOpenTry b.size)) b
      else .error (.malformed (.valueTooLarge b.size)) b := by
  unfold endTry
  rw [EStateM.run_bind, run_position]
  by_cases hsize : b.size < 0x100000000
  · simp only [hsize, if_true, EStateM.run_bind, EStateM.run_get]
    cases b.regions with
    | nil => rfl
    | cons region outer =>
      cases region with
      | inTry start =>
        by_cases hr : b.reachable = true
        · simp only [hr, if_true, EStateM.run_bind, run_throw]
        · simp only [hr, if_false, EStateM.run_modify, Bool.false_eq_true]
      | afterTry start stop => rfl
      | inHandler start stop handler => rfl
  · simp only [hsize, if_false]

theorem endTry_ok :
    endTry.run b = .ok u b' ↔
      ∃ start outer, b.regions = .inTry start :: outer ∧ b.reachable = false ∧ b.size < 0x100000000 ∧
        b' = { b with regions := .afterTry start b.size :: outer } := by
  rw [run_endTry]
  constructor
  · intro h
    split at h
    · next hsize =>
      split at h
      · next start outer hregions =>
        split at h
        · cases h
        · next hr =>
          cases h
          exact ⟨start, outer, hregions, Bool.eq_false_iff.mpr hr, hsize, rfl⟩
      · cases h
    · cases h
  · intro h
    obtain ⟨start, outer, hregions, hr, hsize, rfl⟩ := h
    simp only [hsize, if_true, hregions, hr, Bool.false_eq_true, if_false]

theorem endTry_error (h : endTry.run b = .error e b') : b' = b := by
  rw [run_endTry] at h
  split at h
  · split at h
    · split at h
      · cases h
        rfl
      · cases h
    · cases h
      rfl
  · cases h
    rfl

theorem run_startHandler (b : Builder) :
    startHandler.run b =
      if b.size < 0x100000000 then
        match b.regions with
        | .afterTry start stop :: outer =>
          .ok () (Builder.settle
            { b with regions := .inHandler start stop b.size :: outer, reachable := true } 1)
        | _ => .error (.malformed (.noClosedTry b.size)) b
      else .error (.malformed (.valueTooLarge b.size)) b := by
  unfold startHandler
  rw [EStateM.run_bind, run_position]
  by_cases hsize : b.size < 0x100000000
  · simp only [hsize, if_true, EStateM.run_bind, EStateM.run_get]
    cases b.regions with
    | nil => rfl
    | cons region outer =>
      cases region with
      | afterTry start stop =>
        simp only [EStateM.run_bind, EStateM.run_modify, run_applyEffect]
        rfl
      | inTry start => rfl
      | inHandler start stop handler => rfl
  · simp only [hsize, if_false]

/-- A handler is entered with the exception on the stack. -/
theorem startHandler_ok :
    startHandler.run b = .ok u b' ↔
      ∃ start stop outer, b.regions = .afterTry start stop :: outer ∧ b.size < 0x100000000 ∧
        b' = Builder.settle
          { b with regions := .inHandler start stop b.size :: outer, reachable := true } 1 := by
  rw [run_startHandler]
  constructor
  · intro h
    split at h
    · next hsize =>
      split at h
      · next start stop outer hregions =>
        cases h
        exact ⟨start, stop, outer, hregions, hsize, rfl⟩
      · cases h
    · cases h
  · intro h
    obtain ⟨start, stop, outer, hregions, hsize, rfl⟩ := h
    simp only [hsize, if_true, hregions]

theorem startHandler_error (h : startHandler.run b = .error e b') : b' = b := by
  rw [run_startHandler] at h
  split at h
  · split at h
    · cases h
    · cases h
      rfl
  · cases h
    rfl

theorem run_checkHandlerEnd (b : Builder) :
    checkHandlerEnd.run b =
      if b.size < 0x100000000 then
        match b.regions with
        | .inHandler _ _ handler :: _ =>
          if b.reachable then .error (.malformed (.handlerFallsThrough handler)) b else .ok () b
        | _ => .error (.malformed (.noOpenHandler b.size)) b
      else .error (.malformed (.valueTooLarge b.size)) b := by
  unfold checkHandlerEnd
  rw [EStateM.run_bind, run_position]
  by_cases hsize : b.size < 0x100000000
  · simp only [hsize, if_true, EStateM.run_bind, EStateM.run_get]
    cases b.regions with
    | nil => rfl
    | cons region outer =>
      cases region with
      | inTry start => rfl
      | afterTry start stop => rfl
      | inHandler start stop handler =>
        by_cases hr : b.reachable = true
        · simp only [hr, if_true, run_throw]
        · simp only [hr, if_false, EStateM.run_pure, Bool.false_eq_true]
  · simp only [hsize, if_false]

theorem checkHandlerEnd_ok :
    checkHandlerEnd.run b = .ok u b' ↔
      ∃ start stop handler outer, b.regions = .inHandler start stop handler :: outer ∧
        b.reachable = false ∧ b.size < 0x100000000 ∧ b' = b := by
  rw [run_checkHandlerEnd]
  constructor
  · intro h
    split at h
    · next hsize =>
      split at h
      · next start stop handler outer hregions =>
        split at h
        · cases h
        · next hr =>
          cases h
          exact ⟨start, stop, handler, outer, hregions, Bool.eq_false_iff.mpr hr, hsize, rfl⟩
      · cases h
    · cases h
  · intro h
    obtain ⟨start, stop, handler, outer, hregions, hr, hsize, rfl⟩ := h
    simp only [hsize, if_true, hregions, hr, Bool.false_eq_true, if_false]

/-- Checking changes nothing. -/
theorem after_checkHandlerEnd (b : Builder) : checkHandlerEnd.after b = b := by
  unfold Step.after
  rw [run_checkHandlerEnd]
  by_cases hsize : b.size < 0x100000000
  · simp only [hsize, if_true]
    split
    · next heq => split at heq <;> grind
    · next heq => split at heq <;> grind
  · simp only [hsize, if_false]

/-- The clause that a region with these marks leaves behind when it ends at `finish`. -/
def regionClause (start stop handler finish : Nat) (exceptionClass : Token) :
    ExceptionClause where
  flags := ExceptionClause.typed
  tryOffset := UInt32.ofNat start
  tryLength := UInt32.ofNat (stop - start)
  handlerOffset := UInt32.ofNat handler
  handlerLength := UInt32.ofNat (finish - handler)
  classOrFilter := exceptionClass.value

theorem endHandler_ok {exceptionClass : Token}
    (h : (endHandler exceptionClass).run b = .ok u b') :
    ∃ start stop handler outer, b.regions = .inHandler start stop handler :: outer ∧
      b.reachable = false ∧ b.size < 0x100000000 ∧
      b' = { b with
        regions := outer
        exceptions := b.exceptions.add (regionClause start stop handler b.size exceptionClass) } := by
  unfold endHandler at h
  obtain ⟨_, b₁, hcheck, hrest⟩ := run_bind_ok.mp h
  obtain ⟨start, stop, handler, outer, hregions, hr, hsize, rfl⟩ := checkHandlerEnd_ok.mp hcheck
  simp only [EStateM.run_bind, run_position, hsize, if_true, EStateM.run_get, hregions,
    EStateM.run_modify] at hrest
  cases hrest
  exact ⟨start, stop, handler, outer, hregions, hr, hsize, rfl⟩

theorem endHandler_error {exceptionClass : Token}
    (h : (endHandler exceptionClass).run b = .error e b') : b' = b := by
  unfold endHandler at h
  rw [EStateM.run_bind] at h
  cases hcheck : checkHandlerEnd.run b with
  | ok v b₁ =>
    obtain ⟨start, stop, handler, outer, hregions, -, hsize, rfl⟩ := checkHandlerEnd_ok.mp hcheck
    rw [hcheck] at h
    simp only [EStateM.run_bind, run_position, hsize, if_true, EStateM.run_get, hregions,
      EStateM.run_modify] at h
    cases h
  | error e₁ b₁ =>
    rw [hcheck] at h
    cases h
    rw [← Step.after_of_error hcheck, after_checkHandlerEnd]

/-! The method's own code. -/

theorem run_splice (ownCode : List UInt8) (b : Builder) :
    (splice ownCode).run b =
      match b.spliceOffset with
      | some offset => .error (.malformed (.ownCodePlacedTwice offset)) b
      | none =>
        if b.depth ≠ 0 ∧ b.reachable then .error (.stackImbalance (.ownCodeEntered b.depth)) b
        else if b.size < 0x100000000 then
          .ok () {
            b with
            spliceOffset := some b.size
            code := b.code.push (.splice ownCode)
            depth := 0
            reachable := false }
        else .error (.malformed (.valueTooLarge b.size)) b := by
  unfold splice
  simp only [EStateM.run_bind, EStateM.run_get]
  cases b.spliceOffset with
  | some offset => rfl
  | none =>
    simp only
    by_cases hdepth : b.depth ≠ 0 ∧ b.reachable
    · rw [if_pos hdepth, if_pos hdepth, EStateM.run_bind, run_throw]
    · rw [if_neg hdepth, if_neg hdepth, EStateM.run_bind, run_position]
      by_cases hsize : b.size < 0x100000000
      · simp only [hsize, if_true, EStateM.run_modify]
      · simp only [hsize, if_false]

theorem splice_ok {ownCode : List UInt8} :
    (splice ownCode).run b = .ok u b' ↔
      b.spliceOffset = none ∧ (b.reachable = true → b.depth = 0) ∧ b.size < 0x100000000 ∧
      b' = {
        b with
        spliceOffset := some b.size
        code := b.code.push (.splice ownCode)
        depth := 0
        reachable := false } := by
  rw [run_splice]
  constructor
  · intro h
    split at h
    · cases h
    · next hnone =>
      split at h
      · cases h
      · next hdepth =>
        split at h
        · next hsize =>
          cases h
          exact ⟨hnone, fun hr => Classical.not_not.mp fun hne => hdepth ⟨hne, hr⟩, hsize, rfl⟩
        · cases h
  · intro h
    obtain ⟨hnone, hempty, hsize, rfl⟩ := h
    simp only [hnone]
    rw [if_neg fun h => h.1 (hempty h.2), if_pos hsize]

theorem splice_error {ownCode : List UInt8} (h : (splice ownCode).run b = .error e b') :
    b' = b := by
  rw [run_splice] at h
  split at h
  · cases h
    rfl
  · split at h
    · cases h
      rfl
    · split at h
      · cases h
      · cases h
        rfl

end Build

end CilInstrument
