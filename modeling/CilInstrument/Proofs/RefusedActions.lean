import CilInstrument.Proofs.InstructionStream
import CilInstrument.Proofs.StoredMethod

/- What a refused action leaves behind. Everything about an instruction but the stack is
   settled before the builder is touched (`perform_of_prepared`), and a region is looked
   at before it is marked, so most refusals leave the builder as it was. Those that do
   not are listed by `Disturbs`: the new depth is noted before it is found to be too
   large, or not the one of the label that is jumped to, and a label is entered before
   the code is found to be too long for it. In a run nothing else comes of a refused
   action (`refused_in_run`); that the largest depth stays is due to the depths that a
   builder can get to, which were all counted before (`Builder.Counted`). -/
namespace CilInstrument

open Step

/-! Instructions that only the stack can refuse. -/

/-- An instruction, when all but the stack is settled. -/
structure Prepared where
  op : OpCode
  effect : StackEffect
  operand : Operand
  deriving Repr, DecidableEq

namespace Prepared

variable {σ : Type}

/-- An instruction whose effect hangs on the opcode alone. -/
def fixed (op : OpCode) (operand : Operand) : Ask σ Prepared := do
  return ⟨op, ← Step.ofExcept (Build.fixedEffect op operand.kind), operand⟩

/-- The shortest access to a variable. -/
def access (kind : Access) (index : UInt16) : Ask σ Prepared :=
  fixed (kind.forms.shortest index).1 (kind.forms.shortest index).2

def emit (i : Prepared) : Emit σ Unit := Emit.build (Build.emit i.op i.effect i.operand)

/-- The depth that the instruction leads to. -/
def depthAfter (i : Prepared) (depth : Nat) : Nat := depth - i.effect.pops + i.effect.pushes

theorem build_instruction (op : OpCode) (operand : Operand) :
    (Emit.build (Build.instruction op operand) : Emit σ Unit) =
      Emit.ask (fixed op operand) >>= emit := by
  rw [Build.instruction, Emit.build_bind, Emit.build_ofExcept, fixed]
  cases Build.fixedEffect op operand.kind <;> rfl

/-- The same, if the operand is a token that the host is asked for. -/
theorem build_withToken (question : Ask σ Token) (op : OpCode) :
    (do Emit.build (Build.withToken op (← Emit.ask question)) : Emit σ Unit) =
      Emit.ask (do fixed op (.token (← question))) >>= emit := by
  rw [Emit.ask_bind, bind_assoc]
  congr 1
  funext token
  exact build_instruction op (.token token)

end Prepared

namespace Action

variable {σ : Type}

/-- At most one instruction or mark is appended. -/
def isSingle : Action σ → Bool
  | ask _ | loadArgumentAsObject _ _ | loadTypeOf _ | createLabel | jump _ => false
  | _ => true

variable [Resolver σ]

/-- What is settled about the instruction of an action before the builder is touched. -/
def prepared? : Action σ → Option (Ask σ Prepared)
  | plain op => some (Prepared.fixed op .none)
  | mnemonic text => some (match OpCode.ofMnemonic? text with
    | some op => Prepared.fixed op .none
    | none => throw (.invalidMnemonic text))
  | loadInt value => some (Prepared.fixed .ldcI4 (.int value))
  | withToken op token => some (Prepared.fixed op (.token token))
  | withType op name => some do Prepared.fixed op (.token (← Resolver.typeToken name))
  | loadString value => some do Prepared.fixed .ldstr (.token (← Resolver.stringToken value))
  | call op member => some do
    if op.flow ≠ .call then throw (.malformed (.notACall op))
    let effect ← Step.ofExcept (op.callEffect member)
    return ⟨op, effect, .token (← Resolver.memberToken member)⟩
  | loadLocal index => some (Prepared.access .loadLocal index)
  | storeLocal index => some (Prepared.access .storeLocal index)
  | loadArgument index => some (Prepared.access .loadArgument index)
  | _ => none

theorem call_prepared (op : OpCode) (member : String) :
    (Emit.call op member : Emit σ Unit) = Emit.ask (do
      if op.flow ≠ .call then throw (.malformed (.notACall op))
      let effect ← Step.ofExcept (op.callEffect member)
      return ⟨op, effect, .token (← Resolver.memberToken member)⟩) >>= Prepared.emit := by
  unfold Emit.call
  by_cases hflow : op.flow = .call
  · simp only [hflow, ne_eq, not_true_eq_false, if_false]
    cases op.callEffect member with
    | ok effect =>
      show (Emit.ask (Resolver.memberToken member) >>= fun token =>
        Emit.build (Build.emit op effect (.token token)) : Emit σ Unit) =
        Emit.ask (Resolver.memberToken member >>= fun token =>
          pure ⟨op, effect, .token token⟩) >>= Prepared.emit
      rw [Emit.ask_bind, bind_assoc]
      rfl
    | error e => rfl
  · simp only [hflow, ne_eq, not_false_eq_true, if_true]
    rfl

/-- An action with an instruction settles it, and then the stack decides. -/
theorem perform_of_prepared {a : Action σ} {prep : Ask σ Prepared}
    (h : a.prepared? = some prep) : a.perform = Emit.ask prep >>= Prepared.emit := by
  cases a with
  | plain op | loadInt value | withToken op token | loadLocal index | storeLocal index
  | loadArgument index =>
    cases h
    exact Prepared.build_instruction _ _
  | mnemonic text =>
    cases h
    show Emit.build (Build.mnemonic text) = _
    unfold Build.mnemonic
    cases OpCode.ofMnemonic? text with
    | some op => exact Prepared.build_instruction op .none
    | none => rfl
  | withType op name =>
    cases h
    exact Prepared.build_withToken _ op
  | loadString value =>
    cases h
    exact Prepared.build_withToken _ .ldstr
  | call op member =>
    cases h
    exact call_prepared op member
  | _ => cases h

end Action

/-! The depths that a builder can get to. -/

/-- An instruction leaves at most one value more than it found, and two at most. -/
theorem OpCode.Affords.pushes_le {op : OpCode} {effect : StackEffect} (h : op.Affords effect) :
    effect.pushes ≤ min 2 (effect.pops + 1) := by
  rcases h with hfixed | ⟨-, member, hcall⟩
  · have hall : ∀ op : OpCode, ∀ effect ∈ op.fixedEffect?,
        effect.pushes ≤ min 2 (effect.pops + 1) := by
      intro op
      cases op <;> decide
    exact hall op effect hfixed
  · unfold OpCode.callEffect at hcall
    split at hcall
    · cases hcall
    simp only at hcall
    split at hcall
    · cases hcall
    split at hcall
    · cases hcall
      show 1 ≤ min 2 _
      omega
    · cases hcall
      show (if _ then 0 else 1) ≤ min 2 _
      split <;> omega

/-- The depth of the builder and those that labels are known to have were counted, as far as
they can be stated. -/
structure Builder.Counted (b : Builder) : Prop where
  depth : min b.depth Builder.depthLimit ≤ b.maxDepth
  expected : ∀ label d, b.expected label = some d → min d Builder.depthLimit ≤ b.maxDepth

namespace Builder.Counted

variable {b b' : Builder}

theorem start (exceptions : ExceptionTable) : (Builder.start exceptions).Counted where
  depth := Nat.zero_le _
  expected := by
    intro label d h
    cases h

/-- It is enough that a new depth is counted, if nothing is learnt of labels. -/
theorem of_depth (h : b.Counted) (hmax : b.maxDepth ≤ b'.maxDepth) (hlabels : b'.labels = b.labels)
    (hdepth : min b'.depth depthLimit ≤ b'.maxDepth) : b'.Counted where
  depth := hdepth
  expected := by
    intro label d hd
    unfold Builder.expected at hd
    rw [hlabels] at hd
    exact Nat.le_trans (h.expected label d hd) hmax

theorem settle (h : b.Counted) (d : Nat) : (b.settle d).Counted :=
  h.of_depth (Nat.le_max_left _ _) rfl
    (Nat.le_trans (Nat.min_le_left _ _) (Nat.le_max_right _ _))

/-- A depth that is at most one more than the last one is counted before it is too large. -/
theorem noted (h : b.Counted) {d : Nat} (hd : d ≤ b.depth + 1) (hlimit : depthLimit < d) :
    ({ b with depth := d } : Builder).Counted := by
  refine h.of_depth (Nat.le_refl _) rfl ?_
  have hdepth := h.depth
  show min d depthLimit ≤ b.maxDepth
  omega

theorem meet (h : b.Counted) {label : Nat} (hlt : label < b.labels.size) :
    (b.meet label).Counted where
  depth := by
    rw [Builder.meet_eq]
    exact h.depth
  expected := by
    intro k d hd
    rw [Builder.expected_meet hlt] at hd
    rw [Builder.meet_eq]
    split at hd
    · cases hd
      exact h.depth
    · exact h.expected k d hd

theorem resume (h : b.Counted) {label : Nat} (hlt : label < b.labels.size) :
    (b.resume label).Counted := by
  unfold Builder.resume
  by_cases hr : b.reachable = true
  · rw [if_pos hr]
    exact h.meet hlt
  · rw [if_neg hr]
    refine h.of_depth (Nat.le_refl _) rfl ?_
    show min ((b.expected label).getD 0) depthLimit ≤ b.maxDepth
    cases hexp : b.expected label with
    | none => exact Nat.le_trans (Nat.min_le_left _ _) (Nat.zero_le _)
    | some d => exact h.expected label d hexp

/-- A builder of which nothing but the code and its flag is new. -/
theorem append (h : b.Counted) (item : CodeItem) (falls : Bool) : (b.append item falls).Counted :=
  h.of_depth (Nat.le_refl _) rfl h.depth

theorem put (h : b.Counted) (label position : Nat) : (b.put label position).Counted where
  depth := h.depth
  expected := by
    intro k d hd
    rw [Builder.expected_put] at hd
    exact h.expected k d hd

theorem addLabel (h : b.Counted) : b.addLabel.Counted where
  depth := h.depth
  expected := by
    intro k d hd
    rw [Builder.expected_addLabel] at hd
    exact h.expected k d hd

/-- A counted builder has nothing new to count when a jump lands. -/
theorem settle_landing (h : b.Counted) {op : OpCode} (hlimit : b.landing op ≤ depthLimit) :
    b.settle (b.landing op) = { b with depth := b.landing op } := by
  have hdepth := h.depth
  have hlanding := b.landing_le op
  have hmax : max b.maxDepth (b.landing op) = b.maxDepth := by omega
  unfold Builder.settle
  rw [hmax]

end Builder.Counted

theorem RegionChange.counted {b b' : Builder} (h : RegionChange b b') (hb : b.Counted) :
    b'.Counted := by
  cases h with
  | nothing => exact hb
  | startHandler _ _ =>
    -- the exception is on the stack, and so is counted
    have hregion : ∀ regions, ({ b with regions, reachable := true } : Builder).Counted :=
      fun regions => hb.of_depth (Nat.le_refl _) rfl hb.depth
    exact (hregion _).settle 1
  | _ => exact hb.of_depth (Nat.le_refl _) rfl hb.depth

namespace Emit

variable {σ α : Type}

/-- Every step leaves a counted builder counted, whether it goes through or not. -/
theorem Elementary.counted {x : Emit σ α} (h : Elementary x) (s : Emission σ) :
    s.builder.Counted → (x.after s).builder.Counted := by
  intro hb
  -- what a step does to the builder alone
  have hbuild : ∀ {β : Type} {y : Build β}, (∀ a b', y.run s.builder = .ok a b' → b'.Counted) →
      (∀ e b', y.run s.builder = .error e b' → b'.Counted) → ((build y).after s).builder.Counted :=
    fun hok herror => builder_after_build (R := fun _ b' => b'.Counted) hok herror
  cases h with
  | appending h =>
    cases h with
    | ask question =>
      rw [builder_after_ask]
      exact hb
    | emit haffords hkind =>
      refine hbuild (fun _ b' hrun => ?_) fun e b' hrun => ?_
      · obtain ⟨-, -, rfl⟩ := Build.emit_ok.mp hrun
        exact (hb.settle _).append _ _
      · rcases Build.emit_refused.mp hrun with ⟨-, -, rfl⟩ | ⟨-, hlimit, -, rfl⟩
        · exact hb
        · have hpushes := haffords.pushes_le
          refine hb.noted ?_ hlimit
          unfold Builder.depthLimit at hlimit
          omega
  | marking h => exact (h.change s).counted hb
  | createLabel =>
    rw [after_build]
    exact hb.addLabel
  | jumpTo op label =>
    refine hbuild (fun _ b' hrun => ?_) fun e b' hrun => ?_
    · obtain ⟨-, hlt, -, -, -, rfl⟩ := Build.jumpTo_ok.mp hrun
      exact ((hb.settle _).meet hlt).append _ _
    · by_cases hfit : op.operand = .branchTarget ∧ label < s.builder.labels.size
      · rcases (Build.jumpTo_refused hfit.1 hfit.2).mp hrun with
          ⟨-, -, rfl⟩ | ⟨-, hlimit, -, rfl⟩ | ⟨-, -, _, -, -, -, -, rfl⟩
        · exact hb
        · exact hb.noted (Nat.le_succ_of_le (s.builder.landing_le op)) hlimit
        · exact hb.settle _
      · obtain ⟨e', hunfit⟩ := Build.run_jumpTo_unfit hfit
        rw [hunfit] at hrun
        cases hrun
        exact hb
  | placeLabel label =>
    refine hbuild (fun _ b' hrun => ?_) fun e b' hrun => ?_
    · obtain ⟨hlt, -, -, -, rfl⟩ := Build.placeLabel_ok.mp hrun
      exact (hb.resume hlt).put label _
    · rcases Build.placeLabel_error hrun with rfl | ⟨hlt, -, -, rfl⟩
      · exact hb
      · exact hb.resume hlt
  | splice ownCode =>
    refine hbuild (fun _ b' hrun => ?_) fun e b' hrun => ?_
    · obtain ⟨-, -, -, rfl⟩ := Build.splice_ok.mp hrun
      exact hb.of_depth (Nat.le_refl _) rfl (Nat.zero_le _)
    · rw [Build.splice_error hrun]
      exact hb

end Emit

namespace Action

open Emit

variable {σ : Type} [Resolver σ]

theorem perform_counted (a : Action σ) (s : Emission σ) (h : s.builder.Counted) :
    (a.perform.after s).builder.Counted :=
  (perform_elementary a).after (R := fun s t : Emission σ => s.builder.Counted → t.builder.Counted)
    (fun _ h => h) (fun hst htu h => htu (hst h)) (fun _ _ hx s => hx.counted s) s h

/-- Whatever was asked for, the builder is counted. -/
theorem run_counted (acts : List (Action σ)) {s : Emission σ} (h : s.builder.Counted) :
    (run acts s).builder.Counted := by
  induction acts generalizing s with
  | nil => exact h
  | cons a rest ih => exact ih (perform_counted a s h)

/-! What is left behind. -/

/-- The action is refused with `e` in `s`, and what it leaves is not what it found. -/
inductive Disturbs (s : Emission σ) : Action σ → Error → Emission σ → Prop
  /-- An instruction that would take the stack beyond its limit. -/
  | overflow {a : Action σ} {prep : Ask σ Prepared} {i : Prepared} {host : σ}
    (hprepared : a.prepared? = some prep) (hrun : prep.run s.host = .ok i host)
    (hpops : s.builder.reachable = true → i.effect.pops ≤ s.builder.depth)
    (hlimit : Builder.depthLimit < i.depthAfter s.builder.depth)
    (hne : i.depthAfter s.builder.depth ≠ s.builder.depth) :
    Disturbs s a (.stackImbalance .overflow)
      ⟨host, { s.builder with depth := i.depthAfter s.builder.depth }⟩
  /-- A jump with more on the stack than the limit. -/
  | jumpOverflow {op : OpCode} {label : Nat} (hop : op.operand = .branchTarget)
    (hlt : label < s.builder.labels.size)
    (hpops : s.builder.reachable = true → op.branchPops ≤ s.builder.depth)
    (hlimit : Builder.depthLimit < s.builder.landing op)
    (hne : s.builder.landing op ≠ s.builder.depth) :
    Disturbs s (.jumpTo op label) (.stackImbalance .overflow)
      ⟨s.host, { s.builder with depth := s.builder.landing op }⟩
  /-- A jump whose label has another depth than the one that it brings. -/
  | jump {op : OpCode} {label d : Nat} (hop : op.operand = .branchTarget)
    (hr : s.builder.reachable = true) (hpops : op.branchPops ≤ s.builder.depth)
    (hlimit : s.builder.landing op ≤ Builder.depthLimit)
    (hexpected : s.builder.expected label = some d) (hapart : s.builder.landing op ≠ d)
    (hne : s.builder.landing op ≠ s.builder.depth) :
    Disturbs s (.jumpTo op label) (.stackImbalance (.jump label (s.builder.landing op) d))
      ⟨s.host, { s.builder with depth := s.builder.landing op }⟩
  /-- A label behind code that is too long for it. -/
  | label {label : Nat} (hlt : label < s.builder.labels.size)
    (hplace : s.builder.place label = none) (hjoins : s.builder.Joins label s.builder.depth)
    (hsize : 0x100000000 ≤ s.builder.size) (hne : s.builder.resume label ≠ s.builder) :
    Disturbs s (.placeLabel label) (.malformed (.valueTooLarge s.builder.size))
      ⟨s.host, s.builder.resume label⟩

section
variable {a : Action σ} {s t : Emission σ} {e : Error}

/-- An action with an instruction either is refused before the builder is touched, or is
refused by the stack. -/
theorem refused_of_prepared {prep : Ask σ Prepared} (hprepared : a.prepared? = some prep)
    (h : a.perform.run s = .error e t) (hne : t.builder ≠ s.builder) : Disturbs s a e t := by
  rw [perform_of_prepared hprepared] at h
  rcases run_bind_error.mp h with h | ⟨i, u, hasked, h⟩
  · refine absurd ?_ hne
    rw [← builder_after_ask prep s, after_of_error h]
  obtain ⟨hrun, hsame⟩ := ask_ok.mp hasked
  obtain ⟨hhost, h⟩ := build_error.mp h
  rw [hsame] at h
  obtain ⟨host, b'⟩ := t
  rcases Build.emit_refused.mp h with ⟨-, -, hb'⟩ | ⟨hlow, hlimit, rfl, hb'⟩
  · exact absurd hb' hne
  · replace hhost : host = u.host := hhost
    replace hb' : b' = _ := hb'
    subst hhost
    subst hb'
    refine .overflow hprepared hrun (fun hr => ?_) hlimit fun hdepth => hne ?_
    · exact Nat.le_of_not_lt fun hlt => hlow ⟨hlt, hr⟩
    · show ({ s.builder with depth := i.depthAfter s.builder.depth } : Builder) = _
      rw [hdepth]

/-- A refused mark leaves everything as it was. -/
theorem builder_of_refused_mark (hmarks : a.marks = true) (h : a.perform.run s = .error e t) :
    t.builder = s.builder := by
  cases a with
  | startTry => exact Build.startTry_error (build_error.mp h).2
  | endTry => exact Build.endTry_error (build_error.mp h).2
  | startHandler => exact Build.startHandler_error (build_error.mp h).2
  | endHandler =>
    -- the region is checked, the host is asked, and only then is the clause recorded
    rcases run_bind_error.mp h with h | ⟨_, u, hcheck, h⟩
    · rw [← Build.after_checkHandlerEnd s.builder, after_of_error (build_error.mp h).2]
    obtain ⟨-, -, -, -, -, -, -, hu⟩ := Build.checkHandlerEnd_ok.mp (build_ok.mp hcheck).2
    rcases run_bind_error.mp h with h | ⟨token, v, hasked, h⟩
    · rw [← hu, ← builder_after_ask _ u, after_of_error h]
    · rw [← hu, ← (ask_ok.mp hasked).2]
      exact Build.endHandler_error (build_error.mp h).2
  | _ => cases hmarks

theorem refused_jumpTo {op : OpCode} {label : Nat} (hs : s.builder.Counted)
    (h : (jumpTo op label : Action σ).perform.run s = .error e t) (hne : t.builder ≠ s.builder) :
    Disturbs s (jumpTo op label) e t := by
  obtain ⟨hhost, h⟩ := build_error.mp h
  obtain ⟨host, b'⟩ := t
  replace hhost : host = s.host := hhost
  subst hhost
  by_cases hfit : op.operand = .branchTarget ∧ label < s.builder.labels.size
  · obtain ⟨hop, hlt⟩ := hfit
    have hdepth : ({ s.builder with depth := s.builder.landing op } : Builder) ≠ s.builder →
        s.builder.landing op ≠ s.builder.depth := by
      intro hother heq
      rw [heq] at hother
      exact hother rfl
    rcases (Build.jumpTo_refused hop hlt).mp h with
      ⟨-, -, hb'⟩ | ⟨hlow, hlimit, rfl, hb'⟩ | ⟨hlow, hlimit, d, hr, hexp, hapart, rfl, hb'⟩
    · exact absurd hb' hne
    · replace hb' : b' = _ := hb'
      subst hb'
      refine .jumpOverflow hop hlt (fun hr => ?_) hlimit (hdepth hne)
      exact Nat.le_of_not_lt fun hlt => hlow ⟨hlt, hr⟩
    · rw [hs.settle_landing hlimit] at hb'
      replace hb' : b' = _ := hb'
      subst hb'
      refine .jump hop hr ?_ hlimit hexp hapart (hdepth hne)
      exact Nat.le_of_not_lt fun hlt => hlow ⟨hlt, hr⟩
  · obtain ⟨e', hunfit⟩ := Build.run_jumpTo_unfit (b := s.builder) hfit
    rw [hunfit] at h
    cases h
    exact absurd rfl hne

theorem refused_placeLabel {label : Nat}
    (h : (placeLabel label : Action σ).perform.run s = .error e t)
    (hne : t.builder ≠ s.builder) : Disturbs s (placeLabel label) e t := by
  obtain ⟨hhost, h⟩ := build_error.mp h
  obtain ⟨host, b'⟩ := t
  replace hhost : host = s.host := hhost
  subst hhost
  rcases Build.placeLabel_error h with hb' | ⟨hlt, hsize, hjoins, hb'⟩
  · exact absurd hb' hne
  replace hb' : b' = _ := hb'
  subst hb'
  cases hplace : s.builder.place label with
  | some p =>
    rw [Build.run_placeLabel_placed hplace] at h
    obtain ⟨-, hsame⟩ := EStateM.Result.error.inj h
    exact absurd hsame.symm hne
  | none =>
    rw [Build.run_placeLabel hlt hplace hjoins, if_neg (Nat.not_lt.mpr hsize)] at h
    cases h
    exact .label hlt hplace hjoins hsize hne

/-- What is listed does happen. -/
theorem Disturbs.refused (h : Disturbs s a e t) (hs : s.builder.Counted) :
    a.perform.run s = .error e t ∧ t.builder ≠ s.builder := by
  have hdepth : ∀ {d : Nat}, d ≠ s.builder.depth → { s.builder with depth := d } ≠ s.builder :=
    fun hne heq => hne (congrArg Builder.depth heq)
  cases h with
  | @overflow a prep i host hprepared hrun hpops hlimit hne =>
    refine ⟨?_, hdepth hne⟩
    rw [perform_of_prepared hprepared]
    refine run_bind_error.mpr (.inr ⟨i, ⟨host, s.builder⟩, ask_ok.mpr ⟨hrun, rfl⟩, ?_⟩)
    refine build_error.mpr ⟨rfl, Build.emit_refused.mpr (.inr ⟨fun hlow => ?_, hlimit, rfl, rfl⟩)⟩
    exact absurd (hpops hlow.2) (Nat.not_le.mpr hlow.1)
  | jumpOverflow hop hlt hpops hlimit hne =>
    refine ⟨build_error.mpr ⟨rfl, ?_⟩, hdepth hne⟩
    refine (Build.jumpTo_refused hop hlt).mpr (.inr (.inl ⟨fun hlow => ?_, hlimit, rfl, rfl⟩))
    exact absurd (hpops hlow.2) (Nat.not_le.mpr hlow.1)
  | @jump op label d hop hr hpops hlimit hexpected hapart hne =>
    refine ⟨build_error.mpr ⟨rfl, ?_⟩, hdepth hne⟩
    refine (Build.jumpTo_refused hop (Builder.lt_of_expected hexpected)).mpr (.inr (.inr ?_))
    refine ⟨fun hlow => absurd hpops (Nat.not_le.mpr hlow.1), hlimit, d, hr, hexpected, hapart, rfl, ?_⟩
    exact (hs.settle_landing hlimit).symm
  | label hlt hplace hjoins hsize hne =>
    refine ⟨build_error.mpr ⟨rfl, ?_⟩, hne⟩
    show (Build.placeLabel _).run s.builder = .error _ _
    rw [Build.run_placeLabel hlt hplace hjoins, if_neg (Nat.not_lt.mpr hsize)]

/-- Nothing but the depth is disturbed, unless the code is too long for a label. -/
theorem Disturbs.depth (h : Disturbs s a e t) (hsize : s.builder.size < 0x100000000) :
    t.builder = { s.builder with depth := t.builder.depth } := by
  cases h with
  | label _ _ _ hlong _ => exact absurd hsize (Nat.not_lt.mpr hlong)
  | _ => rfl

/-- What a refused action disturbs is listed. -/
theorem disturbs_of_refused (ha : a.isSingle = true) (hs : s.builder.Counted)
    (h : a.perform.run s = .error e t) (hne : t.builder ≠ s.builder) : Disturbs s a e t := by
  cases a with
  | plain _ | mnemonic _ | loadInt _ | withToken _ _ | withType _ _ | loadString _ | call _ _
  | loadLocal _ | storeLocal _ | loadArgument _ => exact refused_of_prepared rfl h hne
  | startTry | endTry | startHandler | endHandler =>
    exact absurd (builder_of_refused_mark rfl h) hne
  | jumpTo op label => exact refused_jumpTo hs h hne
  | placeLabel label => exact refused_placeLabel h hne
  | splice ownCode => exact absurd (Build.splice_error (build_error.mp h).2) hne
  | ask _ | loadArgumentAsObject _ _ | loadTypeOf _ | createLabel | jump _ => cases ha

end

/-- When an action that appends at most one instruction or mark is refused in a run, the
builder stays as it was except in the listed cases, and in those only the depth that is
followed is another one, as long as the code is not too long for a label. -/
theorem refused_in_run (acts : List (Action σ)) (host : σ) (exceptions : ExceptionTable)
    {a : Action σ} (ha : a.isSingle = true) :
    let s := run acts ⟨host, .start exceptions⟩
    ∀ e t, (a.perform.run s = .error e t ∧ t.builder ≠ s.builder ↔ Disturbs s a e t) ∧
      (a.perform.run s = .error e t → s.builder.size < 0x100000000 →
        t.builder = { s.builder with depth := t.builder.depth }) := by
  intro s e t
  have hs : s.builder.Counted := run_counted acts (.start exceptions)
  refine ⟨⟨fun h => disturbs_of_refused ha hs h.1 h.2, fun h => h.refused hs⟩, fun h hsize => ?_⟩
  by_cases hsame : t.builder = s.builder
  · rw [hsame]
  · exact (disturbs_of_refused ha hs h hsame).depth hsize

/-- A label at the start of the code, and two values behind it. -/
def twoBehindLabel : List (Action StoredMethod) :=
  [.createLabel, .placeLabel 0, .plain .ldnull, .plain .ldnull]

theorem refused_in_run_twoBehindLabel :
    let s := run twoBehindLabel ⟨.empty, .start .empty⟩
    (jumpTo .brtrue 0 : Action StoredMethod).isSingle = true ∧ ∃ t,
      (jumpTo .brtrue 0 : Action StoredMethod).perform.run s =
        .error (.stackImbalance (.jump 0 1 0)) t ∧
      t.builder ≠ s.builder ∧ t.builder = { s.builder with depth := 1 } := by
  intro s
  have hdisturbs : Disturbs s (jumpTo .brtrue 0) (.stackImbalance (.jump 0 1 0))
      ⟨s.host, { s.builder with depth := 1 }⟩ :=
    .jump rfl rfl (by decide : 1 ≤ 2) (by decide : 1 ≤ 0xFFFF) rfl (by decide : 1 ≠ 0)
      (by decide : 1 ≠ 2)
  obtain ⟨hrefused, hne⟩ := (refused_in_run twoBehindLabel .empty .empty rfl _ _).1.mpr hdisturbs
  exact ⟨rfl, _, hrefused, hne, rfl⟩

/-- A jump back to the label that takes one of the values is refused, but the value is gone. -/
theorem depth_after_refused_jump : ∃ t,
    (jumpTo .brtrue 0 : Action StoredMethod).perform.run
      (run twoBehindLabel ⟨.empty, .start .empty⟩) = .error (.stackImbalance (.jump 0 1 0)) t ∧
    (run twoBehindLabel ⟨.empty, .start .empty⟩).builder.depth = 2 ∧ t.builder.depth = 1 :=
  ⟨_, rfl, rfl, rfl⟩

end Action

end CilInstrument
