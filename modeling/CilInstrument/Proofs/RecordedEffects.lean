import CilInstrument.Proofs.ControlFlow

/- The effects that the entries of the code are recorded with. The stack effect of a call hangs
   on the member, of which the code keeps the token alone, so it is recorded when the call is
   appended. Here it is told from the actions what is recorded (`Action.effects`): `Puts` says
   of a step which effects its entries have, with one lemma for each instruction and one for
   each way to put steps together, and `Action.perform_puts` says it of every action. -/
namespace CilInstrument

/-- The effects of the entries of the code, in their order. -/
def Emission.effects {σ : Type} (s : Emission σ) : List (Option StackEffect) :=
  s.builder.code.items.toList.map CodeItem.effect?

namespace Emit

open Step

variable {σ α β : Type} {added first second : List (Option StackEffect)}

/-- If the step goes through, the entries that it appends have just these effects. -/
def Puts (added : List (Option StackEffect)) (x : Emit σ α) : Prop :=
  ∀ ⦃s t a⦄, x.run s = .ok a t → t.effects = s.effects ++ added

namespace Puts

theorem of_code {x : Emit σ α}
    (h : ∀ {s t a}, x.run s = .ok a t → t.builder.code = s.builder.code) : Puts [] x := by
  intro s t a hrun
  rw [Emission.effects, h hrun, List.append_nil]
  rfl

theorem of_push {x : Emit σ α} {item : CodeItem}
    (h : ∀ {s t a}, x.run s = .ok a t → t.builder.code = s.builder.code.push item) :
    Puts [item.effect?] x := by
  intro s t a hrun
  rw [Emission.effects, h hrun]
  simp [Code.push, Emission.effects]

theorem pure (a : α) : Puts [] (pure a : Emit σ α) := of_code fun h => by cases h; rfl

theorem throw (e : Error) : Puts added (throw e : Emit σ α) := fun _ _ _ h => by cases h

theorem bind {x : Emit σ α} {f : α → Emit σ β} (hx : Puts first x) (hf : ∀ a, Puts second (f a)) :
    Puts (first ++ second) (x >>= f) := by
  intro s t b hrun
  obtain ⟨a, u, hrun, hrest⟩ := run_bind_ok.mp hrun
  rw [hf a hrest, hx hrun, List.append_assoc]

theorem discard {x : Emit σ α} (hx : Puts added x) : Puts added (discard x : Emit σ PUnit) := by
  rw [discard_eq_bind, ← List.append_nil added]
  exact .bind hx fun _ => .pure ()

theorem ite {c : Prop} [Decidable c] {x y : Emit σ α} (hx : Puts first x) (hy : Puts second y) :
    Puts (if c then first else second) (if c then x else y) := by
  split
  · exact hx
  · exact hy

theorem ask (question : Ask σ α) : Puts [] (ask question) :=
  of_code fun h => congrArg Builder.code (builder_of_ask_ok h)

theorem emit (op : OpCode) (operand : Operand) (effect : StackEffect) :
    Puts [some effect] (build (Build.emit op effect operand) : Emit σ Unit) :=
  @of_push _ _ _ (.instruction op operand effect) fun h => by
    obtain ⟨-, -, hb'⟩ := Build.emit_ok.mp (build_ok.mp h).2
    rw [hb']
    rfl

theorem instruction (op : OpCode) (operand : Operand) :
    Puts [op.fixedEffect?] (build (Build.instruction op operand) : Emit σ Unit) := by
  unfold Build.instruction
  rw [build_bind, build_ofExcept]
  cases heffect : Build.fixedEffect op operand.kind with
  | error e => exact .throw e
  | ok effect =>
    rw [(Build.fixedEffect_ok.mp heffect).2]
    exact .emit op operand effect

theorem mnemonic (text : String) :
    Puts ((OpCode.ofMnemonic? text).toList.map OpCode.fixedEffect?)
      (build (Build.mnemonic text) : Emit σ Unit) := by
  unfold Build.mnemonic
  cases OpCode.ofMnemonic? text with
  | some op => exact .instruction op .none
  | none => exact .throw _

/-- All forms of access to a variable have one effect. -/
theorem access {forms : Build.VariableForms} {effect : StackEffect}
    (h : ∀ op ∈ [forms.first, forms.second, forms.third, forms.fourth, forms.short, forms.long],
      op.fixedEffect? = some effect) (index : UInt16) :
    Puts [some effect] (build (Build.accessVariable forms index) : Emit σ Unit) := by
  have hform : (forms.shortest index).1.fixedEffect? = some effect := by
    refine h _ ?_
    unfold Build.VariableForms.shortest
    split
    case h_5 => split <;> simp
    all_goals simp
  rw [← hform]
  exact .instruction _ _

theorem jumpTo (op : OpCode) (label : Nat) :
    Puts [op.fixedEffect?] (build (Build.jumpTo op label) : Emit σ Unit) :=
  @of_push _ _ _ (.jump op label) fun h => (Build.jumped_of_ok (build_ok.mp h).2).code

theorem createLabel : Puts [] (build Build.createLabel : Emit σ Nat) := of_code fun h => by
  rw [← after_of_ok h, after_build]
  rfl

theorem jump (op : OpCode) : Puts [op.fixedEffect?] (build (Build.jump op) : Emit σ Nat) := by
  unfold Build.jump
  simp only [build_bind]
  exact .bind .createLabel fun label => .bind (.jumpTo op label) fun _ => .pure label

variable [Resolver σ]

theorem call (op : OpCode) (member : String) :
    Puts [(op.callEffect member).toOption] (call op member : Emit σ Unit) := by
  unfold Emit.call
  by_cases hflow : op.flow = .call
  · simp only [hflow, ne_eq, not_true_eq_false, if_false]
    cases heffect : op.callEffect member with
    | error e => exact .throw e
    | ok effect => exact .bind (.ask _) fun token => .emit op (.token token) effect
  · simp only [hflow, ne_eq, not_false_eq_true, if_true]
    exact .throw _

end Puts

end Emit

namespace Action

open Step Emit

variable {σ : Type}

/-- The effects that the entries of an action are to have: those of its opcodes, and for a call
the one of the member that the action names. -/
def effects : Action σ → List (Option StackEffect)
  | plain op | withToken op _ | withType op _ => [op.fixedEffect?]
  | mnemonic text => (OpCode.ofMnemonic? text).toList.map OpCode.fixedEffect?
  | loadInt _ | loadString _ | loadLocal _ | loadArgument _ => [some ⟨0, 1⟩]
  | storeLocal _ => [some ⟨1, 0⟩]
  | call op member => [(op.callEffect member).toOption]
  | loadArgumentAsObject _ param =>
    some ⟨0, 1⟩ ::
      if param.base.needsBoxing then
        if param.isByRef then [OpCode.fixedEffect? .ldobj, OpCode.fixedEffect? .box]
        else [OpCode.fixedEffect? .box]
      else if param.isByRef then [OpCode.fixedEffect? .ldindRef] else []
  | loadTypeOf _ =>
    [some ⟨0, 1⟩, (OpCode.callEffect .call RuntimeLibrary.typeFromHandle).toOption]
  | jump op | jumpTo op _ => [op.fixedEffect?]
  | splice _ => [some ⟨0, 0⟩]
  | ask _ | createLabel | placeLabel _ | startTry | endTry | startHandler | endHandler => []

variable [Resolver σ]

/-- An action that goes through appends entries with the effects that they are to have. -/
theorem perform_puts (a : Action σ) : Puts a.effects a.perform := by
  have hmark : a.marks = true → Puts [] a.perform := fun hmarks => .of_code fun {s t _} h => by
    have hkeeps := ((perform_marking hmarks).mono fun _ _ h => h.keeps_code).keeps s
    rwa [after_of_ok h] at hkeeps
  cases a with
  | ask question => exact .ask question
  | plain op => exact .instruction op .none
  | mnemonic text => exact .mnemonic text
  | loadInt value => exact .instruction .ldcI4 (.int value)
  | withToken op token => exact .instruction op (.token token)
  | withType op name => exact .bind (.ask _) fun token => .instruction op (.token token)
  | loadString value => exact .bind (.ask _) fun token => .instruction .ldstr (.token token)
  | call op member => exact .call op member
  | loadLocal index => exact .access (by decide) index
  | storeLocal index => exact .access (by decide) index
  | loadArgument index => exact .access (by decide) index
  | loadArgumentAsObject index param =>
    refine .bind (.access (by decide) index) fun _ => .ite ?_ (.ite (.instruction _ _) (.pure ()))
    show Puts ([] ++ if param.isByRef then _ else _) _
    refine .bind (.ask _) fun token => ?_
    exact .ite (.bind (.instruction _ _) fun _ => .instruction _ _) (.instruction _ _)
  | loadTypeOf param =>
    exact .bind (.ask _) fun type => .bind (.instruction .ldtoken (.token type)) fun _ => .call _ _
  | createLabel => exact .discard .createLabel
  | jump op => exact .discard (.jump op)
  | jumpTo op label => exact .jumpTo op label
  | placeLabel label => exact .of_code fun h => (Build.placed_of_ok (build_ok.mp h).2).code
  | splice ownCode =>
    exact @Puts.of_push _ _ _ (.splice ownCode) fun h => by
      obtain ⟨-, -, -, hb'⟩ := Build.splice_ok.mp (build_ok.mp h).2
      rw [hb']
  | startTry | endTry | startHandler | endHandler => exact hmark rfl

end Action

end CilInstrument
