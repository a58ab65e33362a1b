import CilInstrument.Code.Emission
import CilInstrument.Proofs.BuilderSteps

/- Everything that can be asked of a builder from outside, as data, and what a row of
   such actions leaves behind. A refused action leaves what it did until it was refused,
   and the next one goes on from there. Each action is made of a few elementary steps
   (`Action.perform_elementary`): most only append instructions, four only mark a
   protected region, and the rest is one step each. -/
namespace CilInstrument

/-- One request to a builder. -/
inductive Action (σ : Type) where
  /-- Anything that only concerns the host. -/
  | ask (question : Ask σ Unit)
  | plain (op : OpCode)
  | mnemonic (text : String)
  | loadInt (value : Int32)
  | withToken (op : OpCode) (token : Token)
  | withType (op : OpCode) (name : String)
  | loadString (value : String)
  | call (op : OpCode) (member : String)
  | loadLocal (index : UInt16)
  | storeLocal (index : UInt16)
  | loadArgument (index : UInt16)
  | loadArgumentAsObject (index : UInt16) (param : ParamSig)
  | loadTypeOf (param : ParamSig)
  | createLabel
  | jump (op : OpCode)
  | jumpTo (op : OpCode) (label : Nat)
  | placeLabel (label : Nat)
  | startTry
  | endTry
  | startHandler
  | endHandler
  | splice (ownCode : List UInt8)

namespace Action

variable {σ : Type}

/-- Only instructions other than jumps are appended. -/
def appends : Action σ → Bool
  | createLabel | jump _ | jumpTo _ _ | placeLabel _ | startTry | endTry | startHandler
  | endHandler | splice _ => false
  | _ => true

/-- Only the marks of a protected region are set. -/
def marks : Action σ → Bool
  | startTry | endTry | startHandler | endHandler => true
  | _ => false

variable [Resolver σ]

def perform : Action σ → Emit σ Unit
  | ask question => Emit.ask question
  | plain op => Emit.build (Build.plain op)
  | mnemonic text => Emit.build (Build.mnemonic text)
  | loadInt value => Emit.build (Build.loadInt value)
  | withToken op token => Emit.build (Build.withToken op token)
  | withType op name => Emit.withType op name
  | loadString value => Emit.loadString value
  | call op member => Emit.call op member
  | loadLocal index => Emit.build (Build.loadLocal index)
  | storeLocal index => Emit.build (Build.storeLocal index)
  | loadArgument index => Emit.build (Build.loadArgument index)
  | loadArgumentAsObject index param => Emit.loadArgumentAsObject index param
  | loadTypeOf param => Emit.loadTypeOf param
  | createLabel => discard (Emit.build Build.createLabel)
  | jump op => discard (Emit.build (Build.jump op))
  | jumpTo op label => Emit.build (Build.jumpTo op label)
  | placeLabel label => Emit.build (Build.placeLabel label)
  | startTry => Emit.build Build.startTry
  | endTry => Emit.build Build.endTry
  | startHandler => Emit.build Build.startHandler
  | endHandler => Emit.endHandler
  | splice ownCode => Emit.build (Build.splice ownCode)

/-- What a row of actions leaves behind. A refused action leaves what it did until then,
and the next one goes on from there. -/
def run : List (Action σ) → Emission σ → Emission σ
  | [], s => s
  | a :: rest, s => run rest (a.perform.after s)

@[simp] theorem run_nil (s : Emission σ) : run [] s = s := rfl

@[simp] theorem run_cons (a : Action σ) (rest : List (Action σ)) (s : Emission σ) :
    run (a :: rest) s = run rest (a.perform.after s) := rfl

theorem run_append (first second : List (Action σ)) (s : Emission σ) :
    run (first ++ second) s = run second (run first s) := by
  induction first generalizing s with
  | nil => rfl
  | cons a rest ih => exact ih (a.perform.after s)

/-- What is noted of a run, action by action. `note` sees the state in front of an action. -/
def history {β : Type} (note : Action σ → Emission σ → Option β) :
    List (Action σ) → Emission σ → List β
  | [], _ => []
  | a :: rest, s => (note a s).toList ++ history note rest (a.perform.after s)

section History
variable {β : Type} {note : Action σ → Emission σ → Option β}

theorem history_append (first second : List (Action σ)) (s : Emission σ) :
    history note (first ++ second) s =
      history note first s ++ history note second (run first s) := by
  induction first generalizing s with
  | nil => rfl
  | cons a rest ih =>
    rw [List.cons_append, history, history, ih, List.append_assoc, run_cons]

theorem mem_history {acts : List (Action σ)} {s : Emission σ} {x : β} :
    x ∈ history note acts s ↔
      ∃ before a behind, acts = before ++ a :: behind ∧ note a (run before s) = some x := by
  constructor
  · intro h
    induction acts generalizing s with
    | nil => cases h
    | cons a rest ih =>
      rcases List.mem_append.mp h with h | h
      · exact ⟨[], a, rest, rfl, Option.mem_toList.mp h⟩
      · obtain ⟨before, a', behind, rfl, hnote⟩ := ih h
        exact ⟨a :: before, a', behind, rfl, hnote⟩
  · intro h
    obtain ⟨before, a, behind, rfl, hnote⟩ := h
    rw [history_append]
    refine List.mem_append_right _ (List.mem_append_left _ ?_)
    exact Option.mem_toList.mpr hnote

/-- A view of the state that grows by what is noted of every action. -/
theorem view_run (view : Emission σ → List β)
    (hstep : ∀ a s, view (a.perform.after s) = view s ++ (note a s).toList)
    (acts : List (Action σ)) (s : Emission σ) :
    view (run acts s) = view s ++ history note acts s := by
  induction acts generalizing s with
  | nil => exact (List.append_nil _).symm
  | cons a rest ih => rw [run_cons, ih, hstep, List.append_assoc, history]

end History

end Action

/-! Steps without the host, and steps for the host alone. -/

namespace Emit

open Step

variable {σ α β : Type}

theorem run_build (x : Build α) (s : Emission σ) :
    (build x).run s =
      match x.run s.builder with
      | .ok a b => .ok a ⟨s.host, b⟩
      | .error e b => .error e ⟨s.host, b⟩ := rfl

theorem run_ask (question : Ask σ α) (s : Emission σ) :
    (ask question).run s =
      match question.run s.host with
      | .ok a host => .ok a ⟨host, s.builder⟩
      | .error e host => .error e ⟨host, s.builder⟩ := rfl

theorem after_build (x : Build α) (s : Emission σ) :
    (build x).after s = ⟨s.host, x.after s.builder⟩ := by
  unfold Step.after
  rw [run_build]
  cases x.run s.builder <;> rfl

theorem builder_after_ask (question : Ask σ α) (s : Emission σ) :
    ((ask question).after s).builder = s.builder := by
  unfold Step.after
  rw [run_ask]
  cases question.run s.host <;> rfl

/-- A step that only builds goes through exactly if it does without the host. -/
theorem build_ok {x : Build α} {s t : Emission σ} {a : α} :
    (build x).run s = .ok a t ↔ t.host = s.host ∧ x.run s.builder = .ok a t.builder := by
  rw [run_build]
  cases x.run s.builder with
  | ok a' b =>
    constructor
    · intro h
      cases h
      exact ⟨rfl, rfl⟩
    · intro h
      obtain ⟨hhost, hbuilder⟩ := h
      cases hbuilder
      rw [← hhost]
  | error e b => simp

theorem build_error {x : Build α} {s t : Emission σ} {e : Error} :
    (build x).run s = .error e t ↔ t.host = s.host ∧ x.run s.builder = .error e t.builder := by
  rw [run_build]
  cases x.run s.builder with
  | ok a b => simp
  | error e' b =>
    constructor
    · intro h
      cases h
      exact ⟨rfl, rfl⟩
    · intro h
      obtain ⟨hhost, hbuilder⟩ := h
      cases hbuilder
      rw [← hhost]

theorem builder_of_ask_ok {question : Ask σ α} {s t : Emission σ} {a : α}
    (h : (ask question).run s = .ok a t) : t.builder = s.builder := by
  rw [← builder_after_ask question s, Step.after_of_ok h]

theorem build_bind (x : Build α) (f : α → Build β) :
    (build (x >>= f) : Emit σ β) = build x >>= fun a => build (f a) := by
  funext s
  show (build (x >>= f)).run s = (build x >>= fun a => build (f a)).run s
  rw [EStateM.run_bind, run_build, run_build, EStateM.run_bind]
  cases x.run s.builder <;> rfl

theorem build_ofExcept (x : Except Error α) :
    (build (Step.ofExcept x) : Emit σ α) = Step.ofExcept x := by
  cases x <;> rfl

theorem ask_bind (x : Ask σ α) (f : α → Ask σ β) :
    (ask (x >>= f) : Emit σ β) = ask x >>= fun a => ask (f a) := by
  funext s
  show (ask (x >>= f)).run s = (ask x >>= fun a => ask (f a)).run s
  rw [EStateM.run_bind, run_ask, run_ask, EStateM.run_bind]
  cases x.run s.host <;> rfl

end Emit

/-- What an instruction with this opcode may do to the stack. -/
def OpCode.Affords (op : OpCode) (effect : StackEffect) : Prop :=
  op.fixedEffect? = some effect ∨ op.flow = .call ∧ ∃ member, op.callEffect member = .ok effect

theorem Build.fixedEffect_ok {op : OpCode} {kind : OperandKind} {effect : StackEffect} :
    fixedEffect op kind = .ok effect ↔ op.operand = kind ∧ op.fixedEffect? = some effect := by
  unfold fixedEffect
  split
  · next hkind => simp [hkind]
  · next hkind =>
    rw [Classical.not_not] at hkind
    cases op.fixedEffect? with
    | some e => simp [hkind]
    | none => simp

/-! Elementary steps. -/

namespace Emit

open Step

variable {σ α β : Type}

/-- Questions to the host, and steps that append one instruction. -/
inductive Appending : ∀ ⦃α : Type⦄, Emit σ α → Prop
  | ask {α : Type} (question : Ask σ α) : Appending (ask question)
  | emit {op : OpCode} {effect : StackEffect} {operand : Operand} :
    op.Affords effect → operand.kind = op.operand →
    Appending (build (Build.emit op effect operand))

/-- Questions to the host, and steps on protected regions. -/
inductive Marking : ∀ ⦃α : Type⦄, Emit σ α → Prop
  | ask {α : Type} (question : Ask σ α) : Marking (ask question)
  | startTry : Marking (build Build.startTry)
  | endTry : Marking (build Build.endTry)
  | startHandler : Marking (build Build.startHandler)
  | checkHandlerEnd : Marking (build Build.checkHandlerEnd)
  | endHandler (exceptionClass : Token) : Marking (build (Build.endHandler exceptionClass))

inductive Elementary : ∀ ⦃α : Type⦄, Emit σ α → Prop
  | appending {α : Type} {x : Emit σ α} : Appending x → Elementary x
  | marking {α : Type} {x : Emit σ α} : Marking x → Elementary x
  | createLabel : Elementary (build Build.createLabel)
  | jumpTo (op : OpCode) (label : Nat) : Elementary (build (Build.jumpTo op label))
  | placeLabel (label : Nat) : Elementary (build (Build.placeLabel label))
  | splice (ownCode : List UInt8) : Elementary (build (Build.splice ownCode))

theorem instruction_appending (op : OpCode) (operand : Operand) :
    MadeOf Appending (build (Build.instruction op operand) : Emit σ Unit) := by
  unfold Build.instruction
  rw [build_bind, build_ofExcept]
  cases heffect : Build.fixedEffect op operand.kind with
  | error e => exact .throw e
  | ok effect =>
    obtain ⟨hkind, hfixed⟩ := Build.fixedEffect_ok.mp heffect
    show MadeOf Appending (pure effect >>= fun e => build (Build.emit op e operand))
    rw [pure_bind]
    exact .base (.emit (.inl hfixed) hkind.symm)

theorem accessVariable_appending (forms : Build.VariableForms) (index : UInt16) :
    MadeOf Appending (build (Build.accessVariable forms index) : Emit σ Unit) :=
  instruction_appending _ _

theorem mnemonic_appending (text : String) :
    MadeOf Appending (build (Build.mnemonic text) : Emit σ Unit) := by
  unfold Build.mnemonic
  split
  · exact instruction_appending _ _
  · exact .throw _

variable [Resolver σ]

theorem withType_appending (op : OpCode) (name : String) :
    MadeOf Appending (withType op name : Emit σ Unit) :=
  .bind (.base (.ask _)) fun _ => instruction_appending _ _

theorem loadString_appending (value : String) :
    MadeOf Appending (loadString value : Emit σ Unit) :=
  .bind (.base (.ask _)) fun _ => instruction_appending _ _

theorem operand_of_call {op : OpCode} (h : op.flow = .call) : op.operand = .token := by
  cases op <;> first | rfl | cases h

theorem call_appending (op : OpCode) (member : String) :
    MadeOf Appending (call op member : Emit σ Unit) := by
  unfold call
  by_cases hflow : op.flow = .call
  · simp only [hflow, ne_eq, not_true_eq_false, if_false]
    cases heffect : op.callEffect member with
    | error e => exact .throw e
    | ok effect =>
      show MadeOf Appending (pure effect >>= fun e => ask (Resolver.memberToken member) >>=
        fun token => build (Build.emit op e (.token token)))
      rw [pure_bind]
      refine .bind (.base (.ask _)) fun token => .base (.emit ?_ ?_)
      · exact .inr ⟨hflow, member, heffect⟩
      · exact (operand_of_call hflow).symm
  · simp only [hflow, ne_eq, not_false_eq_true, if_true]
    exact .throw (.malformed (.notACall op))

theorem loadArgumentAsObject_appending (index : UInt16) (param : ParamSig) :
    MadeOf Appending (loadArgumentAsObject index param : Emit σ Unit) := by
  unfold loadArgumentAsObject
  refine .bind (accessVariable_appending _ _) fun _ =>
    .ite ?_ (.ite (instruction_appending _ _) (.pure _))
  refine .bind (.base (.ask _)) fun token => ?_
  have hbox : MadeOf Appending (build (Build.withToken .box token) : Emit σ Unit) :=
    instruction_appending _ _
  exact .ite (.bind (instruction_appending _ _) fun _ => hbox) hbox

theorem loadTypeOf_appending (param : ParamSig) :
    MadeOf Appending (loadTypeOf param : Emit σ Unit) :=
  .bind (.base (.ask _)) fun _ => .bind (instruction_appending _ _) fun _ => call_appending _ _

omit [Resolver σ] in
theorem jump_elementary (op : OpCode) : MadeOf Elementary (build (Build.jump op) : Emit σ Nat) := by
  unfold Build.jump
  rw [build_bind]
  refine .bind (.base .createLabel) fun label => ?_
  rw [build_bind]
  exact .bind (.base (.jumpTo op label)) fun _ => .pure label

theorem endHandler_marking : MadeOf Marking (endHandler : Emit σ Unit) :=
  .bind (.base .checkHandlerEnd) fun _ => .bind (.base (.ask _)) fun token =>
    .base (.endHandler token)

end Emit

namespace Action

open Step Emit

variable {σ : Type} [Resolver σ]

theorem perform_appending {a : Action σ} (h : a.appends = true) :
    MadeOf Appending a.perform := by
  cases a with
  | ask question => exact .base (.ask question)
  | plain op => exact instruction_appending _ _
  | mnemonic text => exact mnemonic_appending text
  | loadInt value => exact instruction_appending _ _
  | withToken op token => exact instruction_appending _ _
  | withType op name => exact withType_appending op name
  | loadString value => exact loadString_appending value
  | call op member => exact call_appending op member
  | loadLocal index => exact accessVariable_appending _ index
  | storeLocal index => exact accessVariable_appending _ index
  | loadArgument index => exact accessVariable_appending _ index
  | loadArgumentAsObject index param => exact loadArgumentAsObject_appending index param
  | loadTypeOf param => exact loadTypeOf_appending param
  | _ => cases h

theorem perform_marking {a : Action σ} (h : a.marks = true) : MadeOf Marking a.perform := by
  cases a with
  | startTry => exact .base .startTry
  | endTry => exact .base .endTry
  | startHandler => exact .base .startHandler
  | endHandler => exact endHandler_marking
  | _ => cases h

/-- Every action is made of elementary steps. -/
theorem perform_elementary (a : Action σ) : MadeOf Elementary a.perform := by
  by_cases happends : a.appends = true
  · exact (perform_appending happends).mono fun _ _ => .appending
  by_cases hmarks : a.marks = true
  · exact (perform_marking hmarks).mono fun _ _ => .marking
  cases a with
  | createLabel => exact MadeOf.discard (.base .createLabel)
  | jump op => exact MadeOf.discard (jump_elementary op)
  | jumpTo op label => exact .base (.jumpTo op label)
  | placeLabel label => exact .base (.placeLabel label)
  | splice ownCode => exact .base (.splice ownCode)
  | startTry | endTry | startHandler | endHandler => exact absurd rfl hmarks
  | _ => exact absurd rfl happends

end Action

end CilInstrument
