import CilInstrument.Proofs.Blocks

/- Building fails mildly. Every operation of the builder refuses with a mild error, so every
   action does, if the host is mild when it is asked for tokens (`Action.perform_mild`), and
   so does everything that instrumentation emits around code that does (`Emit.mild_closed`). -/
namespace CilInstrument

open Step

/-- The host has no fatal errors of its own when it is asked for tokens. -/
structure Resolver.Mild (σ : Type) [Resolver σ] : Prop where
  stringToken : ∀ value, Step.Mild (stringToken value : Ask σ Token)
  typeToken : ∀ name, Step.Mild (typeToken name : Ask σ Token)
  memberToken : ∀ member, Step.Mild (memberToken member : Ask σ Token)
  typeSpecToken : ∀ blob, Step.Mild (typeSpecToken blob : Ask σ Token)
  typeSignature : ∀ name, Step.Mild (typeSignature name : Ask σ (List UInt8))

/-- Nor when it is asked for the stored method, or to keep a signature. Whatever error it has
when it refuses the finished body, what becomes of it is fatal in any case. -/
structure Host.Mild (σ : Type) [Host σ] : Prop where
  names : Resolver.Mild σ
  methodBytes : Step.Mild (methodBytes : Ask σ (List UInt8))
  signatureOf : ∀ token, Step.Mild (signatureOf token : Ask σ (List UInt8))
  internSignature : ∀ blob, Step.Mild (internSignature blob : Ask σ Token)

/-! Operations of the builder. -/

namespace Build

theorem position_mild : Mild position :=
  .bind .get fun _ => .ofExcept (.ite (.ok _) (.error rfl))

theorem applyEffect_mild (op : OpCode) (effect : StackEffect) : Mild (applyEffect op effect) :=
  .bind .get fun _ => .check rfl (.bind (.modify _) fun _ => .check rfl (.modify _))

theorem endFlow_mild (op : OpCode) : Mild (endFlow op) := .ite (.modify _) (.pure _)

theorem emit_mild (op : OpCode) (effect : StackEffect) (operand : Operand) :
    Mild (emit op effect operand) :=
  (applyEffect_mild op effect).bind fun _ => .bind (.modify _) fun _ => endFlow_mild op

theorem fixedEffect_mildly (op : OpCode) (kind : OperandKind) : FailsMildly (fixedEffect op kind) := by
  refine .ite (.error rfl) ?_
  cases op.fixedEffect? with
  | some effect => exact .ok _
  | none => exact .error rfl

theorem instruction_mild (op : OpCode) (operand : Operand) : Mild (instruction op operand) :=
  .bind (.ofExcept (fixedEffect_mildly _ _)) fun effect => emit_mild op effect operand

theorem mnemonic_mild (text : String) : Mild (mnemonic text) := by
  unfold mnemonic
  split
  · exact instruction_mild _ _
  · exact .throw rfl

theorem createLabel_mild : Mild createLabel :=
  .bind .get fun _ => .bind (.modify _) fun _ => .pure _

theorem labelAt_mild (label : Nat) : Mild (labelAt label) := by
  refine .bind .get fun b => ?_
  cases b.labels[label]? with
  | some l => exact .pure l
  | none => exact .throw rfl

theorem meetLabel_mild (label : Nat) : Mild (meetLabel label) := by
  refine .bind .get fun b => .ite ((labelAt_mild label).bind fun l => ?_) (.pure _)
  cases l.depth with
  | some expected => exact .ite (.throw rfl) (.pure _)
  | none => exact .modify _

theorem jumpTo_mild (op : OpCode) (label : Nat) : Mild (jumpTo op label) := by
  have hrest : Mild (do
      meetLabel label
      modify fun b => { b with code := b.code.push (.jump op label) }
      endFlow op : Build Unit) :=
    (meetLabel_mild label).bind fun _ => .bind (.modify _) fun _ => endFlow_mild op
  refine .check rfl ((labelAt_mild label).discard.bind fun _ => .ite ?_ ?_)
  · exact .bind (.modify _) fun _ => hrest
  · exact .bind (.ofExcept (fixedEffect_mildly _ _)) fun effect =>
      (applyEffect_mild op effect).bind fun _ => hrest

theorem jump_mild (op : OpCode) : Mild (jump op) :=
  createLabel_mild.bind fun label => (jumpTo_mild op label).bind fun _ => .pure label

theorem placeLabel_mild (label : Nat) : Mild (placeLabel label) := by
  have hrest : Mild (do
      modify fun b => { b with reachable := true }
      let position ← position
      setLabel label { ← labelAt label with position := some position } : Build Unit) :=
    .bind (.modify _) fun _ => position_mild.bind fun _ => (labelAt_mild label).bind fun _ => .modify _
  refine (labelAt_mild label).bind fun l => .check rfl (.bind .get fun b => ?_)
  cases l.depth with
  | some expected =>
    cases b.reachable with
    | false => exact .bind (.modify _) fun _ => hrest
    | true => exact .check rfl hrest
  | none =>
    cases b.reachable with
    | false => exact .bind (.modify _) fun _ => hrest
    | true => exact .bind (.modify _) fun _ => hrest

theorem startTry_mild : Mild startTry :=
  .bind .get fun _ => .check rfl (position_mild.bind fun _ => .modify _)

theorem endTry_mild : Mild endTry := by
  refine position_mild.bind fun position => .bind .get fun b => ?_
  split
  · exact .check rfl (.modify _)
  · exact .throw rfl

theorem startHandler_mild : Mild startHandler := by
  refine position_mild.bind fun position => .bind .get fun b => ?_
  split
  · exact .bind (.modify _) fun _ => applyEffect_mild _ _
  · exact .throw rfl

theorem checkHandlerEnd_mild : Mild checkHandlerEnd := by
  refine position_mild.bind fun position => .bind .get fun b => ?_
  split
  · exact .ite (.throw rfl) (.pure _)
  · exact .throw rfl

theorem endHandler_mild (exceptionClass : Token) : Mild (endHandler exceptionClass) := by
  refine checkHandlerEnd_mild.bind fun _ => position_mild.bind fun position => .bind .get fun b => ?_
  split
  · exact .modify _
  · exact .throw rfl

theorem splice_mild (ownCode : List UInt8) : Mild (splice ownCode) := by
  refine .bind .get fun b => ?_
  cases b.spliceOffset with
  | some offset =>
    exact .bind (.throw rfl) fun _ => .check rfl (position_mild.bind fun _ => .modify _)
  | none => exact .check rfl (position_mild.bind fun _ => .modify _)

end Build

/-! Building with a host. -/

theorem OpCode.callEffect_mildly (op : OpCode) (member : String) :
    FailsMildly (op.callEffect member) := by
  unfold callEffect
  split
  · exact .error rfl
  · exact .ite (.error rfl) (.ite (.ok _) (.ok _))

namespace Emit

variable {σ α : Type}

theorem build_mild {x : Build α} (h : Mild x) : Mild (build x : Emit σ α) := by
  refine .lifted Emission.builder (fun s builder => { s with builder }) (fun s => ?_) h
  cases hrun : x.run s.builder <;> rw [run_build, hrun]

theorem ask_mild {question : Ask σ α} (h : Mild question) : Mild (ask question : Emit σ α) := by
  refine .lifted Emission.host (fun s host => { s with host }) (fun s => ?_) h
  cases hrun : question.run s.host <;> rw [run_ask, hrun]

theorem instruction_mild (op : OpCode) (operand : Operand) :
    Mild (build (Build.instruction op operand) : Emit σ Unit) :=
  build_mild (Build.instruction_mild op operand)

variable [Resolver σ] (hnames : Resolver.Mild σ)
include hnames

theorem call_mild (op : OpCode) (member : String) : Mild (call op member : Emit σ Unit) := by
  refine .check rfl (.bind (.ofExcept (op.callEffect_mildly member)) fun effect => ?_)
  exact (ask_mild (hnames.memberToken member)).bind fun token => build_mild (Build.emit_mild _ _ _)

theorem endHandler_mild : Mild (endHandler : Emit σ Unit) :=
  (build_mild Build.checkHandlerEnd_mild).bind fun _ => (ask_mild (hnames.typeToken _)).bind
    fun token => build_mild (Build.endHandler_mild token)

theorem loadArgumentAsObject_mild (index : UInt16) (param : ParamSig) :
    Mild (loadArgumentAsObject index param : Emit σ Unit) := by
  refine .bind (instruction_mild _ _) fun _ => .ite ?_ (.ite (instruction_mild _ _) (.pure _))
  refine (ask_mild (hnames.typeSpecToken _)).bind fun token => ?_
  exact .ite (.bind (instruction_mild _ _) fun _ => instruction_mild _ _) (instruction_mild _ _)

end Emit

open Emit in
/-- A single action fails mildly, unless the caller has a question to the host. -/
theorem Action.perform_mild {σ : Type} [Resolver σ] (hnames : Resolver.Mild σ) {a : Action σ}
    (h : a.isQuestion = false) : Step.Mild a.perform := by
  cases a with
  | ask question => cases h
  | plain _ | loadInt _ | withToken _ _ | loadLocal _ | storeLocal _ | loadArgument _ =>
    exact instruction_mild _ _
  | mnemonic text => exact build_mild (Build.mnemonic_mild text)
  | withType op name =>
    exact (ask_mild (hnames.typeToken name)).bind fun _ => instruction_mild _ _
  | loadString value =>
    exact (ask_mild (hnames.stringToken value)).bind fun _ => instruction_mild _ _
  | call op member => exact call_mild hnames op member
  | loadArgumentAsObject index param => exact loadArgumentAsObject_mild hnames index param
  | loadTypeOf param =>
    exact (ask_mild (hnames.typeSpecToken _)).bind fun _ => .bind (instruction_mild _ _)
      fun _ => call_mild hnames _ _
  | createLabel => exact (build_mild Build.createLabel_mild).discard
  | jump op => exact (build_mild (Build.jump_mild op)).discard
  | jumpTo op label => exact build_mild (Build.jumpTo_mild op label)
  | placeLabel label => exact build_mild (Build.placeLabel_mild label)
  | startTry => exact build_mild Build.startTry_mild
  | endTry => exact build_mild Build.endTry_mild
  | startHandler => exact build_mild Build.startHandler_mild
  | endHandler => exact endHandler_mild hnames
  | splice ownCode => exact build_mild (Build.splice_mild ownCode)

/-- Everything that is emitted around code that fails mildly does so itself. -/
theorem Emit.mild_closed {σ : Type} [Resolver σ] (hnames : Resolver.Mild σ) :
    Closed (σ := σ) fun ⦃_⦄ x => Step.Mild x where
  perform := fun _ h => Action.perform_mild hnames h
  jump := fun op => build_mild (Build.jump_mild op)
  view := fun _ => build_mild (.bind .get fun _ => .pure _)
  pure := .pure
  throw := .throw
  bind := .bind

end CilInstrument
