import CilInstrument.Body.ExceptionTable
import CilInstrument.Code.Instruction
import CilInstrument.Step

/- The builder of a method's code. It appends instructions, labels and the marks of
   protected regions, and follows the depth of the evaluation stack over all of them:
   to know the deepest stack, and to refuse code that would leave the stack in an
   inconsistent state. A refused step says what is wrong; what it did before it was
   refused stays done. -/
namespace CilInstrument

/-- A jump target of the code being built. -/
structure Label where
  /-- Where it was placed. -/
  position : Option Nat
  /-- The stack depth on the paths that lead to it, once one of them is known. -/
  depth : Option Nat
  deriving Repr, DecidableEq

/-- A protected region whose clause is not recorded yet, by how far it got. -/
inductive Region where
  | inTry (start : Nat)
  | afterTry (start stop : Nat)
  | inHandler (start stop handler : Nat)
  deriving Repr, DecidableEq

/-- Where the try block starts. -/
def Region.start : Region → Nat
  | inTry start | afterTry start _ | inHandler start _ _ => start

structure Builder where
  code : Code
  labels : Array Label
  /-- Open regions, the innermost first. -/
  regions : List Region
  exceptions : ExceptionTable
  /-- Where the method's own code stands, once it was spliced in. -/
  spliceOffset : Option Nat
  /-- Values on the evaluation stack. In unreachable code the number means nothing, but
      it is kept up to the next label. -/
  depth : Nat
  /-- The largest depth so far. -/
  maxDepth : Nat
  /-- The next instruction can be reached by falling through. -/
  reachable : Bool

/-- A step of building. -/
abbrev Build := Step Builder

namespace Builder

/-- A builder without code, for a body with the given clauses. -/
def start (exceptions : ExceptionTable) : Builder :=
  ⟨Code.empty, #[], [], exceptions, none, 0, 0, true⟩

/-- The largest stack depth that a header can state. -/
def depthLimit : Nat := 0xFFFF

def size (b : Builder) : Nat := b.code.size

/-- The depth as a 16-bit number. -/
def stackDepth (b : Builder) : Nat := min b.depth depthLimit

def hasOwnCode (b : Builder) : Bool := b.spliceOffset.isSome

/-- Where the method's own code stands, 0 if it was not spliced in. -/
def ownCodeOffset (b : Builder) : Nat := b.spliceOffset.getD 0

def hasClauses (b : Builder) : Bool := !b.exceptions.isEmpty

/-- Where a label stands. -/
def place (b : Builder) (label : Nat) : Option Nat := b.labels[label]?.bind (·.position)

/-- The finished code. All regions must be closed and all labels that are jumped to
    must be placed. -/
def bytes (b : Builder) : Except Error (List UInt8) :=
  match b.regions with
  | region :: _ => .error (.malformed (.regionNotClosed region.start))
  | [] => do return (← b.code.bytes b.place).toList

/-- The section with the clauses for this code. Inherited clauses need the code that
    they are about. -/
def sectionBytes (b : Builder) : Except Error (List UInt8) :=
  if !b.hasOwnCode && !b.exceptions.inherited.isEmpty then .error (.malformed .clausesWithoutCode)
  else b.exceptions.encode (UInt32.ofNat b.ownCodeOffset)

end Builder

namespace Build

/-- The position of the next instruction. -/
def position : Build Nat := do Step.ofExcept (codeOffset (← get).size)

/-! Stack depth. -/

/-- The depth as a 16-bit number. -/
def stackDepth : Build Nat := do return (← get).stackDepth

/-- Whether the next instruction can be reached by falling through. -/
def isReachable : Build Bool := do return (← get).reachable

/-- Takes values off the stack and puts values onto it. In unreachable code a stack
    that is too short counts as empty. The new depth holds even if it is refused for
    being beyond the limit. -/
def applyEffect (op : OpCode) (effect : StackEffect) : Build Unit := do
  let b ← get
  if b.depth < effect.pops ∧ b.reachable then
    throw (.stackImbalance (.underflow op effect.pops b.depth))
  let depth := b.depth - effect.pops + effect.pushes
  modify fun b => { b with depth }
  if Builder.depthLimit < depth then throw (.stackImbalance .overflow)
  modify fun b => { b with maxDepth := max b.maxDepth depth }

/-- Code behind an instruction that never falls through is unreachable. -/
def endFlow (op : OpCode) : Build Unit := do
  if op.flow.isTerminal then modify fun b => { b with reachable := false }

/-! Instructions. -/

/-- Appends one instruction; the stack is checked first. -/
def emit (op : OpCode) (effect : StackEffect) (operand : Operand) : Build Unit := do
  applyEffect op effect
  modify fun b => { b with code := b.code.push (.instruction op operand effect) }
  endFlow op

/-- The effect of an opcode that takes operands of the given kind. -/
def fixedEffect (op : OpCode) (kind : OperandKind) : Except Error StackEffect :=
  if op.operand ≠ kind then .error (.malformed (.operandKind op kind))
  else
    match op.fixedEffect? with
    | some effect => .ok effect
    | none => .error (.malformed (.noFixedEffect op))

/-- Appends an instruction whose effect hangs on the opcode alone. -/
def instruction (op : OpCode) (operand : Operand) : Build Unit := do
  emit op (← Step.ofExcept (fixedEffect op operand.kind)) operand

/-- Appends an instruction without operand. -/
def plain (op : OpCode) : Build Unit := instruction op .none

/-- Appends the instruction that is spelled `text`, without operand. -/
def mnemonic (text : String) : Build Unit :=
  match OpCode.ofMnemonic? text with
  | some op => plain op
  | none => throw (.invalidMnemonic text)

def loadInt (value : Int32) : Build Unit := instruction .ldcI4 (.int value)

/-- Appends an instruction about a token. Calls have no effect of their own and are
    refused here. -/
def withToken (op : OpCode) (token : Token) : Build Unit := instruction op (.token token)

/-- The three ways to write a variable access: four opcodes for the first four
    variables, one with a byte, one with two bytes. -/
structure VariableForms where
  first : OpCode
  second : OpCode
  third : OpCode
  fourth : OpCode
  short : OpCode
  long : OpCode

/-- The shortest way to access the variable `index`. -/
def VariableForms.shortest (forms : VariableForms) (index : UInt16) : OpCode × Operand :=
  match index.toNat with
  | 0 => (forms.first, .none)
  | 1 => (forms.second, .none)
  | 2 => (forms.third, .none)
  | 3 => (forms.fourth, .none)
  | n => if n < 256 then (forms.short, .short (UInt8.ofNat n)) else (forms.long, .long index)

def accessVariable (forms : VariableForms) (index : UInt16) : Build Unit :=
  let (op, operand) := forms.shortest index
  instruction op operand

def loadLocal : UInt16 → Build Unit :=
  accessVariable ⟨.ldloc0, .ldloc1, .ldloc2, .ldloc3, .ldlocS, .ldloc⟩

def storeLocal : UInt16 → Build Unit :=
  accessVariable ⟨.stloc0, .stloc1, .stloc2, .stloc3, .stlocS, .stloc⟩

def loadArgument : UInt16 → Build Unit :=
  accessVariable ⟨.ldarg0, .ldarg1, .ldarg2, .ldarg3, .ldargS, .ldarg⟩

/-! Labels and jumps. -/

/-- A new label, which stands nowhere yet. -/
def createLabel : Build Nat := do
  let label := (← get).labels.size
  modify fun b => { b with labels := b.labels.push ⟨none, none⟩ }
  return label

def labelAt (label : Nat) : Build Label := do
  match (← get).labels[label]? with
  | some l => return l
  | none => throw (.unknownLabel label)

def setLabel (label : Nat) (l : Label) : Build Unit :=
  modify fun b => { b with labels := b.labels.setIfInBounds label l }

/-- Notes the depth with which a jump reaches its label, or compares it with the depth
    that is known. A jump that cannot be reached says nothing. -/
def meetLabel (label : Nat) : Build Unit := do
  let b ← get
  if b.reachable then
    let l ← labelAt label
    match l.depth with
    | some expected =>
      if expected ≠ b.depth then throw (.stackImbalance (.jump label b.depth expected))
    | none => setLabel label { l with depth := some b.depth }

/-- Appends a jump to a label, which may be placed earlier or later. -/
def jumpTo (op : OpCode) (label : Nat) : Build Unit := do
  if op.operand ≠ .branchTarget then throw (.malformed (.notAJump op))
  discard (labelAt label)
  if op.flow = .leave then
    modify fun b => { b with depth := 0 }
  else
    applyEffect op (← Step.ofExcept (fixedEffect op .branchTarget))
  meetLabel label
  modify fun b => { b with code := b.code.push (.jump op label) }
  endFlow op

/-- Appends a jump to a new label, and gives the label. -/
def jump (op : OpCode) : Build Nat := do
  let label ← createLabel
  jumpTo op label
  return label

/-- Places a label at the current position. Behind code that does not fall through the
    depth is the one the jumps to it have, or zero if there is none. -/
def placeLabel (label : Nat) : Build Unit := do
  let l ← labelAt label
  if l.position.isSome then throw (.malformed (.labelPlacedTwice label))
  let b ← get
  match l.depth, b.reachable with
  | some expected, false => modify fun b => { b with depth := expected }
  | some expected, true =>
    if b.depth ≠ expected then throw (.stackImbalance (.join label expected b.depth))
  | none, false => modify fun b => { b with depth := 0 }
  | none, true => setLabel label { l with depth := some b.depth }
  modify fun b => { b with reachable := true }
  let position ← position
  setLabel label { ← labelAt label with position := some position }

/-! Protected regions. -/

/-- Opens a region; the stack must be empty. -/
def startTry : Build Unit := do
  let b ← get
  if b.depth ≠ 0 ∧ b.reachable then throw (.stackImbalance (.tryEntered b.depth))
  let position ← position
  modify fun b => { b with regions := .inTry position :: b.regions }

/-- Ends the try block of the innermost region, which must not fall through. -/
def endTry : Build Unit := do
  let position ← position
  let b ← get
  match b.regions with
  | .inTry start :: outer =>
    if b.reachable then throw (.malformed (.tryFallsThrough start))
    modify fun b => { b with regions := .afterTry start position :: outer }
  | _ => throw (.malformed (.noOpenTry position))

/-- Starts the handler of the innermost region; the exception is on the stack. -/
def startHandler : Build Unit := do
  let position ← position
  match (← get).regions with
  | .afterTry start stop :: outer =>
    modify fun b => {
      b with regions := .inHandler start stop position :: outer, reachable := true, depth := 0 }
    applyEffect .nop ⟨0, 1⟩
  | _ => throw (.malformed (.noClosedTry position))

/-- Checks that the handler of the innermost region can end here. -/
def checkHandlerEnd : Build Unit := do
  let position ← position
  let b ← get
  match b.regions with
  | .inHandler _ _ handler :: _ =>
    if b.reachable then throw (.malformed (.handlerFallsThrough handler))
  | _ => throw (.malformed (.noOpenHandler position))

/-- Ends the handler of the innermost region, and records the clause for exceptions of
    the given class. -/
def endHandler (exceptionClass : Token) : Build Unit := do
  checkHandlerEnd
  let position ← position
  match (← get).regions with
  | .inHandler start stop handler :: outer =>
    let clause := {
      flags := ExceptionClause.typed
      tryOffset := UInt32.ofNat start
      tryLength := UInt32.ofNat (stop - start)
      handlerOffset := UInt32.ofNat handler
      handlerLength := UInt32.ofNat (position - handler)
      classOrFilter := exceptionClass.value }
    modify fun b => { b with regions := outer, exceptions := b.exceptions.add clause }
  | _ => throw (.malformed (.noOpenHandler position))

/-! The method's own code. -/

/-- Splices the method's own code in, once. It is entered with an empty stack, and what
    follows it must be reached through a label. -/
def splice (ownCode : List UInt8) : Build Unit := do
  let b ← get
  if let some offset := b.spliceOffset then throw (.malformed (.ownCodePlacedTwice offset))
  if b.depth ≠ 0 ∧ b.reachable then throw (.stackImbalance (.ownCodeEntered b.depth))
  let position ← position
  modify fun b => {
    b with
    spliceOffset := some position
    code := b.code.push (.splice ownCode)
    depth := 0
    reachable := false }

end Build

end CilInstrument
