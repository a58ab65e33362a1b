import CilInstrument.Bytes.LittleEndian
import CilInstrument.Error

/- The code being built, as a list of instructions, jumps to labels, and the spliced
   code of the method itself. Every entry has a size that does not hang on where the
   labels are placed, so positions are known while code is added; the distances of
   the jumps are filled in when the bytes are made. -/
namespace CilInstrument

inductive Operand where
  | none
  | int (value : Int32)
  | short (index : UInt8)
  | long (index : UInt16)
  | token (token : Token)
  deriving Repr, DecidableEq

namespace Operand

def kind : Operand → OperandKind
  | none => .none
  | int _ => .int32
  | short _ => .shortVariable
  | long _ => .longVariable
  | token _ => .token

def bytes : Operand → List UInt8
  | none => []
  | int value => LittleEndian.encodeInt 4 value.toInt
  | short index => [index]
  | long index => LittleEndian.encode 2 index.toNat
  | token t => LittleEndian.encode 4 t.value.toNat

@[simp] theorem length_bytes (o : Operand) : o.bytes.length = o.kind.size := by
  cases o <;> simp [bytes, kind, OperandKind.size]

end Operand

/-- One entry of the code. -/
inductive CodeItem where
  /-- An instruction other than a jump, with what it does to the stack. -/
  | instruction (op : OpCode) (operand : Operand) (effect : StackEffect)
  | jump (op : OpCode) (label : Nat)
  /-- The method's own code, taken as it is. -/
  | splice (code : List UInt8)
  deriving Repr, DecidableEq

/-- An offset into code, which has to be a 32-bit number. -/
def codeOffset (n : Nat) : Except Error Nat :=
  if n < 0x100000000 then .ok n else .error (.malformed (.valueTooLarge n))

namespace CodeItem

def size : CodeItem → Nat
  | instruction op operand _ => op.encoding.length + operand.kind.size
  | jump op _ => op.encoding.length + OperandKind.branchTarget.size
  | splice code => code.length

/-- Bytes of a row of entries. -/
def totalSize : List CodeItem → Nat
  | [] => 0
  | item :: rest => item.size + totalSize rest

@[simp] theorem totalSize_nil : totalSize [] = 0 := rfl

@[simp] theorem totalSize_cons (item : CodeItem) (rest : List CodeItem) :
    totalSize (item :: rest) = item.size + totalSize rest := rfl

@[simp] theorem totalSize_append (first second : List CodeItem) :
    totalSize (first ++ second) = totalSize first + totalSize second := by
  induction first with
  | nil => simp
  | cons item rest ih =>
    rw [List.cons_append, totalSize_cons, totalSize_cons, ih]
    omega

/-- The 32-bit distance from the instruction at `next` to `target`. -/
def jumpBytes (target next : Nat) : Except Error (List UInt8) := do
  let distance : Int := target - (← codeOffset next)
  if Int32.minValue.toInt ≤ distance ∧ distance ≤ Int32.maxValue.toInt then
    .ok (LittleEndian.encodeInt 4 distance)
  else
    .error (.malformed (.jumpDistance distance))

/-- The bytes of an entry at `offset`, if labels stand at the given places. -/
def bytes (place : Nat → Option Nat) (offset : Nat) : CodeItem → Except Error (List UInt8)
  | instruction op operand _ => .ok (op.encoding ++ operand.bytes)
  | jump op label =>
    match place label with
    | .none => .error (.unknownLabel label)
    | some target => do
      let distance ← jumpBytes target (offset + (jump op label).size)
      return op.encoding ++ distance
  | splice code => .ok code

end CodeItem

/-- A list of entries together with its size in bytes. -/
structure Code where
  items : Array CodeItem
  size : Nat
  size_eq : size = CodeItem.totalSize items.toList

namespace Code

def empty : Code := ⟨#[], 0, rfl⟩

/-- The code with one more entry at its end. -/
def push (c : Code) (item : CodeItem) : Code where
  items := c.items.push item
  size := c.size + item.size
  size_eq := by simp [c.size_eq]

/-- The bytes of all entries; the first jump without a target fails. -/
def bytes (c : Code) (place : Nat → Option Nat) : Except Error (Array UInt8) :=
  c.items.foldlM (fun out item => do
    let more ← item.bytes place out.size
    return out.appendList more) #[]

end Code

end CilInstrument
