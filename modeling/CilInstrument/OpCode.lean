/- The CIL instructions that instrumentation emits: their encodings, the kind of
   operand that follows, where control goes next, and what they do to the
   evaluation stack. -/
namespace CilInstrument

/-- What stands behind the opcode in the instruction stream. -/
inductive OperandKind where
  | none
  | int32
  | shortVariable
  | longVariable
  | branchTarget
  | token
  deriving Repr, DecidableEq

namespace OperandKind

/-- Bytes that the operand takes. -/
def size : OperandKind → Nat
  | none => 0
  | shortVariable => 1
  | longVariable => 2
  | int32 | branchTarget | token => 4

/-- The name that messages use. -/
def name : OperandKind → String
  | none => "None"
  | int32 => "Int32"
  | shortVariable => "ShortVariable"
  | longVariable => "Variable"
  | branchTarget => "BranchTarget"
  | token => "Token"

end OperandKind

/-- Where control goes after an instruction. -/
inductive Flow where
  | next
  | call
  | conditionalBranch
  | branch
  | leave
  | methodReturn
  | raise
  deriving Repr, DecidableEq

/-- Control never falls through to the next instruction. -/
def Flow.isTerminal : Flow → Bool
  | branch | leave | methodReturn | raise => true
  | next | call | conditionalBranch => false

/-- Values taken off and put onto the evaluation stack. -/
structure StackEffect where
  pops : Nat
  pushes : Nat
  deriving Repr, DecidableEq

inductive OpCode where
  | nop
  | ldarg0
  | ldarg1
  | ldarg2
  | ldarg3
  | ldloc0
  | ldloc1
  | ldloc2
  | ldloc3
  | stloc0
  | stloc1
  | stloc2
  | stloc3
  | ldargS
  | ldlocS
  | stlocS
  | ldnull
  | ldcI4
  | dup
  | pop
  | call
  | ret
  | br
  | brfalse
  | brtrue
  | ldindRef
  | callvirt
  | ldobj
  | ldstr
  | newobj
  | castclass
  | throw
  | box
  | newarr
  | stelemRef
  | unboxAny
  | ldtoken
  | leave
  | ldarg
  | ldloc
  | stloc
  | rethrow
  deriving Repr, DecidableEq

namespace OpCode

/-- Every opcode, in the order of the encodings. -/
def all : List OpCode :=
  [nop, ldarg0, ldarg1, ldarg2, ldarg3, ldloc0, ldloc1, ldloc2, ldloc3, stloc0, stloc1, stloc2,
   stloc3, ldargS, ldlocS, stlocS, ldnull, ldcI4, dup, pop, call, ret, br, brfalse, brtrue,
   ldindRef, callvirt, ldobj, ldstr, newobj, castclass, throw, box, newarr, stelemRef, unboxAny,
   ldtoken, leave, ldarg, ldloc, stloc, rethrow]

def mnemonic : OpCode → String
  | nop => "nop"
  | ldarg0 => "ldarg.0"
  | ldarg1 => "ldarg.1"
  | ldarg2 => "ldarg.2"
  | ldarg3 => "ldarg.3"
  | ldloc0 => "ldloc.0"
  | ldloc1 => "ldloc.1"
  | ldloc2 => "ldloc.2"
  | ldloc3 => "ldloc.3"
  | stloc0 => "stloc.0"
  | stloc1 => "stloc.1"
  | stloc2 => "stloc.2"
  | stloc3 => "stloc.3"
  | ldargS => "ldarg.s"
  | ldlocS => "ldloc.s"
  | stlocS => "stloc.s"
  | ldnull => "ldnull"
  | ldcI4 => "ldc.i4"
  | dup => "dup"
  | pop => "pop"
  | call => "call"
  | ret => "ret"
  | br => "br"
  | brfalse => "brfalse"
  | brtrue => "brtrue"
  | ldindRef => "ldind.ref"
  | callvirt => "callvirt"
  | ldobj => "ldobj"
  | ldstr => "ldstr"
  | newobj => "newobj"
  | castclass => "castclass"
  | throw => "throw"
  | box => "box"
  | newarr => "newarr"
  | stelemRef => "stelem.ref"
  | unboxAny => "unbox.any"
  | ldtoken => "ldtoken"
  | leave => "leave"
  | ldarg => "ldarg"
  | ldloc => "ldloc"
  | stloc => "stloc"
  | rethrow => "rethrow"

/-- The opcode that is spelled exactly `text`. -/
def ofMnemonic? (text : String) : Option OpCode := all.find? (·.mnemonic == text)

/-- One byte, or two of which the first is `0xFE`. -/
def encoding : OpCode → List UInt8
  | nop => [0x00]
  | ldarg0 => [0x02]
  | ldarg1 => [0x03]
  | ldarg2 => [0x04]
  | ldarg3 => [0x05]
  | ldloc0 => [0x06]
  | ldloc1 => [0x07]
  | ldloc2 => [0x08]
  | ldloc3 => [0x09]
  | stloc0 => [0x0A]
  | stloc1 => [0x0B]
  | stloc2 => [0x0C]
  | stloc3 => [0x0D]
  | ldargS => [0x0E]
  | ldlocS => [0x11]
  | stlocS => [0x13]
  | ldnull => [0x14]
  | ldcI4 => [0x20]
  | dup => [0x25]
  | pop => [0x26]
  | call => [0x28]
  | ret => [0x2A]
  | br => [0x38]
  | brfalse => [0x39]
  | brtrue => [0x3A]
  | ldindRef => [0x50]
  | callvirt => [0x6F]
  | ldobj => [0x71]
  | ldstr => [0x72]
  | newobj => [0x73]
  | castclass => [0x74]
  | throw => [0x7A]
  | box => [0x8C]
  | newarr => [0x8D]
  | stelemRef => [0xA2]
  | unboxAny => [0xA5]
  | ldtoken => [0xD0]
  | leave => [0xDD]
  | ldarg => [0xFE, 0x09]
  | ldloc => [0xFE, 0x0C]
  | stloc => [0xFE, 0x0E]
  | rethrow => [0xFE, 0x1A]

def operand : OpCode → OperandKind
  | ldargS | ldlocS | stlocS => .shortVariable
  | ldarg | ldloc | stloc => .longVariable
  | ldcI4 => .int32
  | br | brfalse | brtrue | leave => .branchTarget
  | call | callvirt | newobj | ldobj | ldstr | castclass | box | newarr | unboxAny | ldtoken =>
    .token
  | _ => .none

def flow : OpCode → Flow
  | call | callvirt | newobj => .call
  | brfalse | brtrue => .conditionalBranch
  | br => .branch
  | leave => .leave
  | ret => .methodReturn
  | throw | rethrow => .raise
  | _ => .next

/-- What the opcode does to the stack, whatever its operand. Calls have no such
    effect, as it hangs on the callee, nor has `leave`, which empties the stack. -/
def fixedEffect? : OpCode → Option StackEffect
  | call | callvirt | newobj | leave => Option.none
  | nop | ret | br | rethrow => some ⟨0, 0⟩
  | ldarg0 | ldarg1 | ldarg2 | ldarg3 | ldloc0 | ldloc1 | ldloc2 | ldloc3 | ldargS | ldlocS
  | ldarg | ldloc | ldnull | ldcI4 | ldstr | ldtoken => some ⟨0, 1⟩
  | stloc0 | stloc1 | stloc2 | stloc3 | stlocS | stloc | pop | brfalse | brtrue | throw =>
    some ⟨1, 0⟩
  | ldindRef | ldobj | castclass | box | newarr | unboxAny => some ⟨1, 1⟩
  | dup => some ⟨1, 2⟩
  | stelemRef => some ⟨3, 0⟩

theorem mem_all (op : OpCode) : op ∈ all := by cases op <;> decide

end OpCode

end CilInstrument
