import CilInstrument.Proofs.Linking

/- Reading code back from its bytes, one instruction after the other: the opcode is the
   one whose encoding the bytes start with, and as many bytes belong to its operand as an
   operand of its kind takes. No encoding is the beginning of another one
   (`OpCode.encoding_prefix_free`), so what is read does not hang on the bytes behind it:
   an opcode with an operand is read back whatever follows (`Instruction.read?_encoded`),
   and so is a row of instructions (`disassemble_append`). -/
namespace CilInstrument

/-- What an operand says: a value, or for a jump how far it goes from the instruction
behind it. -/
inductive Argument where
  | value (operand : Operand)
  | distance (distance : Int)
  deriving Repr, DecidableEq

/-- Reads an operand of the given kind. -/
def Argument.ofBytes : OperandKind → List UInt8 → Argument
  | .none, _ => .value .none
  | .int32, bytes => .value (.int (Int32.ofInt (LittleEndian.decodeInt bytes)))
  | .shortVariable, bytes => .value (.short (UInt8.ofNat (LittleEndian.decode bytes)))
  | .longVariable, bytes => .value (.long (UInt16.ofNat (LittleEndian.decode bytes)))
  | .branchTarget, bytes => .distance (LittleEndian.decodeInt bytes)
  | .token, bytes => .value (.token ⟨UInt32.ofNat (LittleEndian.decode bytes)⟩)

/-- An instruction that was read, and where it stands. -/
structure Instruction where
  position : Nat
  op : OpCode
  argument : Argument
  deriving Repr, DecidableEq

namespace Instruction

/-- Bytes that the instruction takes. -/
def size (i : Instruction) : Nat := i.op.encoding.length + i.op.operand.size

/-- Where the instruction behind it stands. -/
def next (i : Instruction) : Nat := i.position + i.size

end Instruction

/-- The opcode whose encoding the bytes start with. -/
def OpCode.ofBytes? (bytes : List UInt8) : Option OpCode :=
  all.find? (·.encoding.isPrefixOf bytes)

/-- The instruction that the bytes from `position` on start with. -/
def Instruction.read? (position : Nat) (bytes : List UInt8) : Option Instruction :=
  match OpCode.ofBytes? bytes with
  | none => none
  | some op =>
    let operand := (bytes.drop op.encoding.length).take op.operand.size
    if operand.length = op.operand.size then some ⟨position, op, .ofBytes op.operand operand⟩
    else none

theorem OpCode.length_encoding_pos (op : OpCode) : 0 < op.encoding.length := by
  cases op <;> decide

theorem Instruction.size_pos (i : Instruction) : 0 < i.size :=
  Nat.lt_of_lt_of_le i.op.length_encoding_pos (Nat.le_add_right _ _)

/-- The instructions of which the bytes from `position` on are made, unless reading them
one by one gets stuck. -/
def disassemble (position : Nat) (bytes : List UInt8) : Option (List Instruction) :=
  if bytes.isEmpty then some []
  else
    match Instruction.read? position bytes with
    | none => none
    | some i => (disassemble i.next (bytes.drop i.size)).map (i :: ·)
termination_by bytes.length
decreasing_by
  rename_i hbytes
  have hpos := i.size_pos
  have hlength : 0 < bytes.length := List.length_pos_iff.mpr (by simpa using hbytes)
  rw [List.length_drop]
  omega

/-! Opcodes are told apart by what the bytes start with. -/

namespace OpCode

theorem encoding_prefix_free {a b : OpCode} (h : a.encoding <+: b.encoding) : a = b := by
  have key : ∀ x ∈ all, ∀ y ∈ all, x.encoding.isPrefixOf y.encoding = true → x = y := by
    decide +kernel
  exact key a (mem_all a) b (mem_all b) (List.isPrefixOf_iff_prefix.mpr h)

/-- Behind an encoding there may stand anything, other encodings included. -/
theorem ofBytes?_encoding (op : OpCode) (rest : List UInt8) :
    ofBytes? (op.encoding ++ rest) = some op := by
  unfold ofBytes?
  cases hfind : all.find? (·.encoding.isPrefixOf (op.encoding ++ rest)) with
  | none =>
    have hnot := List.find?_eq_none.mp hfind op (mem_all op)
    exact absurd (List.isPrefixOf_iff_prefix.mpr (List.prefix_append _ _)) hnot
  | some found =>
    have hbegins : found.encoding.isPrefixOf (op.encoding ++ rest) = true :=
      List.find?_some (p := fun x : OpCode => x.encoding.isPrefixOf (op.encoding ++ rest)) hfind
    have hfound := List.isPrefixOf_iff_prefix.mp hbegins
    rcases List.prefix_or_prefix_of_prefix hfound (List.prefix_append op.encoding rest) with h | h
    · rw [encoding_prefix_free h]
    · rw [encoding_prefix_free h]

end OpCode

/-! What is written is read back. -/

/-- Operands are read back as they are. -/
theorem Argument.ofBytes_bytes (operand : Operand) :
    ofBytes operand.kind operand.bytes = .value operand := by
  cases operand with
  | none => rfl
  | int value =>
    show Argument.value (.int (Int32.ofInt (LittleEndian.decodeInt
      (LittleEndian.encodeInt 4 value.toInt)))) = _
    rw [LittleEndian.decodeInt_encodeInt value.le_toInt value.toInt_lt, Int32.ofInt_toInt]
  | short index =>
    show Argument.value (.short (UInt8.ofNat (index.toNat + 256 * 0))) = _
    rw [Nat.mul_zero, Nat.add_zero, UInt8.ofNat_toNat]
  | long index =>
    show Argument.value (.long (UInt16.ofNat (LittleEndian.decode
      (LittleEndian.encode 2 index.toNat)))) = _
    rw [@LittleEndian.decode_encode_of_lt 2 _ index.toNat_lt, UInt16.ofNat_toNat]
  | token token =>
    show Argument.value (.token ⟨UInt32.ofNat (LittleEndian.decode
      (LittleEndian.encode 4 token.value.toNat))⟩) = _
    rw [@LittleEndian.decode_encode_of_lt 4 _ token.value.toNat_lt, UInt32.ofNat_toNat]

/-- An opcode with an operand of the right size is read back, whatever stands behind it. -/
theorem Instruction.read?_encoded {op : OpCode} {operand : List UInt8} (position : Nat)
    (rest : List UInt8) (hsize : operand.length = op.operand.size) :
    read? position (op.encoding ++ operand ++ rest) =
      some ⟨position, op, .ofBytes op.operand operand⟩ := by
  unfold read?
  rw [List.append_assoc, OpCode.ofBytes?_encoding]
  dsimp only
  rw [List.drop_left, ← hsize, List.take_left, if_pos rfl]

theorem disassemble_nil (position : Nat) : disassemble position [] = some [] := by
  rw [disassemble]
  rfl

/-- Behind an instruction, reading goes on where it ends. -/
theorem disassemble_append {position : Nat} {bytes rest : List UInt8} {i : Instruction}
    (hread : Instruction.read? position (bytes ++ rest) = some i) (hsize : i.size = bytes.length) :
    disassemble position (bytes ++ rest) = (disassemble i.next rest).map (i :: ·) := by
  have hnonempty : (bytes ++ rest).isEmpty = false := by
    have hpos := i.size_pos
    rw [List.isEmpty_eq_false_iff, ← List.length_pos_iff, List.length_append]
    omega
  rw [disassemble, hnonempty, hread]
  dsimp only
  rw [hsize, List.drop_left]
  rfl

end CilInstrument
