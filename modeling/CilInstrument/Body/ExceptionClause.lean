import CilInstrument.Bytes.Cursor

/- One exception clause: a protected range of code and the range of its handler. -/
namespace CilInstrument

structure ExceptionClause where
  flags : UInt16
  tryOffset : UInt32
  tryLength : UInt32
  handlerOffset : UInt32
  handlerLength : UInt32
  /-- The class that a typed clause catches, or where the filter of a filter clause starts. -/
  classOrFilter : UInt32
  deriving Repr, DecidableEq

namespace ExceptionClause

/-- The flags of a typed clause. -/
def typed : UInt16 := 0

/-- Set in the flags of a filter clause. -/
def filterBit : UInt16 := 1

/-- The flag bits with a meaning: filter, finally, fault. -/
def knownFlags : UInt16 := 7

def isFilter (c : ExceptionClause) : Bool := c.flags &&& filterBit != 0

/-- Bytes of a clause in a section of the given layout. -/
def size : SectionLayout → Nat
  | .small => 12
  | .fat => 24

/-- Four bytes a field. -/
def encode (c : ExceptionClause) : List UInt8 :=
  LittleEndian.encode 4 c.flags.toNat ++ LittleEndian.encode 4 c.tryOffset.toNat ++
    LittleEndian.encode 4 c.tryLength.toNat ++ LittleEndian.encode 4 c.handlerOffset.toNat ++
    LittleEndian.encode 4 c.handlerLength.toNat ++ LittleEndian.encode 4 c.classOrFilter.toNat

@[simp] theorem length_encode (c : ExceptionClause) : c.encode.length = size .fat := by
  simp [encode, size]

/-- Reads one clause. Flag bits without a meaning are dropped. -/
def read : SectionLayout → Reader ExceptionClause
  | .fat => do
    let flags ← Reader.uint32
    let tryOffset ← Reader.uint32
    let tryLength ← Reader.uint32
    let handlerOffset ← Reader.uint32
    let handlerLength ← Reader.uint32
    let classOrFilter ← Reader.uint32
    return ⟨flags.toUInt16 &&& knownFlags, tryOffset, tryLength, handlerOffset, handlerLength,
      classOrFilter⟩
  | .small => do
    let flags ← Reader.uint16
    let tryOffset ← Reader.uint16
    let tryLength ← Reader.byte
    let handlerOffset ← Reader.uint16
    let handlerLength ← Reader.byte
    let classOrFilter ← Reader.uint32
    return ⟨flags &&& knownFlags, tryOffset.toUInt32, tryLength.toUInt32, handlerOffset.toUInt32,
      handlerLength.toUInt32, classOrFilter⟩

/-- A code offset moved by `delta`, as long as it stays a 32-bit number. -/
def shiftOffset (delta offset : UInt32) : Except Error UInt32 :=
  if offset.toNat + delta.toNat < 0x100000000 then .ok (offset + delta)
  else .error (.malformed (.clauseOffset offset))

/-- The clause for code that stands `delta` bytes further on. -/
def shifted (c : ExceptionClause) (delta : UInt32) : Except Error ExceptionClause := do
  let tryOffset ← shiftOffset delta c.tryOffset
  let handlerOffset ← shiftOffset delta c.handlerOffset
  let classOrFilter ←
    if c.isFilter then shiftOffset delta c.classOrFilter else pure c.classOrFilter
  return { c with tryOffset, handlerOffset, classOrFilter }

end ExceptionClause

end CilInstrument
