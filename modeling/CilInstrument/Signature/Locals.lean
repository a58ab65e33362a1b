import CilInstrument.Bytes.Compressed

/- Locals signatures: a tag, the number of locals and their types. Types are added at
   the end, and the number is written anew, in its shortest form, whenever one is. -/
namespace CilInstrument

structure LocalsSignature where
  count : Nat
  /-- `count` as it stands in the blob, which need not be the shortest form. -/
  countBytes : List UInt8
  /-- All that follows the number. -/
  types : Array UInt8
  /-- A local was added. -/
  isModified : Bool
  deriving Repr, DecidableEq

namespace LocalsSignature

/-- The first byte of every locals signature. -/
def tag : UInt8 := 0x07

/-- The number of locals from which on none can be added. -/
def countLimit : Nat := 0xFFFE

/-- The signature of a method without locals. -/
def empty : LocalsSignature := ⟨0, [0], #[], false⟩

/-- Reads the tag and the number; what follows is taken as it is. -/
def read : Reader LocalsSignature := do
  let first ← Reader.byte
  if first != tag then throw (.malformed (.localsTag first))
  let start ← get
  let count ← Reader.compressed
  let stop ← get
  return ⟨count, stop.bytesSince start, stop.rest.toArray, false⟩

def ofBytes (blob : List UInt8) : Except Error LocalsSignature :=
  read.outcome (Cursor.ofBytes blob)

def toBytes (l : LocalsSignature) : List UInt8 := tag :: l.countBytes ++ l.types.toList

/-- Bytes of the blob. -/
def size (l : LocalsSignature) : Nat := 1 + l.countBytes.length + l.types.size

/-- Adds a local of the type that `type` encodes, and gives its index. A failure leaves
    the signature as it was. -/
def append (type : List UInt8) : Step LocalsSignature Nat := do
  if type.isEmpty then throw (.malformed .emptyLocalType)
  let count := (← get).count
  if countLimit ≤ count then throw (.fatal (.localCountOverflow count))
  modify fun l => {
    count := count + 1
    countBytes := Compressed.encode (count + 1)
    types := l.types ++ type.toArray
    isModified := true }
  return count

@[simp] theorem length_toBytes (l : LocalsSignature) : l.toBytes.length = l.size := by
  simp [toBytes, size]; omega

end LocalsSignature

end CilInstrument
