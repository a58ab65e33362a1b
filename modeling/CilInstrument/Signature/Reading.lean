import CilInstrument.Bytes.Compressed
import CilInstrument.Signature.Types

/- Reading method signatures. Types nest, directly and through the signatures of
   function pointers, so each is read on a level; the fiftieth level is refused. The
   level is kept from one signature to the next. A type that was read, or failed for
   any other reason, gives its level back, the refused entry keeps the level it took. -/
namespace CilInstrument

/-- Where reading stands, and how many levels of types are taken. -/
structure SignatureCursor where
  cursor : Cursor
  level : Nat

/-- A step that reads at a signature cursor. -/
abbrev SignatureReader := Step SignatureCursor

/-! First bytes that reading looks ahead for. -/

namespace ElementTag

def byRef : UInt8 := 0x10
def valueType : UInt8 := 0x11
def classType : UInt8 := 0x12
def requiredModifier : UInt8 := 0x1F
def optionalModifier : UInt8 := 0x20
def sentinel : UInt8 := 0x41

def isModifier (tag : UInt8) : Bool := tag == optionalModifier || tag == requiredModifier

end ElementTag

namespace SignatureReader

/-- The level that is refused. -/
def levelLimit : Nat := 50

/-- A plain read, which takes no level. -/
def ofReader {α : Type} (read : Reader α) : SignatureReader α := fun ⟨cursor, level⟩ =>
  match read cursor with
  | .ok a cursor => .ok a ⟨cursor, level⟩
  | .error e cursor => .error e ⟨cursor, level⟩

def position : SignatureReader Cursor := fun s => .ok s.cursor s

/-- Runs `read` one level further down and comes back up, whatever its outcome. -/
def nested {α : Type} (read : SignatureReader α) : SignatureReader α := fun ⟨cursor, level⟩ =>
  if levelLimit ≤ level + 1 then .error (.recursionLimit levelLimit) ⟨cursor, level + 1⟩
  else
    match read ⟨cursor, level + 1⟩ with
    | .ok a s => .ok a { s with level := s.level - 1 }
    | .error e s => .error e { s with level := s.level - 1 }

/-- The custom modifiers at the cursor. Every modifier takes a byte, so one turn for
    each byte that is left is enough. -/
def modifiers : SignatureReader (List Token) := fun s => go s.cursor.rest #[] s
where
  go : List UInt8 → Array Token → SignatureReader (List Token)
    | [], found => pure found.toList
    | _ :: turns, found => do
      if !(← ofReader Reader.hasMore) then return found.toList
      if ElementTag.isModifier (← ofReader Reader.peek) then
        ofReader (Reader.advance 1)
        let token ← ofReader Reader.compressedToken
        go turns (found.push token)
      else
        return found.toList

/-- A parameter or return type, whose type `readType` reads. -/
def param (readType : SignatureReader TypeSig) : SignatureReader ParamSig := do
  let start ← position
  let mods ← modifiers
  let isByRef := (← ofReader Reader.peek) == ElementTag.byRef
  if isByRef then ofReader (Reader.advance 1)
  let typeStart ← position
  let base ← readType
  let stop ← position
  return ⟨mods, isByRef, base, stop.bytesSince start, stop.bytesSince typeStart⟩

/-- Up to `count` parameters; the sentinel in front of variable arguments ends them. -/
def params (readType : SignatureReader TypeSig) (count : Nat) : SignatureReader (List ParamSig) :=
  go count #[]
where
  go : Nat → Array ParamSig → SignatureReader (List ParamSig)
    | 0, found => pure found.toList
    | count + 1, found => do
      if (← ofReader Reader.peek) == ElementTag.sentinel then return found.toList
      let p ← param readType
      go count (found.push p)

/-- A method signature: convention, counts, return type, parameters. -/
def methodOf (readType : SignatureReader TypeSig) : SignatureReader MethodSig := do
  let convention ← ofReader Reader.byte
  let genericCount ←
    if convention &&& 0x10 != 0 then ofReader Reader.compressed else pure 0
  let count ← ofReader Reader.compressed
  let returnType ← param readType
  let params ← params readType count
  return {
    hasThis := convention &&& 0x20 != 0
    explicitThis := convention &&& 0x40 != 0
    isVararg := convention &&& 0x0F == 0x05
    genericCount, returnType, params }

/-- The part of a type behind its first byte; `readType` reads the types inside it. -/
def typeBody (readType : SignatureReader TypeSig) (tag : UInt8) : SignatureReader TypeSig :=
  match tag.toNat with
  | 0x01 => return .void
  | 0x02 => return .boolean
  | 0x03 => return .char
  | 0x04 => return .int8
  | 0x05 => return .uint8
  | 0x06 => return .int16
  | 0x07 => return .uint16
  | 0x08 => return .int32
  | 0x09 => return .uint32
  | 0x0A => return .int64
  | 0x0B => return .uint64
  | 0x0C => return .float32
  | 0x0D => return .float64
  | 0x0E => return .string
  | 0x0F => do
    discard modifiers
    return .pointer (← readType)
  | 0x10 => return .byRef (← readType)
  | 0x11 => return .valueType (← ofReader Reader.compressedToken)
  | 0x12 => return .classType (← ofReader Reader.compressedToken)
  | 0x13 => return .typeParameter (← ofReader Reader.compressed)
  | 0x14 => do
    let element ← readType
    let rank ← ofReader Reader.compressed
    let sizes ← ofReader Reader.compressed
    discard (Step.collect sizes (ofReader Reader.compressed))
    let lowerBounds ← ofReader Reader.compressed
    discard (Step.collect lowerBounds (ofReader Reader.compressed))
    return .array element rank
  | 0x15 => do
    let next ← ofReader Reader.peek
    if next != ElementTag.classType && next != ElementTag.valueType then
      throw (.malformed (.genericBase next))
    let base ← readType
    let count ← ofReader Reader.compressed
    return .genericInstance base (← Step.collect count readType)
  | 0x16 => return .typedReference
  | 0x18 => return .nativeInt
  | 0x19 => return .nativeUInt
  | 0x1B => return .functionPointer (← methodOf readType)
  | 0x1C => return .object
  | 0x1D => do
    discard modifiers
    return .vector (← readType)
  | 0x1E => return .methodParameter (← ofReader Reader.compressed)
  | 0x1F | 0x20 => do
    discard (ofReader Reader.compressedToken)
    discard modifiers
    readType
  | 0x45 => return .pinned (← readType)
  | _ => throw (.malformed (.elementType tag))

/-- A type, with room for `room` more levels. As many levels as the limit allows are
    always room enough: the limit refuses a type before the room is used up. -/
def type : (room : Nat) → SignatureReader TypeSig
  | 0 => nested (throw (.recursionLimit levelLimit))
  | room + 1 => nested do
    let tag ← ofReader Reader.byte
    typeBody (type room) tag

/-- A method signature at the cursor. -/
def method : SignatureReader MethodSig := methodOf (type levelLimit)

end SignatureReader

namespace SignatureCursor

def ofBytes (data : List UInt8) : SignatureCursor := ⟨Cursor.ofBytes data, 0⟩

end SignatureCursor

/-- The method signature at the start of `data`. -/
def MethodSig.ofBytes (data : List UInt8) : Except Error MethodSig :=
  SignatureReader.method.outcome (SignatureCursor.ofBytes data)

end CilInstrument
