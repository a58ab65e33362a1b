import CilInstrument.Body.ExceptionTable
import CilInstrument.Body.Header

/- Whole method bodies: taking the stored bytes apart into header, code and clauses,
   and putting the two stored forms together. -/
namespace CilInstrument

structure MethodBody where
  /-- The format that the body is stored in. -/
  format : HeaderFormat
  header : MethodHeader
  code : List UInt8
  exceptions : ExceptionTable
  /-- Where the extra sections start, if the header announces any. -/
  sectionOffset : Option Nat
  deriving Repr, DecidableEq

namespace MethodBody

/-- Code of the size that the first byte holds; no clauses. -/
def ofTiny (data : List UInt8) (codeSize : Nat) : Except Error MethodBody :=
  if data.length < 1 + codeSize then .error .outOfBounds
  else .ok {
    format := .tiny
    header := MethodHeader.promoteTiny codeSize
    code := (data.drop 1).take codeSize
    exceptions := ExceptionTable.empty
    sectionOffset := none }

/-- Code behind as many words as the header declares, then extra sections at the next
    multiple of four, if the header announces them. -/
def ofFat (data : List UInt8) : Except Error MethodBody := do
  let header ← MethodHeader.ofBytes data
  let start := MethodHeader.declaredWords data * 4
  let stop := start + header.codeSize.toNat
  let code := (data.drop start).take header.codeSize.toNat
  if data.length < stop then .error .outOfBounds
  else if !header.flags.moreSections then .ok ⟨.fat, header, code, ExceptionTable.empty, none⟩
  else if data.length < align4 stop then .error .outOfBounds
  else do
    let exceptions ← ExceptionTable.ofBytes (data.drop (align4 stop))
    return ⟨.fat, header, code, exceptions, some (align4 stop)⟩

/-- Takes a stored body apart. -/
def decompose (data : List UInt8) : Except Error MethodBody :=
  match data with
  | [] => .error .outOfBounds
  | first :: _ =>
    match HeaderFormat.ofFirstByte? first with
    | some .tiny => ofTiny data (first.toNat / 4)
    | some .fat => ofFat data
    | none => .error (.fatal (.unknownHeaderFormat first))

/-- Header, code and sections in the fat form, zeros in front of the sections up to
    the next multiple of four. -/
def fatBytes (header : MethodHeader) (code sections : List UInt8) : List UInt8 :=
  let front := header.toBytes ++ code
  if sections.isEmpty then front
  else front ++ List.replicate (align4 front.length - front.length) 0 ++ sections

end MethodBody

end CilInstrument
