import CilInstrument.Bytes.LittleEndian
import CilInstrument.Error

/- Headers of method bodies. A tiny header is one byte that holds the code size; a
   fat header is twelve bytes, or more if it declares so. A tiny header is read as
   the fat header that means the same, so that all later work sees one form. -/
namespace CilInstrument

inductive HeaderFormat where
  | tiny
  | fat
  deriving Repr, DecidableEq

namespace HeaderFormat

/-- The format, by the tag in the two lowest bits of the first byte. -/
def ofFirstByte? (b : UInt8) : Option HeaderFormat :=
  match b.toNat % 4 with
  | 2 => some tiny
  | 3 => some fat
  | _ => none

/-- The name that messages use. -/
def name : HeaderFormat → String
  | tiny => "Tiny"
  | fat => "Fat"

end HeaderFormat

/-- The flag bits of a fat header, the format tag among them. Bits without a meaning
    are kept. -/
structure HeaderFlags where
  bits : UInt16
  deriving Repr, DecidableEq

namespace HeaderFlags

/-- Set if extra sections follow the code. -/
def moreSectionsBit : UInt16 := 0x8

/-- The twelve bits that a header has room for. -/
def mask : UInt16 := 0x0FFF

def moreSections (f : HeaderFlags) : Bool := f.bits &&& moreSectionsBit != 0

def setMoreSections (f : HeaderFlags) (on : Bool) : HeaderFlags :=
  if on then ⟨f.bits ||| moreSectionsBit⟩ else ⟨f.bits &&& ~~~moreSectionsBit⟩

/-- Fat format, and locals that start out as zero. -/
def promoted : HeaderFlags := ⟨0x13⟩

end HeaderFlags

structure MethodHeader where
  flags : HeaderFlags
  maxStack : UInt16
  /-- Bytes of code behind the header. -/
  codeSize : UInt32
  /-- Names the locals signature; null if there are no locals. -/
  localsToken : Token
  deriving Repr, DecidableEq

namespace MethodHeader

/-- Bytes of a fat header without extra words. -/
def size : Nat := 12

/-- The 4-byte words of such a header, as its size field counts them. -/
def sizeWords : Nat := 3

/-- The stack depth that a tiny header stands for. -/
def tinyMaxStack : Nat := 8

/-- The most code that a tiny header can describe. -/
def tinyMaxCode : Nat := 63

/-- The header's own size in words, from the four highest bits of its first two bytes. -/
def declaredWords : List UInt8 → Nat
  | _ :: b :: _ => b.toNat / 16
  | _ => 0

/-- Reads the first twelve bytes; all flag bits are kept. -/
def ofBytes (data : List UInt8) : Except Error MethodHeader :=
  match data with
  | f0 :: f1 :: m0 :: m1 :: c0 :: c1 :: c2 :: c3 :: t0 :: t1 :: t2 :: t3 :: _ =>
    if declaredWords data < sizeWords then
      .error (.malformed (.headerWords (declaredWords data)))
    else
      .ok {
        flags := ⟨UInt16.ofNat (LittleEndian.decode [f0, f1]) &&& HeaderFlags.mask⟩
        maxStack := UInt16.ofNat (LittleEndian.decode [m0, m1])
        codeSize := UInt32.ofNat (LittleEndian.decode [c0, c1, c2, c3])
        localsToken := ⟨UInt32.ofNat (LittleEndian.decode [t0, t1, t2, t3])⟩ }
  | _ => .error .outOfBounds

/-- The fat header that means what a tiny header for `codeSize` bytes means. -/
def promoteTiny (codeSize : Nat) : MethodHeader where
  flags := HeaderFlags.promoted
  maxStack := UInt16.ofNat tinyMaxStack
  codeSize := UInt32.ofNat codeSize
  localsToken := Token.null

/-- Three words, whatever the header was read from. -/
def toBytes (h : MethodHeader) : List UInt8 :=
  LittleEndian.encode 2 (sizeWords * 0x1000 + (h.flags.bits &&& HeaderFlags.mask).toNat) ++
    LittleEndian.encode 2 h.maxStack.toNat ++
    LittleEndian.encode 4 h.codeSize.toNat ++
    LittleEndian.encode 4 h.localsToken.value.toNat

/-- The one byte of a tiny header. -/
def tinyByte (codeSize : Nat) : Except Error UInt8 :=
  if tinyMaxCode < codeSize then .error (.tinyBodyTooLarge codeSize)
  else .ok (UInt8.ofNat (codeSize * 4 + 2))

@[simp] theorem length_toBytes (h : MethodHeader) : h.toBytes.length = size := by
  simp [toBytes, size]

end MethodHeader

end CilInstrument
