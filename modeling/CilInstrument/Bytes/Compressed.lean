import CilInstrument.Bytes.Cursor

/- Compressed integers of signature blobs: one, two or four bytes, the first of
   which tells the width by its highest bits (`0`, `10`, `110`), and tokens that are
   packed into such an integer. -/
namespace CilInstrument

namespace Compressed

/-- The largest number with a compressed form. -/
def max : Nat := 0x1FFFFFFF

/-- Bytes of the shortest form. -/
def width (n : Nat) : Nat := if n < 0x80 then 1 else if n < 0x4000 then 2 else 4

/-- The shortest form. Of a number above `max`, only the lowest 29 bits are kept. -/
def encode (n : Nat) : List UInt8 :=
  if n < 0x80 then [UInt8.ofNat n]
  else if n < 0x4000 then [UInt8.ofNat (0x80 + n / 256), UInt8.ofNat n]
  else
    [UInt8.ofNat (0xC0 + n % (max + 1) / 0x1000000), UInt8.ofNat (n / 0x10000), UInt8.ofNat (n / 0x100),
     UInt8.ofNat n]

theorem length_encode (n : Nat) : (encode n).length = width n := by
  unfold encode width
  split
  · rfl
  · split <;> rfl

/-- The table of a packed token, by the tag in the two lowest bits. -/
def tokenTable? (n : Nat) : Option UInt32 :=
  match n % 4 with
  | 0 => some 0x02000000
  | 1 => some 0x01000000
  | 2 => some 0x1B000000
  | _ => none

end Compressed

namespace Reader

/-- A compressed integer. The bytes read before a failure stay consumed. -/
def compressed : Reader Nat := do
  let first ← byte
  let b := first.toNat
  if b < 0x80 then
    return b
  else if b < 0xC0 then
    let b1 ← byte
    return (b - 0x80) * 0x100 + b1.toNat
  else if b < 0xE0 then
    let b1 ← byte
    let b2 ← byte
    let b3 ← byte
    return (b - 0xC0) * 0x1000000 + b1.toNat * 0x10000 + b2.toNat * 0x100 + b3.toNat
  else
    throw (.malformed (.compressedInteger first))

/-- A packed token: the tag names the table, the bits above it are merged into it. -/
def compressedToken : Reader Token := do
  let n ← compressed
  match Compressed.tokenTable? n with
  | some table => return ⟨table ||| UInt32.ofNat (n / 4)⟩
  | none => throw (.malformed (.compressedTokenTag n))

end Reader

end CilInstrument
