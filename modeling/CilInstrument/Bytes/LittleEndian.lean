/- Numbers as bytes, the lowest byte first. `decode` and `encode` are inverse to
   each other on numbers that fit and on byte strings of the given width. -/
namespace CilInstrument.LittleEndian

/-- The `width` lowest bytes of `n`. -/
def encode : (width : Nat) → (n : Nat) → List UInt8
  | 0, _ => []
  | width + 1, n => UInt8.ofNat n :: encode width (n / 256)

def decode : List UInt8 → Nat
  | [] => 0
  | b :: bytes => b.toNat + 256 * decode bytes

/-- How many numbers `width` bytes can tell apart. -/
def capacity : (width : Nat) → Nat
  | 0 => 1
  | width + 1 => 256 * capacity width

/-- Two's complement. -/
def encodeInt (width : Nat) (n : Int) : List UInt8 := encode width (n % capacity width).toNat

/-- Two's complement, the width being the number of bytes. -/
def decodeInt (bytes : List UInt8) : Int := Int.bmod (decode bytes) (capacity bytes.length)

@[simp] theorem length_encode (width n : Nat) : (encode width n).length = width := by
  induction width generalizing n with
  | zero => rfl
  | succ width ih => simp [encode, ih]

@[simp] theorem length_encodeInt (width : Nat) (n : Int) : (encodeInt width n).length = width :=
  length_encode _ _

theorem decode_encode (width n : Nat) : decode (encode width n) = n % capacity width := by
  induction width generalizing n with
  | zero => simp [encode, decode, capacity, Nat.mod_one]
  | succ width ih =>
    simp only [encode, decode, ih, UInt8.toNat_ofNat']
    rw [capacity, Nat.mod_mul]

theorem decode_encode_of_lt {width n : Nat} (h : n < capacity width) :
    decode (encode width n) = n := by
  rw [decode_encode, Nat.mod_eq_of_lt h]

end CilInstrument.LittleEndian
