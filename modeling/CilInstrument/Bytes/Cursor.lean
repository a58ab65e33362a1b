import CilInstrument.Bytes.LittleEndian
import CilInstrument.Step

/- A reading position in a byte string, and the readers that move it. A read that
   would go past the end fails with `outOfBounds` and moves nothing; a reader made
   of several reads keeps what the earlier ones consumed. -/
namespace CilInstrument

/-- `rest` is what stands at `pos` and behind it. -/
structure Cursor where
  data : List UInt8
  pos : Nat
  rest : List UInt8
  pos_le : pos ≤ data.length
  rest_eq : rest = data.drop pos

namespace Cursor

def ofBytes (data : List UInt8) : Cursor := ⟨data, 0, data, Nat.zero_le _, rfl⟩

theorem length_rest (c : Cursor) : c.rest.length = c.data.length - c.pos := by
  rw [c.rest_eq, List.length_drop]

/-- Moves forward over `n` of the remaining bytes. -/
def skip (c : Cursor) (n : Nat) (h : n ≤ c.rest.length) : Cursor where
  data := c.data
  pos := c.pos + n
  rest := c.rest.drop n
  pos_le := by have := c.length_rest; have := c.pos_le; omega
  rest_eq := by rw [c.rest_eq, List.drop_drop]

/-- Whether a byte is left. -/
def hasMore (c : Cursor) : Bool := !c.rest.isEmpty

/-- The bytes between an earlier position of the same walk and this one. -/
def bytesSince (c start : Cursor) : List UInt8 := start.rest.take (c.pos - start.pos)

@[simp] theorem skip_pos (c : Cursor) (n : Nat) (h) : (c.skip n h).pos = c.pos + n := rfl

@[simp] theorem skip_rest (c : Cursor) (n : Nat) (h) : (c.skip n h).rest = c.rest.drop n := rfl

@[simp] theorem skip_data (c : Cursor) (n : Nat) (h) : (c.skip n h).data = c.data := rfl

end Cursor

/-- A step that reads at a cursor, which is left where reading stopped. -/
abbrev Reader := Step Cursor

namespace Reader

/-- The next `n` bytes, or nothing if fewer remain. -/
def bytes (n : Nat) : Reader (List UInt8) := fun c =>
  if h : (c.rest.take n).length = n then
    .ok (c.rest.take n) (c.skip n (by rw [List.length_take] at h; omega))
  else
    .error .outOfBounds c

/-- Moves forward by `n` bytes. -/
def advance (n : Nat) : Reader Unit := discard (bytes n)

def byte : Reader UInt8 := fun c =>
  match h : c.rest with
  | [] => .error .outOfBounds c
  | b :: _ => .ok b (c.skip 1 (by simp [h]))

/-- The next byte, which stays unread. -/
def peek : Reader UInt8 := fun c =>
  match c.rest with
  | [] => .error .outOfBounds c
  | b :: _ => .ok b c

def hasMore : Reader Bool := fun c => .ok c.hasMore c

/-- Unsigned, `width` bytes, the lowest first. -/
def unsigned (width : Nat) : Reader Nat := do
  return LittleEndian.decode (← bytes width)

/-- Two's complement, `width` bytes, the lowest first. -/
def signed (width : Nat) : Reader Int := do
  return LittleEndian.decodeInt (← bytes width)

def uint16 : Reader UInt16 := do return UInt16.ofNat (← unsigned 2)

def uint32 : Reader UInt32 := do return UInt32.ofNat (← unsigned 4)

/-- The bytes from position `start` up to the cursor; `start` must not lie behind it. -/
def bytesFrom (start : Nat) : Reader (List UInt8) := fun c =>
  if start ≤ c.pos then .ok ((c.data.drop start).take (c.pos - start)) c
  else .error .outOfBounds c

end Reader

end CilInstrument
