import CilInstrument.Text.Hex

/- Metadata tokens: 32-bit handles whose high byte names a table (or heap) and
   whose low 24 bits name a row of it. -/
namespace CilInstrument

/-- A handle that the metadata store of the host resolves. -/
structure Token where
  value : UInt32
  deriving Repr, DecidableEq

namespace Token

/-- The token of "nothing": a method without local variables carries it. -/
def null : Token := ⟨0⟩

def isNull (t : Token) : Bool := t.value == 0

/-- The table or heap, from the high byte. -/
def table (t : Token) : Nat := t.value.toNat / 0x1000000

/-- The row, from the low 24 bits. -/
def row (t : Token) : Nat := t.value.toNat % 0x1000000

/-- Eight lower-case hex digits behind `0x`. -/
def text (t : Token) : String := "0x" ++ Hex.padded 8 t.value.toNat

/-- The value with its two parts spelled out. -/
def describe (t : Token) : String :=
  s!"Token({t.text}, table: 0x{Hex.padded 2 t.table}, row: {t.row})"

theorem table_mul_add_row (t : Token) : t.table * 0x1000000 + t.row = t.value.toNat :=
  Nat.div_add_mod' _ _

theorem row_lt (t : Token) : t.row < 0x1000000 := Nat.mod_lt _ (by decide)

end Token

end CilInstrument
