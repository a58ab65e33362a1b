/- Numbers in base sixteen, in lower case. -/
namespace CilInstrument.Hex

/-- The fewest digits that write `n`. -/
def digits (n : Nat) : String := String.ofList (Nat.toDigits 16 n)

/-- At least `width` digits, filled up with zeros on the left. -/
def padded (width n : Nat) : String := String.ofList ((Nat.toDigits 16 n).leftpad width '0')

end CilInstrument.Hex
