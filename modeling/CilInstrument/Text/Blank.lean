/- The characters of the Unicode property White_Space, and cutting them off the
   ends of a text. -/
namespace CilInstrument.Text

/-- The 25 code points of the property, as closed ranges. -/
def blankRanges : List (Nat × Nat) :=
  [(0x09, 0x0D), (0x20, 0x20), (0x85, 0x85), (0xA0, 0xA0), (0x1680, 0x1680), (0x2000, 0x200A),
   (0x2028, 0x2029), (0x202F, 0x202F), (0x205F, 0x205F), (0x3000, 0x3000)]

def isBlank (c : Char) : Bool :=
  blankRanges.any fun range => range.1 ≤ c.toNat && c.toNat ≤ range.2

/-- Without the blanks at the start. -/
def trimStart (text : List Char) : List Char := text.dropWhile isBlank

/-- Without the blanks at both ends. -/
def trim (text : List Char) : List Char := (trimStart (trimStart text).reverse).reverse

/-- Drops `word` from the front as often as it stands there. -/
def stripAll (word text : List Char) : List Char :=
  if _ : word ≠ [] ∧ word.isPrefixOf text then stripAll word (text.drop word.length) else text
termination_by text.length
decreasing_by
  rename_i h
  obtain ⟨hne, hpre⟩ := h
  have hlen : word.length ≤ text.length := (List.isPrefixOf_iff_prefix.mp hpre).length_le
  have hpos : 0 < word.length := List.length_pos_iff.mpr hne
  rw [List.length_drop]; omega

end CilInstrument.Text
