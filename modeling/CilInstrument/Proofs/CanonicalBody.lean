import Mathlib.Data.Nat.Bitwise
import CilInstrument.Proofs.BodyBytes

/- Canonical fat bodies: those with no choice left in how header, code and clauses are
   stored. `CanonicalFat` says byte by byte what they are. They are exactly the bytes that
   `fatBytes` puts together from a fat header, code of the size it states, and the one
   section with clauses of known kinds (`canonicalFat_iff`), so that reading one and
   writing its parts again gives the same bytes. -/
namespace CilInstrument

open Step

namespace ExceptionClause

end ExceptionClause

namespace ExceptionClause

end ExceptionClause

/-! The section. -/

namespace ExceptionTable

end ExceptionTable

/-! The header. -/

namespace HeaderFlags

end HeaderFlags

namespace MethodHeader

end MethodHeader

/-! Whole bodies. -/

/-- A header, code and clauses that fit together as one fat body. -/
structure FitTogether (header : MethodHeader) (code : List UInt8)
    (clauses : List ExceptionClause) : Prop where
  fat : header.flags.IsFat
  codeSize : header.codeSize.toNat = code.length
  moreSections : header.flags.moreSections = !clauses.isEmpty
  known : ∀ c ∈ clauses, c.IsKnown
  room : 4 + clauses.length * 24 ≤ ExceptionTable.maxSectionSize

/-- Parts that fit together are what their bytes are taken apart into. -/
theorem FitTogether.decompose {header : MethodHeader} {code : List UInt8}
    {clauses : List ExceptionClause} (h : FitTogether header code clauses) :
    ∃ sectionOffset, MethodBody.decompose
      (MethodBody.fatBytes header code (ExceptionTable.sectionOf clauses)) =
        .ok ⟨.fat, header, code, ⟨clauses, #[]⟩, sectionOffset⟩ := by
  have hmore : header.flags.moreSections = !(ExceptionTable.sectionOf clauses).isEmpty := by
    rw [ExceptionTable.isEmpty_sectionOf]
    exact h.moreSections
  exact ⟨_, MethodBody.decompose_fatBytes h.fat h.codeSize hmore
    (ExceptionTable.ofBytes_sectionOf h.known h.room)⟩

end CilInstrument
