import CilInstrument.Body.ExceptionClause

/- The exception clauses of a method body, and the extra sections they are stored
   in. Sections of both layouts are read, also chained; one fat section is written.
   The clauses that the body came with are inherited and keep offsets into its own
   code; clauses that instrumentation adds have offsets into the code being built. -/
namespace CilInstrument

/-- The next multiple of four. -/
def align4 (n : Nat) : Nat := (n + 3) / 4 * 4

theorem le_align4 (n : Nat) : n ≤ align4 n := by
  unfold align4
  omega

/-- Whether at least `n` bytes stand in `data`; looks at no more than `n` of them. -/
def hasAtLeast (n : Nat) (data : List UInt8) : Bool := (data.take n).length == n

theorem hasAtLeast_iff {n : Nat} {data : List UInt8} :
    hasAtLeast n data = true ↔ n ≤ data.length := by
  rw [hasAtLeast, List.length_take, beq_iff_eq]
  omega

/-- What the four bytes in front of a section say. -/
structure SectionHeader where
  isExceptionTable : Bool
  layout : SectionLayout
  /-- The size of the section, these four bytes included. -/
  size : Nat
  /-- Another section follows. -/
  more : Bool
  deriving Repr, DecidableEq

namespace SectionHeader

/-- Bytes of the header. -/
def length : Nat := 4

/-- A fat section has its size in three bytes, a small one in one byte. -/
def ofBytes (kind s0 s1 s2 : UInt8) : SectionHeader where
  isExceptionTable := kind &&& 0x01 != 0
  layout := if kind &&& 0x40 != 0 then .fat else .small
  size := if kind &&& 0x40 != 0 then LittleEndian.decode [s0, s1, s2] else s0.toNat
  more := kind &&& 0x80 != 0

/-- Clauses that the section has room for. -/
def clauseCount (h : SectionHeader) : Nat := (h.size - length) / ExceptionClause.size h.layout

/-- How far the next section is: a small section is filled up to a multiple of four. -/
def stride (h : SectionHeader) : Nat :=
  match h.layout with
  | .fat => h.size
  | .small => align4 h.size

theorem size_le_stride (h : SectionHeader) : h.size ≤ h.stride := by
  unfold stride align4; split <;> omega

end SectionHeader

structure ExceptionTable where
  inherited : List ExceptionClause
  added : Array ExceptionClause
  deriving Repr, DecidableEq

namespace ExceptionTable

def empty : ExceptionTable := ⟨[], #[]⟩

def isEmpty (t : ExceptionTable) : Bool := t.inherited.isEmpty && t.added.isEmpty

/-- Records a clause of the code being built. Enclosed regions are added first. -/
def add (t : ExceptionTable) (c : ExceptionClause) : ExceptionTable :=
  { t with added := t.added.push c }

/-- All clauses, the inherited ones first: added regions may enclose the method's
    own code and never the other way round. -/
def clauseCount (t : ExceptionTable) : Nat := t.inherited.length + t.added.size

/-- The clauses of the chain of sections at the start of `data`, behind `found`. The
    chain ends at a section that is no exception table, at one that announces no
    other, or where no section header is left. -/
def readChain (data : List UInt8) (found : Array ExceptionClause) :
    Except Error (Array ExceptionClause) :=
  match data with
  | kind :: s0 :: s1 :: s2 :: body =>
    let header := SectionHeader.ofBytes kind s0 s1 s2
    if !header.isExceptionTable then .ok found
    else if header.size < SectionHeader.length ∨ !hasAtLeast header.size data then
      .error (.malformed (.sectionSize header.layout header.size))
    else
      match (Step.collect header.clauseCount (ExceptionClause.read header.layout)).outcome
          (Cursor.ofBytes body) with
      | .error e => .error e
      | .ok clauses =>
        let found := found ++ clauses
        if header.more then readChain (body.drop (header.stride - SectionHeader.length)) found
        else .ok found
  | _ => .ok found
termination_by data.length
decreasing_by
  simp only [List.length_drop, List.length_cons]
  omega

/-- The clauses of the extra sections at the start of `data`, as inherited ones. -/
def ofBytes (data : List UInt8) : Except Error ExceptionTable := do
  let clauses ← readChain data #[]
  return ⟨clauses.toList, #[]⟩

/-- The largest size that three bytes can hold. -/
def maxSectionSize : Nat := 0xFFFFFF

/-- Flags of the section that is written: an exception table in the fat layout. -/
def sectionKind : Nat := 0x41

/-- One fat section with all clauses, the inherited ones moved by `delta`, the offset
    of the method's own code in the code being built; no bytes if there is no clause. -/
def encode (t : ExceptionTable) (delta : UInt32) : Except Error (List UInt8) :=
  let size := SectionHeader.length + t.clauseCount * ExceptionClause.size .fat
  if t.isEmpty then .ok []
  else if maxSectionSize < size then .error (.malformed (.tooManyClauses t.clauseCount))
  else do
    let moved ← t.inherited.mapM (·.shifted delta)
    return LittleEndian.encode 4 (size * 0x100 + sectionKind) ++
      (moved ++ t.added.toList).flatMap (·.encode)

end ExceptionTable

end CilInstrument
