import CilInstrument.Proofs.SectionBytes

/- When a table is written, and what is read of it again. Writing fails for one of two
   reasons: the size does not fit into three bytes, or an offset of an inherited clause
   would leave the 32 bits when it moves with the code; the first such offset, clause by
   clause, is the one that is reported (`encode_error_iff`). A table that is written is
   read back whatever follows it, with the moved clauses in front of the added ones
   (`encode_read_back`). -/
namespace CilInstrument

open Step

namespace ExceptionClause

/-- The offsets that move with the code: those of the ranges, and of a filter. -/
def movingOffsets (c : ExceptionClause) : List UInt32 :=
  c.tryOffset :: c.handlerOffset :: if c.isFilter then [c.classOrFilter] else []

/-- An offset that moves by `delta` would leave the 32 bits. -/
def overflows (delta offset : UInt32) : Bool := decide (UInt32.size ≤ offset.toNat + delta.toNat)

variable {delta offset : UInt32} {c : ExceptionClause}

theorem shiftOffset_of_overflows (h : overflows delta offset = true) :
    shiftOffset delta offset = .error (.malformed (.clauseOffset offset)) :=
  if_neg (Nat.not_lt.mpr (of_decide_eq_true h))

theorem shiftOffset_of_not_overflows (h : ¬overflows delta offset = true) :
    shiftOffset delta offset = .ok (offset + delta) :=
  if_pos (Nat.lt_of_not_le fun hle => h (decide_eq_true hle))

/-- The first offset that can not be moved is reported. -/
theorem shifted_of_find_some (h : c.movingOffsets.find? (overflows delta) = some offset) :
    c.shifted delta = .error (.malformed (.clauseOffset offset)) := by
  unfold movingOffsets at h
  by_cases htry : overflows delta c.tryOffset = true
  · rw [List.find?_cons_of_pos htry] at h
    cases h
    exact except_bind_error.mpr (.inl (shiftOffset_of_overflows htry))
  rw [List.find?_cons_of_neg htry] at h
  refine except_bind_error.mpr (.inr ⟨_, shiftOffset_of_not_overflows htry, ?_⟩)
  by_cases hhandler : overflows delta c.handlerOffset = true
  · rw [List.find?_cons_of_pos hhandler] at h
    cases h
    exact except_bind_error.mpr (.inl (shiftOffset_of_overflows hhandler))
  rw [List.find?_cons_of_neg hhandler] at h
  refine except_bind_error.mpr (.inr ⟨_, shiftOffset_of_not_overflows hhandler, ?_⟩)
  cases hfilter : c.isFilter with
  | false =>
    rw [hfilter] at h
    cases h
  | true =>
    rw [hfilter, if_pos rfl, List.find?_singleton] at h
    split at h
    · next hclass =>
      cases h
      exact except_bind_error.mpr (.inl (shiftOffset_of_overflows hclass))
    · cases h

/-- Without such an offset the clause is moved. -/
theorem shifted_of_find_none (h : c.movingOffsets.find? (overflows delta) = none) :
    ∃ moved, c.shifted delta = .ok moved := by
  rw [List.find?_eq_none] at h
  have hmoves : ∀ offset ∈ c.movingOffsets, shiftOffset delta offset = .ok (offset + delta) :=
    fun offset hoffset => shiftOffset_of_not_overflows (h offset hoffset)
  unfold shifted
  rw [hmoves c.tryOffset List.mem_cons_self,
    hmoves c.handlerOffset (List.mem_cons_of_mem _ List.mem_cons_self)]
  cases hfilter : c.isFilter with
  | false => exact ⟨_, rfl⟩
  | true =>
    rw [hmoves c.classOrFilter (by simp [movingOffsets, hfilter])]
    exact ⟨_, rfl⟩

end ExceptionClause

namespace ExceptionTable

open ExceptionClause

/-- Of all clauses, too, the first offset that can not be moved is reported. -/
theorem mapM_shifted_of_find_some {clauses : List ExceptionClause} {delta offset : UInt32}
    (h : (clauses.flatMap movingOffsets).find? (overflows delta) = some offset) :
    clauses.mapM (·.shifted delta) = .error (.malformed (.clauseOffset offset)) := by
  induction clauses with
  | nil => cases h
  | cons c rest ih =>
    rw [List.flatMap_cons, List.find?_append] at h
    rw [List.mapM_cons]
    cases hc : c.movingOffsets.find? (overflows delta) with
    | some first =>
      rw [hc] at h
      cases h
      exact except_bind_error.mpr (.inl (shifted_of_find_some hc))
    | none =>
      rw [hc, Option.none_or] at h
      obtain ⟨moved, hmoved⟩ := shifted_of_find_none hc
      refine except_bind_error.mpr (.inr ⟨moved, hmoved, ?_⟩)
      exact except_bind_error.mpr (.inl (ih h))

theorem mapM_shifted_of_find_none {clauses : List ExceptionClause} {delta : UInt32}
    (h : (clauses.flatMap movingOffsets).find? (overflows delta) = none) :
    ∃ moved, clauses.mapM (·.shifted delta) = .ok moved := by
  induction clauses with
  | nil => exact ⟨[], rfl⟩
  | cons c rest ih =>
    rw [List.flatMap_cons, List.find?_append, Option.or_eq_none_iff] at h
    obtain ⟨first, hfirst⟩ := shifted_of_find_none h.1
    obtain ⟨moved, hmoved⟩ := ih h.2
    refine ⟨first :: moved, ?_⟩
    rw [List.mapM_cons]
    exact except_bind_ok.mpr ⟨first, hfirst, except_bind_ok.mpr ⟨moved, hmoved, rfl⟩⟩

theorem mapM_shifted_error_iff {clauses : List ExceptionClause} {delta : UInt32} {e : Error} :
    clauses.mapM (·.shifted delta) = .error e ↔ ∃ offset,
      (clauses.flatMap movingOffsets).find? (overflows delta) = some offset ∧
      e = .malformed (.clauseOffset offset) := by
  cases hfind : (clauses.flatMap movingOffsets).find? (overflows delta) with
  | some offset =>
    rw [mapM_shifted_of_find_some hfind]
    simp [eq_comm]
  | none =>
    obtain ⟨moved, hmoved⟩ := mapM_shifted_of_find_none hfind
    rw [hmoved]
    simp

/-- Writing fails for the number of clauses, or for the first offset that can not be moved. -/
theorem encode_error_iff {t : ExceptionTable} {delta : UInt32} {e : Error} :
    t.encode delta = .error e ↔
      maxSectionSize < 4 + 24 * t.clauseCount ∧ e = .malformed (.tooManyClauses t.clauseCount) ∨
      4 + 24 * t.clauseCount ≤ maxSectionSize ∧ ∃ offset,
        (t.inherited.flatMap movingOffsets).find? (overflows delta) = some offset ∧
        e = .malformed (.clauseOffset offset) := by
  have hsize : SectionHeader.length + t.clauseCount * ExceptionClause.size .fat =
      4 + 24 * t.clauseCount := by
    rw [Nat.mul_comm]
    rfl
  unfold encode
  simp only [hsize]
  by_cases hempty : t.isEmpty = true
  · -- without clauses nothing is written, and nothing can be in the way of it
    obtain ⟨hinherited, hadded⟩ := (Bool.and_eq_true _ _).mp hempty
    have hcount : t.clauseCount = 0 := by
      unfold clauseCount
      rw [List.isEmpty_iff.mp hinherited, Array.isEmpty_iff_size_eq_zero.mp hadded]
      rfl
    rw [if_pos hempty, List.isEmpty_iff.mp hinherited, hcount]
    simp [maxSectionSize]
  rw [if_neg hempty]
  by_cases hlarge : maxSectionSize < 4 + 24 * t.clauseCount
  · rw [if_pos hlarge]
    have hsmall : ¬4 + 24 * t.clauseCount ≤ maxSectionSize := Nat.not_le.mpr hlarge
    simp [hlarge, hsmall, eq_comm]
  · rw [if_neg hlarge, except_bind_error, mapM_shifted_error_iff]
    constructor
    · intro h
      rcases h with h | ⟨_, _, h⟩
      · exact .inr ⟨Nat.le_of_not_lt hlarge, h⟩
      · cases h
    · intro h
      rcases h with ⟨h, -⟩ | ⟨-, h⟩
      · exact absurd h hlarge
      · exact .inl h

/-- Nothing is written exactly without clauses; writing fails exactly for the size or for an
offset; and what is written is read back whatever follows it. -/
theorem encode_read_back {t : ExceptionTable} (hknown : t.Known) (delta : UInt32) :
    let count := t.inherited.length + t.added.size
    (t.encode delta = .ok [] ↔ count = 0) ∧
    ((∃ e, t.encode delta = .error e) ↔ maxSectionSize < 4 + 24 * count ∨
      ∃ c ∈ t.inherited, ∃ offset ∈ c.movingOffsets,
        UInt32.size ≤ offset.toNat + delta.toNat) ∧
    (0 < count → ∀ bytes, t.encode delta = .ok bytes → ∀ behind, ∃ moved,
      List.Forall₂ (MovedBy delta.toNat) t.inherited moved ∧
      ofBytes (bytes ++ behind) = .ok ⟨moved ++ t.added.toList, #[]⟩) := by
  intro count
  refine ⟨?_, ?_, ?_⟩
  · constructor
    · intro h
      obtain ⟨moved, hmapped, -, hbytes⟩ := encode_ok.mp h
      have hnone := isEmpty_sectionOf (moved ++ t.added.toList)
      rw [← hbytes, eq_comm] at hnone
      exact (clauseCount_eq hmapped).trans (List.isEmpty_iff_length_eq_zero.mp hnone)
    · intro h
      obtain ⟨hinherited, hadded⟩ := Nat.add_eq_zero_iff.mp h
      unfold encode isEmpty
      rw [List.isEmpty_iff_length_eq_zero.mpr hinherited,
        Array.isEmpty_iff_size_eq_zero.mpr hadded]
      rfl
  · have hoffset : (∃ c ∈ t.inherited, ∃ offset ∈ c.movingOffsets,
        UInt32.size ≤ offset.toNat + delta.toNat) ↔
        ∃ offset, (t.inherited.flatMap movingOffsets).find? (overflows delta) = some offset := by
      rw [← Option.isSome_iff_exists, List.find?_isSome]
      simp only [List.mem_flatMap, overflows, decide_eq_true_eq]
      grind
    rw [hoffset]
    show _ ↔ maxSectionSize < 4 + 24 * t.clauseCount ∨ _
    constructor
    · intro h
      obtain ⟨e, he⟩ := h
      rcases encode_error_iff.mp he with h | h
      · exact .inl h.1
      · obtain ⟨-, offset, hfind, -⟩ := h
        exact .inr ⟨offset, hfind⟩
    · intro h
      by_cases hlarge : maxSectionSize < 4 + 24 * t.clauseCount
      · exact ⟨_, encode_error_iff.mpr (.inl ⟨hlarge, rfl⟩)⟩
      · obtain ⟨offset, hfind⟩ := h.resolve_left hlarge
        exact ⟨_, encode_error_iff.mpr (.inr ⟨Nat.le_of_not_lt hlarge, offset, hfind, rfl⟩)⟩
  · intro hcount bytes hbytes behind
    obtain ⟨moved, hmapped, hsize, rfl⟩ := encode_ok.mp hbytes
    have hmoved := movedBy_of_mapM hmapped
    refine ⟨moved, hmoved, ofBytes_sectionOf_append ?_ (hknown.moved hmoved) hsize behind⟩
    intro hnone
    have hzero : count = 0 := by
      show t.clauseCount = 0
      rw [clauseCount_eq hmapped, hnone]
      rfl
    exact absurd hzero (Nat.ne_of_gt hcount)

/-- A filter clause of the original code and an added clause for a type. -/
def filterAndTyped : ExceptionTable :=
  ⟨[⟨1, 0x10, 8, 0x18, 4, 0x14⟩], #[⟨0, 0, 6, 6, 2, 0x01000003⟩]⟩

theorem encode_read_back_filter : filterAndTyped.Known ∧
    filterAndTyped.encode 0x20 ≠ .ok [] ∧
    (¬∃ e, filterAndTyped.encode 0x20 = .error e) ∧
    (∃ e, filterAndTyped.encode 0xFFFFFFEC = .error e) ∧
    ∀ bytes, filterAndTyped.encode 0x20 = .ok bytes → ∃ moved,
      List.Forall₂ (MovedBy 0x20) filterAndTyped.inherited moved ∧
      ofBytes (bytes ++ [0xFF]) = .ok ⟨moved ++ filterAndTyped.added.toList, #[]⟩ := by
  have hknown : filterAndTyped.Known := ⟨by decide, by decide⟩
  obtain ⟨hnone, hfails, hread⟩ := encode_read_back hknown 0x20
  refine ⟨hknown, ?_, ?_, ?_, ?_⟩
  · intro h
    exact absurd (hnone.mp h) (by decide)
  · intro h
    exact absurd (hfails.mp h) (by decide)
  · exact (encode_read_back hknown 0xFFFFFFEC).2.1.mpr (.inr (by decide))
  · intro bytes hbytes
    exact hread (by decide) bytes hbytes [0xFF]

end ExceptionTable

end CilInstrument
