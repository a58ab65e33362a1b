import Mathlib.Data.List.Forall2
import CilInstrument.Proofs.Truncation

/- Chains of exception tables, as they are stored. A clause is stored in fields of the
   widths that its section's layout has (`StoredClause.bytes`), a section as a byte of
   marks, its size and its clauses (`TableSection.bytes`). A clause is read back with the
   same numbers in wider fields and with the flags that have a meaning (`reads_stored`),
   a section is as long as its size says, in both layouts (`stride_stored`), so the next
   one stands right behind it. `ofBytes_chain` goes over the whole chain: all clauses of
   all sections are read, in order, and nothing of what stands behind the last one. -/
namespace CilInstrument

open Step

/-! Clauses in both layouts. -/

/-- How many bytes the fields of a clause take. -/
structure ClauseWidths where
  flags : Nat
  offset : Nat
  length : Nat
  classOrFilter : Nat

def SectionLayout.widths : SectionLayout → ClauseWidths
  | small => ⟨2, 2, 1, 4⟩
  | fat => ⟨4, 4, 4, 4⟩

/-- The numbers of a clause in a section. -/
structure StoredClause where
  flags : Nat
  tryOffset : Nat
  tryLength : Nat
  handlerOffset : Nat
  handlerLength : Nat
  classOrFilter : Nat

namespace StoredClause

open LittleEndian

/-- The numbers fit into the fields that the layout has for them. -/
structure Fits (c : StoredClause) (layout : SectionLayout) : Prop where
  flags : c.flags < capacity layout.widths.flags
  tryOffset : c.tryOffset < capacity layout.widths.offset
  tryLength : c.tryLength < capacity layout.widths.length
  handlerOffset : c.handlerOffset < capacity layout.widths.offset
  handlerLength : c.handlerLength < capacity layout.widths.length
  classOrFilter : c.classOrFilter < capacity layout.widths.classOrFilter

instance (c : StoredClause) (layout : SectionLayout) : Decidable (c.Fits layout) :=
  decidable_of_iff (c.flags < capacity layout.widths.flags ∧
    c.tryOffset < capacity layout.widths.offset ∧ c.tryLength < capacity layout.widths.length ∧
    c.handlerOffset < capacity layout.widths.offset ∧
    c.handlerLength < capacity layout.widths.length ∧
    c.classOrFilter < capacity layout.widths.classOrFilter)
    ⟨fun ⟨h₁, h₂, h₃, h₄, h₅, h₆⟩ => ⟨h₁, h₂, h₃, h₄, h₅, h₆⟩,
      fun ⟨h₁, h₂, h₃, h₄, h₅, h₆⟩ => ⟨h₁, h₂, h₃, h₄, h₅, h₆⟩⟩

/-- One field behind the other, the lowest byte of each first. -/
def bytes (layout : SectionLayout) (c : StoredClause) : List UInt8 :=
  encode layout.widths.flags c.flags ++ (encode layout.widths.offset c.tryOffset ++
    (encode layout.widths.length c.tryLength ++ (encode layout.widths.offset c.handlerOffset ++
      (encode layout.widths.length c.handlerLength ++
        encode layout.widths.classOrFilter c.classOrFilter))))

/-- The clause has the same numbers, and of the flags the three bits that have a meaning. -/
structure ReadAs (c : StoredClause) (clause : ExceptionClause) : Prop where
  flags : clause.flags.toNat = c.flags % 8
  tryOffset : clause.tryOffset.toNat = c.tryOffset
  tryLength : clause.tryLength.toNat = c.tryLength
  handlerOffset : clause.handlerOffset.toNat = c.handlerOffset
  handlerLength : clause.handlerLength.toNat = c.handlerLength
  classOrFilter : clause.classOrFilter.toNat = c.classOrFilter

/-- What a clause that fits is read as. -/
def widened (c : StoredClause) : ExceptionClause where
  flags := UInt16.ofNat (c.flags % 8)
  tryOffset := UInt32.ofNat c.tryOffset
  tryLength := UInt32.ofNat c.tryLength
  handlerOffset := UInt32.ofNat c.handlerOffset
  handlerLength := UInt32.ofNat c.handlerLength
  classOrFilter := UInt32.ofNat c.classOrFilter

/-- No field of a section is wider than 32 bits. -/
theorem lt_of_fits {c : StoredClause} {layout : SectionLayout} (h : c.Fits layout) :
    c.tryOffset < UInt32.size ∧ c.tryLength < UInt32.size ∧ c.handlerOffset < UInt32.size ∧
      c.handlerLength < UInt32.size ∧ c.classOrFilter < UInt32.size := by
  have hwide : capacity layout.widths.offset ≤ UInt32.size ∧
      capacity layout.widths.length ≤ UInt32.size ∧
      capacity layout.widths.classOrFilter ≤ UInt32.size := by
    cases layout <;> decide
  obtain ⟨hoffset, hlength, hclass⟩ := hwide
  exact ⟨Nat.lt_of_lt_of_le h.tryOffset hoffset, Nat.lt_of_lt_of_le h.tryLength hlength,
    Nat.lt_of_lt_of_le h.handlerOffset hoffset, Nat.lt_of_lt_of_le h.handlerLength hlength,
    Nat.lt_of_lt_of_le h.classOrFilter hclass⟩

theorem readAs_widened {c : StoredClause} {layout : SectionLayout} (h : c.Fits layout) :
    c.ReadAs c.widened := by
  obtain ⟨htry, htryLength, hhandler, hhandlerLength, hclass⟩ := lt_of_fits h
  constructor
  · have hsmall : c.flags % 8 < UInt16.size := Nat.lt_trans (Nat.mod_lt _ (by decide)) (by decide)
    exact UInt16.toNat_ofNat_of_lt' hsmall
  · exact UInt32.toNat_ofNat_of_lt' htry
  · exact UInt32.toNat_ofNat_of_lt' htryLength
  · exact UInt32.toNat_ofNat_of_lt' hhandler
  · exact UInt32.toNat_ofNat_of_lt' hhandlerLength
  · exact UInt32.toNat_ofNat_of_lt' hclass

@[simp] theorem length_bytes (layout : SectionLayout) (c : StoredClause) :
    (c.bytes layout).length = ExceptionClause.size layout := by
  cases layout <;> simp [bytes, SectionLayout.widths, ExceptionClause.size]

theorem length_flatMap_bytes (layout : SectionLayout) (clauses : List StoredClause) :
    (clauses.flatMap (bytes layout)).length = clauses.length * ExceptionClause.size layout := by
  induction clauses with
  | nil => simp
  | cons c rest ih =>
    rw [List.flatMap_cons, List.length_append, length_bytes, ih, List.length_cons, Nat.succ_mul,
      Nat.add_comm]

theorem and_knownFlags (n : Nat) :
    UInt16.ofNat n &&& ExceptionClause.knownFlags = UInt16.ofNat (n % 8) := by
  apply UInt16.toNat_inj.mp
  rw [UInt16.toNat_and, UInt16.toNat_ofNat', UInt16.toNat_ofNat']
  calc (n % 65536) &&& (2 ^ 3 - 1) = n % 65536 % 2 ^ 3 := Nat.and_two_pow_sub_one_eq_mod _ 3
    _ = n % 8 % 65536 := by omega

/-- A clause is read back with the same numbers and the flags that have a meaning. -/
theorem reads_stored {c : StoredClause} {layout : SectionLayout} (h : c.Fits layout) :
    Reads (ExceptionClause.read layout) (c.bytes layout) c.widened := by
  obtain ⟨hflags, htry, htryLength, hhandler, hhandlerLength, hclass⟩ := h
  cases layout with
  | small =>
    have hread : c.widened = ⟨UInt16.ofNat c.flags &&& ExceptionClause.knownFlags,
        (UInt16.ofNat c.tryOffset).toUInt32, (UInt8.ofNat c.tryLength).toUInt32,
        (UInt16.ofNat c.handlerOffset).toUInt32, (UInt8.ofNat c.handlerLength).toUInt32,
        UInt32.ofNat c.classOrFilter⟩ := by
      rw [and_knownFlags, UInt16.toUInt32_ofNat' htry, UInt8.toUInt32_ofNat' htryLength,
        UInt16.toUInt32_ofNat' hhandler, UInt8.toUInt32_ofNat' hhandlerLength]
      rfl
    rw [hread]
    refine (Reads.uint16 hflags).bind ?_
    refine (Reads.uint16 htry).bind ?_
    refine (Reads.byte _).bind ?_
    refine (Reads.uint16 hhandler).bind ?_
    refine (Reads.byte _).bind ?_
    exact (Reads.uint32 hclass).map _
  | fat =>
    have hread : c.widened = ⟨(UInt32.ofNat c.flags).toUInt16 &&& ExceptionClause.knownFlags,
        UInt32.ofNat c.tryOffset, UInt32.ofNat c.tryLength, UInt32.ofNat c.handlerOffset,
        UInt32.ofNat c.handlerLength, UInt32.ofNat c.classOrFilter⟩ := by
      rw [UInt32.toUInt16_ofNat', and_knownFlags]
      rfl
    rw [hread]
    refine (Reads.uint32 hflags).bind ?_
    refine (Reads.uint32 htry).bind ?_
    refine (Reads.uint32 htryLength).bind ?_
    refine (Reads.uint32 hhandler).bind ?_
    refine (Reads.uint32 hhandlerLength).bind ?_
    exact (Reads.uint32 hclass).map _

end StoredClause

/-! Sections. -/

namespace SectionLayout

/-- The layout that the first byte of a section names. -/
def ofKind (kind : UInt8) : SectionLayout := if kind &&& 0x40 != 0 then fat else small

/-- The largest size that a section can state. -/
def maxSize : SectionLayout → Nat
  | small => 0xFF
  | fat => ExceptionTable.maxSectionSize

end SectionLayout

/-- An exception table in one section: any first byte that names a table, and as many
clauses as the size field of its layout has room for. -/
structure TableSection where
  kind : UInt8
  /-- The two bytes behind the size of a small section, which say nothing. -/
  unused : UInt8 × UInt8
  clauses : List StoredClause
  isTable : kind &&& 0x01 ≠ 0
  fits : ∀ c ∈ clauses, c.Fits (.ofKind kind)
  room : SectionHeader.length + clauses.length * ExceptionClause.size (.ofKind kind) ≤
    (SectionLayout.ofKind kind).maxSize

namespace TableSection

variable (s : TableSection)

def layout : SectionLayout := .ofKind s.kind

/-- Another section is announced. -/
def more : Bool := s.kind &&& 0x80 != 0

/-- Bytes of the section. -/
def size : Nat := SectionHeader.length + s.clauses.length * ExceptionClause.size s.layout

/-- The size in one byte with two unused ones behind it, or in three bytes. -/
def sizeBytes : List UInt8 :=
  match s.layout with
  | .small => [UInt8.ofNat s.size, s.unused.1, s.unused.2]
  | .fat => LittleEndian.encode 3 s.size

def bytes : List UInt8 :=
  s.kind :: s.sizeBytes ++ s.clauses.flatMap (StoredClause.bytes s.layout)

/-- What is read of the section. -/
def stored : StoredSection where
  header := ⟨true, s.layout, s.size, s.more⟩
  clauses := s.clauses.map (·.widened)

/-- The first four bytes say what the section is. -/
theorem sizeBytes_eq : ∃ s0 s1 s2, s.sizeBytes = [s0, s1, s2] ∧
    SectionHeader.ofBytes s.kind s0 s1 s2 = s.stored.header := by
  have htable : (s.kind &&& 0x01 != 0) = true := bne_iff_ne.mpr s.isTable
  have hroom : s.size ≤ s.layout.maxSize := s.room
  cases hkind : s.kind &&& 0x40 != 0 with
  | true =>
    have hlayout : s.layout = .fat := if_pos hkind
    rw [hlayout] at hroom
    have hsize : LittleEndian.decode (LittleEndian.encode 3 s.size) = s.size :=
      LittleEndian.decode_encode_of_lt (Nat.lt_of_le_of_lt hroom (by decide))
    refine ⟨UInt8.ofNat s.size, UInt8.ofNat (s.size / 256), UInt8.ofNat (s.size / 256 / 256), ?_, ?_⟩
    · unfold sizeBytes
      rw [hlayout]
      rfl
    · unfold SectionHeader.ofBytes stored
      simp only [htable, hkind, if_true, hlayout]
      congr 1
  | false =>
    have hlayout : s.layout = .small := if_neg (by rw [hkind]; exact Bool.false_ne_true)
    rw [hlayout] at hroom
    have hsize : (UInt8.ofNat s.size).toNat = s.size :=
      UInt8.toNat_ofNat_of_lt' (Nat.lt_of_le_of_lt hroom (by decide))
    refine ⟨UInt8.ofNat s.size, s.unused.1, s.unused.2, ?_, ?_⟩
    · unfold sizeBytes
      rw [hlayout]
    · unfold SectionHeader.ofBytes stored
      simp only [htable, hkind, hlayout, hsize]
      rfl

theorem length_bytes : s.bytes.length = s.size := by
  obtain ⟨s0, s1, s2, hbytes, -⟩ := s.sizeBytes_eq
  unfold bytes size
  rw [hbytes, List.length_append, StoredClause.length_flatMap_bytes]
  rfl

/-- The next section stands right behind: all clauses take a multiple of four bytes. -/
theorem stride_stored : s.stored.header.stride = s.size := by
  unfold SectionHeader.stride stored
  cases hlayout : s.layout with
  | small =>
    have hsize : s.size = 4 + s.clauses.length * 12 := by
      unfold size
      rw [hlayout]
      rfl
    show align4 s.size = s.size
    unfold align4
    omega
  | fat => rfl

theorem clauseCount_stored : s.stored.header.clauseCount = s.clauses.length := by
  have hpos : 0 < ExceptionClause.size s.layout := by cases s.layout <;> decide
  show (s.size - SectionHeader.length) / ExceptionClause.size s.layout = s.clauses.length
  unfold size
  rw [Nat.add_sub_cancel_left, Nat.mul_div_cancel _ hpos]

/-- The bytes of a section begin with it, whatever follows. -/
theorem heads_bytes (rest : List UInt8) : s.stored.Heads (s.bytes ++ rest) := by
  obtain ⟨s0, s1, s2, hbytes, hheader⟩ := s.sizeBytes_eq
  have hlength := StoredClause.length_flatMap_bytes s.layout s.clauses
  refine ⟨s.kind, s0, s1, s2, s.clauses.flatMap (StoredClause.bytes s.layout), rest, ?_, ?_⟩
  · unfold bytes
    rw [hbytes]
    rfl
  · constructor
    · exact hheader
    · rfl
    · rw [hlength, Nat.add_comm]
      rfl
    · rw [clauseCount_stored]
      show Reads _ (List.take (s.clauses.length * ExceptionClause.size s.layout) _) _
      rw [List.take_of_length_le (Nat.le_of_eq hlength)]
      exact Reads.collect fun c hc => StoredClause.reads_stored (s.fits c hc)

end TableSection

/-! Chains. -/

namespace ExceptionTable

/-- The bytes of sections of which all but the last announce another one are a chain, and a
section that is announced behind the last one is no exception table. By induction on the
sections in front of the last. -/
theorem chain_bytes {front : List TableSection} {last : TableSection} {behind : List UInt8}
    (hfront : ∀ s ∈ front, s.more = true) (hend : last.more = true → NoTable behind) :
    Chain ((front ++ [last]).flatMap (·.bytes) ++ behind) ((front ++ [last]).map (·.stored)) := by
  induction front with
  | nil =>
    show Chain (last.bytes ++ [] ++ behind) [last.stored]
    rw [List.append_nil]
    have hlast := last.heads_bytes behind
    cases hmore : last.more with
    | false => exact .last hlast hmore
    | true =>
      refine .next hlast hmore (.none ?_)
      rw [last.stride_stored, ← last.length_bytes, List.drop_left]
      exact hend hmore
  | cons s rest ih =>
    have hrest := ih fun x hx => hfront x (List.mem_cons_of_mem s hx)
    show Chain (s.bytes ++ (rest ++ [last]).flatMap (·.bytes) ++ behind)
      (s.stored :: (rest ++ [last]).map (·.stored))
    rw [List.append_assoc]
    refine .next (s.heads_bytes _) (hfront s List.mem_cons_self) ?_
    rw [s.stride_stored, ← s.length_bytes, List.drop_left]
    exact hrest

/-- What is read of sections, clause by clause. -/
theorem clausesOf_stored (sections : List TableSection) :
    List.Forall₂ StoredClause.ReadAs (sections.flatMap (·.clauses))
      (clausesOf (sections.map (·.stored))) := by
  have hall : clausesOf (sections.map (·.stored)) = (sections.flatMap (·.clauses)).map (·.widened) := by
    unfold clausesOf
    rw [List.flatMap_map, List.map_flatMap]
    rfl
  rw [hall, List.forall₂_map_right_iff, List.forall₂_same]
  intro c hc
  obtain ⟨s, -, hs⟩ := List.mem_flatMap.mp hc
  exact StoredClause.readAs_widened (s.fits c hs)

theorem ofBytes_of_chain {data : List UInt8} {sections : List StoredSection}
    (h : Chain data sections) : ofBytes data = .ok ⟨clausesOf sections, #[]⟩ := by
  have hall : ((#[] : Array ExceptionClause) ++ clausesOf sections).toList = clausesOf sections := by
    rw [Array.toList_appendList, List.nil_append]
  refine except_bind_ok.mpr ⟨_, readChain_ok_iff.mpr ⟨sections, h, rfl⟩, ?_⟩
  rw [hall]
  rfl

/-- All clauses of all sections are read, in order, and nothing from behind the chain. -/
theorem ofBytes_chain {front : List TableSection} {last : TableSection} {behind : List UInt8}
    (hfront : ∀ s ∈ front, s.more = true) (hend : last.more = true → NoTable behind) :
    ∃ clauses, ofBytes ((front ++ [last]).flatMap (·.bytes) ++ behind) = .ok ⟨clauses, #[]⟩ ∧
      List.Forall₂ StoredClause.ReadAs ((front ++ [last]).flatMap (·.clauses)) clauses :=
  ⟨_, ofBytes_of_chain (chain_bytes hfront hend), clausesOf_stored _⟩

/-- A small table with a finally clause, which announces another section. -/
def smallTable : TableSection where
  kind := 0x81
  unused := (0, 0)
  clauses := [⟨2, 0x08, 0x1B, 0x23, 0x0A, 0⟩]
  isTable := by decide
  fits := by decide
  room := by decide

example : smallTable.bytes =
    [0x81, 0x10, 0, 0, 2, 0, 8, 0, 0x1B, 0x23, 0, 0x0A, 0, 0, 0, 0] := by decide

/-- A fat table with reserved flag bits, which announces another section. -/
def fatTable : TableSection where
  kind := 0xC1
  unused := (0, 0)
  clauses := [⟨0x10002, 0x145, 0x28, 0x16D, 0xE, 0⟩, ⟨0, 0x9, 0x18A, 0x193, 0xA, 0x0100003F⟩]
  isTable := by decide
  fits := by decide
  room := by decide

theorem ofBytes_chain_mixed :
    (∀ s ∈ [smallTable, fatTable], s.more = true) ∧
    (smallTable.more = true → NoTable [0x02, 0x04, 0x00, 0x00, 0x41]) ∧
    ∃ clauses, ofBytes (([smallTable, fatTable] ++ [smallTable]).flatMap (·.bytes) ++
        [0x02, 0x04, 0x00, 0x00, 0x41]) = .ok ⟨clauses, #[]⟩ ∧
      List.Forall₂ StoredClause.ReadAs
        (([smallTable, fatTable] ++ [smallTable]).flatMap (·.clauses)) clauses := by
  have hfront : ∀ s ∈ [smallTable, fatTable], s.more = true := by
    simp only [List.mem_cons, List.not_mem_nil, or_false, forall_eq_or_imp, forall_eq]
    decide
  have hend : smallTable.more = true → NoTable [0x02, 0x04, 0x00, 0x00, 0x41] := by
    intro _ kind s0 s1 s2 rest h
    cases h
    rfl
  exact ⟨hfront, hend, ofBytes_chain hfront hend⟩

end ExceptionTable

end CilInstrument
