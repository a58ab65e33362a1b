import Mathlib.Data.List.Forall2
import CilInstrument.Body.ExceptionTable
import CilInstrument.Proofs.StepRuns

/- Exception sections are read back as they were written. `Reads r front a` says that the
   reader takes exactly `front` off whatever bytes begin with it, and gives `a`; readers
   that are put together from others read the fronts of their parts one after the other.
   A clause is read back with the flag bits that have a meaning (`reads_clause`), and the
   section that is written holds all clauses in order (`ofBytes_of_encode`). -/
namespace CilInstrument

open Step

/-- The reader takes exactly `front` off the bytes and gives `a`, whatever follows. -/
def Reads {α : Type} (r : Reader α) (front : List UInt8) (a : α) : Prop :=
  ∀ (c : Cursor) (rest : List UInt8), c.rest = front ++ rest →
    ∃ c', r.run c = .ok a c' ∧ c'.rest = rest

namespace Reads

variable {α β : Type}

theorem pure (a : α) : Reads (pure a) [] a := fun c _ h => ⟨c, rfl, h⟩

theorem bind {r : Reader α} {k : α → Reader β} {front more : List UInt8} {a : α} {b : β}
    (hr : Reads r front a) (hk : Reads (k a) more b) : Reads (r >>= k) (front ++ more) b := by
  intro c rest h
  rw [List.append_assoc] at h
  obtain ⟨c₁, hrun₁, hrest₁⟩ := hr c (more ++ rest) h
  obtain ⟨c₂, hrun₂, hrest₂⟩ := hk c₁ rest hrest₁
  refine ⟨c₂, ?_, hrest₂⟩
  rw [run_bind_ok]
  exact ⟨a, c₁, hrun₁, hrun₂⟩

theorem map {r : Reader α} {front : List UInt8} {a : α} (hr : Reads r front a) (f : α → β) :
    Reads (do return f (← r)) front (f a) := by
  have h : Reads (r >>= fun a => Pure.pure (f a)) (front ++ []) (f a) := hr.bind (Reads.pure (f a))
  rwa [List.append_nil] at h

theorem bytes (front : List UInt8) : Reads (Reader.bytes front.length) front front := by
  intro c rest h
  have htake : c.rest.take front.length = front := by rw [h, List.take_left]
  have hlength : (c.rest.take front.length).length = front.length := by rw [htake]
  refine ⟨c.skip front.length (by rw [h, List.length_append]; exact Nat.le_add_right _ _), ?_, ?_⟩
  · show Reader.bytes front.length c = _
    unfold Reader.bytes
    rw [dif_pos hlength, htake]
  · rw [Cursor.skip_rest, h, List.drop_left]

theorem byte (b : UInt8) : Reads Reader.byte [b] b := by
  intro c rest h
  show ∃ c', Reader.byte c = .ok b c' ∧ c'.rest = rest
  unfold Reader.byte
  split
  · next hnil =>
    rw [hnil] at h
    cases h
  · next first tail hcons =>
    rw [hcons] at h
    cases h
    exact ⟨_, rfl, by rw [Cursor.skip_rest, hcons]; rfl⟩

theorem unsigned {width n : Nat} (h : n < LittleEndian.capacity width) :
    Reads (Reader.unsigned width) (LittleEndian.encode width n) n := by
  have hbytes := (Reads.bytes (LittleEndian.encode width n)).map LittleEndian.decode
  rw [LittleEndian.decode_encode_of_lt h, LittleEndian.length_encode] at hbytes
  exact hbytes

theorem uint16 {n : Nat} (h : n < 0x10000) :
    Reads Reader.uint16 (LittleEndian.encode 2 n) (UInt16.ofNat n) := (unsigned h).map UInt16.ofNat

theorem uint32 {n : Nat} (h : n < 0x100000000) :
    Reads Reader.uint32 (LittleEndian.encode 4 n) (UInt32.ofNat n) := (unsigned h).map UInt32.ofNat

theorem word (v : UInt32) : Reads Reader.uint32 (LittleEndian.encode 4 v.toNat) v := by
  have h := uint32 v.toNat_lt
  rwa [UInt32.ofNat_toNat] at h

/-- As many values as there are items, each read from the bytes of its item. -/
theorem collect {r : Reader α} {front : β → List UInt8} {value : β → α} {items : List β}
    (h : ∀ item ∈ items, Reads r (front item) (value item)) :
    Reads (Step.collect items.length r) (items.flatMap front) (items.map value) := by
  have hgo : ∀ found : Array α, Reads (Step.collect.go r items.length found)
      (items.flatMap front) (found.toList ++ items.map value) := by
    induction items with
    | nil =>
      intro found
      rw [List.map_nil, List.append_nil]
      exact Reads.pure found.toList
    | cons item rest ih =>
      intro found
      have hrest := ih (fun x hx => h x (List.mem_cons_of_mem _ hx)) (found.push (value item))
      rw [Array.toList_push, List.append_assoc] at hrest
      exact (h item List.mem_cons_self).bind hrest
  exact hgo #[]

/-- A reader that reads all of some bytes has its value as outcome. -/
theorem outcome {r : Reader α} {front : List UInt8} {a : α} (h : Reads r front a)
    (rest : List UInt8) : r.outcome (Cursor.ofBytes (front ++ rest)) = .ok a := by
  obtain ⟨c', hrun, -⟩ := h (Cursor.ofBytes (front ++ rest)) rest rfl
  unfold Step.outcome
  rw [show r (Cursor.ofBytes (front ++ rest)) = .ok a c' from hrun]

end Reads

namespace ExceptionClause

/-- The clause without the flag bits that have no meaning. -/
def known (c : ExceptionClause) : ExceptionClause := { c with flags := c.flags &&& knownFlags }

/-- All flag bits of the clause have a meaning. -/
def IsKnown (c : ExceptionClause) : Prop := c.flags &&& knownFlags = c.flags

instance (c : ExceptionClause) : Decidable c.IsKnown :=
  inferInstanceAs (Decidable (c.flags &&& knownFlags = c.flags))

theorem known_of_isKnown {c : ExceptionClause} (h : c.IsKnown) : c.known = c := by
  unfold known
  rw [h]

/-- Reading drops nothing from clauses of known kinds. -/
theorem map_known {clauses : List ExceptionClause} (h : ∀ c ∈ clauses, c.IsKnown) :
    clauses.map (·.known) = clauses := by
  refine (List.map_congr_left fun c hc => known_of_isKnown (h c hc)).trans ?_
  exact List.map_id' _

theorem isKnown_known (c : ExceptionClause) : c.known.IsKnown := by
  show (c.flags &&& knownFlags) &&& knownFlags = c.flags &&& knownFlags
  rw [UInt16.and_assoc, UInt16.and_self]

/-- A clause is read back with the flags that have a meaning. -/
theorem reads_clause (c : ExceptionClause) : Reads (read .fat) c.encode c.known := by
  have hflags : c.flags.toNat < 0x100000000 := Nat.lt_trans c.flags.toNat_lt (by decide)
  have hlow : (UInt32.ofNat c.flags.toNat).toUInt16 = c.flags := by
    apply UInt16.toNat_inj.mp
    rw [UInt32.toNat_toUInt16, UInt32.toNat_ofNat_of_lt' hflags]
    exact Nat.mod_eq_of_lt c.flags.toNat_lt
  have hencode : c.encode = LittleEndian.encode 4 c.flags.toNat ++
      (LittleEndian.encode 4 c.tryOffset.toNat ++ (LittleEndian.encode 4 c.tryLength.toNat ++
        (LittleEndian.encode 4 c.handlerOffset.toNat ++
          (LittleEndian.encode 4 c.handlerLength.toNat ++
            LittleEndian.encode 4 c.classOrFilter.toNat)))) := by
    simp only [encode, List.append_assoc]
  rw [hencode]
  unfold read known
  refine (Reads.uint32 hflags).bind ?_
  rw [hlow]
  refine (Reads.word c.tryOffset).bind ?_
  refine (Reads.word c.tryLength).bind ?_
  refine (Reads.word c.handlerOffset).bind ?_
  refine (Reads.word c.handlerLength).bind ?_
  exact (Reads.word c.classOrFilter).map _

/-- Whatever is read as a clause has no flag bits without a meaning. -/
theorem isKnown_of_read {layout : SectionLayout} {c c' : Cursor} {clause : ExceptionClause}
    (h : (read layout).run c = .ok clause c') : clause.IsKnown := by
  cases layout with
  | fat =>
    obtain ⟨flags, _, -, h⟩ := run_bind_ok.mp h
    obtain ⟨tryOffset, _, -, h⟩ := run_bind_ok.mp h
    obtain ⟨tryLength, _, -, h⟩ := run_bind_ok.mp h
    obtain ⟨handlerOffset, _, -, h⟩ := run_bind_ok.mp h
    obtain ⟨handlerLength, _, -, h⟩ := run_bind_ok.mp h
    obtain ⟨classOrFilter, _, -, h⟩ := run_bind_ok.mp h
    cases h
    exact isKnown_known ⟨flags.toUInt16, tryOffset, tryLength, handlerOffset, handlerLength,
      classOrFilter⟩
  | small =>
    obtain ⟨flags, _, -, h⟩ := run_bind_ok.mp h
    obtain ⟨tryOffset, _, -, h⟩ := run_bind_ok.mp h
    obtain ⟨tryLength, _, -, h⟩ := run_bind_ok.mp h
    obtain ⟨handlerOffset, _, -, h⟩ := run_bind_ok.mp h
    obtain ⟨handlerLength, _, -, h⟩ := run_bind_ok.mp h
    obtain ⟨classOrFilter, _, -, h⟩ := run_bind_ok.mp h
    cases h
    exact isKnown_known ⟨flags, tryOffset.toUInt32, tryLength.toUInt32, handlerOffset.toUInt32,
      handlerLength.toUInt32, classOrFilter⟩

/-- `c'` is the clause `c` for code that stands `offset` bytes further on. -/
structure MovedBy (offset : Nat) (c c' : ExceptionClause) : Prop where
  flags : c'.flags = c.flags
  tryOffset : c'.tryOffset.toNat = c.tryOffset.toNat + offset
  tryLength : c'.tryLength = c.tryLength
  handlerOffset : c'.handlerOffset.toNat = c.handlerOffset.toNat + offset
  handlerLength : c'.handlerLength = c.handlerLength
  filter : c.isFilter = true → c'.classOrFilter.toNat = c.classOrFilter.toNat + offset
  exceptionClass : c.isFilter = false → c'.classOrFilter = c.classOrFilter

theorem shiftOffset_ok {delta offset moved : UInt32} (h : shiftOffset delta offset = .ok moved) :
    moved.toNat = offset.toNat + delta.toNat := by
  unfold shiftOffset at h
  split at h
  · next hlt =>
    cases h
    rw [UInt32.toNat_add, Nat.mod_eq_of_lt hlt]
  · cases h

theorem movedBy_of_shifted {c c' : ExceptionClause} {delta : UInt32}
    (h : c.shifted delta = .ok c') : MovedBy delta.toNat c c' := by
  obtain ⟨tryOffset, htry, h⟩ := except_bind_ok.mp h
  obtain ⟨handlerOffset, hhandler, h⟩ := except_bind_ok.mp h
  simp only at h
  split at h
  · next hfilter =>
    obtain ⟨classOrFilter, hclass, h⟩ := except_bind_ok.mp h
    cases h
    exact {
      flags := rfl
      tryOffset := shiftOffset_ok htry
      tryLength := rfl
      handlerOffset := shiftOffset_ok hhandler
      handlerLength := rfl
      filter := fun _ => shiftOffset_ok hclass
      exceptionClass := fun h => absurd hfilter (by rw [h]; exact Bool.false_ne_true) }
  · next hfilter =>
    cases h
    exact {
      flags := rfl
      tryOffset := shiftOffset_ok htry
      tryLength := rfl
      handlerOffset := shiftOffset_ok hhandler
      handlerLength := rfl
      filter := fun h => absurd h hfilter
      exceptionClass := fun _ => rfl }

end ExceptionClause

theorem length_flatMap_encode (clauses : List ExceptionClause) :
    (clauses.flatMap (·.encode)).length = clauses.length * 24 := by
  induction clauses with
  | nil => rfl
  | cons c rest ih =>
    rw [List.flatMap_cons, List.length_append, ExceptionClause.length_encode, ih, List.length_cons,
      ExceptionClause.size]
    omega

/-- What every value has that a reader gives, all collected values have. -/
theorem forall_of_collect {α : Type} {P : α → Prop} {r : Reader α}
    (hr : ∀ {c c' a}, r.run c = .ok a c' → P a) {count : Nat} {c c' : Cursor} {found : List α}
    (h : (Step.collect count r).run c = .ok found c') : ∀ a ∈ found, P a := by
  -- the loop carries what it found so far, so that has to be of the kind as well
  have hgo : ∀ (count : Nat) (before : Array α) (c : Cursor), (∀ a ∈ before, P a) →
      (Step.collect.go r count before).run c = .ok found c' → ∀ a ∈ found, P a := by
    intro count
    induction count with
    | zero =>
      intro before c hbefore h
      cases h
      intro a ha
      exact hbefore a (Array.mem_toList_iff.mp ha)
    | succ count ih =>
      intro before c hbefore h
      obtain ⟨a, c₁, hrun, hrest⟩ := run_bind_ok.mp h
      refine ih (before.push a) c₁ ?_ hrest
      intro x hx
      rcases Array.mem_push.mp hx with hx | rfl
      · exact hbefore x hx
      · exact hr hrun
  exact hgo count #[] c (fun a ha => absurd ha (Array.not_mem_empty a)) h

namespace ExceptionTable

open ExceptionClause

/-- All clauses of a chain of sections have known flags. -/
theorem isKnown_of_readChain {data : List UInt8} {found clauses : Array ExceptionClause}
    (hfound : ∀ c ∈ found, c.IsKnown) (h : readChain data found = .ok clauses) :
    ∀ c ∈ clauses, c.IsKnown := by
  -- a section is followed by a shorter chain
  induction hn : data.length using Nat.strongRecOn generalizing data found with
  | _ n ih =>
  rw [readChain.eq_def] at h
  split at h
  · next kind s0 s1 s2 body =>
    simp only at h
    generalize hheader : SectionHeader.ofBytes kind s0 s1 s2 = header at h
    split at h
    · cases h
      exact hfound
    split at h
    · cases h
    split at h
    · cases h
    · next more hmore =>
      have hall : ∀ c ∈ found ++ more.toArray, c.IsKnown := by
        intro c hc
        rcases Array.mem_append.mp hc with hc | hc
        · exact hfound c hc
        · unfold Step.outcome at hmore
          split at hmore
          · next _ c' hrun =>
            cases hmore
            exact forall_of_collect (fun hread => isKnown_of_read hread) hrun c
              (List.mem_toArray.mp hc)
          · cases hmore
      have happend : found ++ more = found ++ more.toArray := by
        apply Array.ext'
        simp
      rw [happend] at h
      split at h
      · refine ih _ ?_ hall h rfl
        rw [← hn, List.length_drop]
        simp only [List.length_cons]
        omega
      · cases h
        exact hall
  · cases h
    exact hfound

theorem ofBytes_nil : ofBytes [] = .ok empty := by
  unfold ofBytes
  rw [readChain.eq_def]
  rfl

theorem isKnown_of_ofBytes {data : List UInt8} {t : ExceptionTable} (h : ofBytes data = .ok t) :
    (∀ c ∈ t.inherited, c.IsKnown) ∧ t.added = #[] := by
  unfold ofBytes at h
  cases hchain : readChain data #[] with
  | error e =>
    rw [hchain] at h
    cases h
  | ok clauses =>
    rw [hchain] at h
    cases h
    refine ⟨fun c hc => ?_, rfl⟩
    exact isKnown_of_readChain (fun c hc => absurd hc (Array.not_mem_empty c)) hchain c
      (Array.mem_toList_iff.mp hc)

/-! The section that is written. -/

/-- The clauses of the code being built are all of known kinds. -/
structure Known (t : ExceptionTable) : Prop where
  inherited : ∀ c ∈ t.inherited, c.IsKnown
  added : ∀ c ∈ t.added.toList, c.IsKnown

theorem forall₂_of_mapM {α β : Type} {f : α → Except Error β} {l : List α} {l' : List β}
    (h : l.mapM f = .ok l') : List.Forall₂ (fun a b => f a = .ok b) l l' := by
  induction l generalizing l' with
  | nil =>
    cases h
    exact .nil
  | cons a rest ih =>
    rw [List.mapM_cons] at h
    obtain ⟨b, hb, h⟩ := except_bind_ok.mp h
    obtain ⟨rest', hrest, h⟩ := except_bind_ok.mp h
    cases h
    exact .cons hb (ih hrest)

theorem exists_of_mem_right {α β : Type} {R : α → β → Prop} {l : List α} {l' : List β} {b : β}
    (h : List.Forall₂ R l l') (hb : b ∈ l') : ∃ a ∈ l, R a b := by
  induction h with
  | nil => exact absurd hb List.not_mem_nil
  | @cons a b' rest rest' hab _ ih =>
    rcases List.mem_cons.mp hb with rfl | hb
    · exact ⟨a, List.mem_cons_self, hab⟩
    · obtain ⟨a', ha', hab'⟩ := ih hb
      exact ⟨a', List.mem_cons_of_mem _ ha', hab'⟩

/-- Moving clauses keeps their kinds. -/
theorem isKnown_of_moved {offset : Nat} {clauses moved : List ExceptionClause}
    (h : List.Forall₂ (ExceptionClause.MovedBy offset) clauses moved)
    (hknown : ∀ c ∈ clauses, c.IsKnown) : ∀ c ∈ moved, c.IsKnown := by
  intro c' hc'
  obtain ⟨c, hc, hmoved⟩ := exists_of_mem_right h hc'
  unfold ExceptionClause.IsKnown
  rw [hmoved.flags]
  exact hknown c hc

/-- Bytes of the section with the given clauses; without clauses there is none. -/
def sectionLength (clauses : List ExceptionClause) : Nat :=
  if clauses.isEmpty then 0
  else SectionHeader.length + clauses.length * ExceptionClause.size .fat

/-- The section with the clauses; without clauses there is none. -/
def sectionOf (clauses : List ExceptionClause) : List UInt8 :=
  if clauses.isEmpty then []
  else LittleEndian.encode 4 ((4 + clauses.length * 24) * 0x100 + sectionKind) ++
    clauses.flatMap (·.encode)

theorem isEmpty_sectionOf (clauses : List ExceptionClause) :
    (sectionOf clauses).isEmpty = clauses.isEmpty := by
  unfold sectionOf
  cases clauses <;> rfl

theorem length_sectionOf (clauses : List ExceptionClause) :
    (sectionOf clauses).length = sectionLength clauses := by
  unfold sectionOf sectionLength
  split
  · rfl
  · rw [List.length_append, LittleEndian.length_encode, length_flatMap_encode]
    rfl

/-- The four bytes in front of a section that is written: a mark and the size. -/
theorem sectionHeader_bytes {size : Nat} (h : size ≤ maxSectionSize) :
    ∃ s0 s1 s2, LittleEndian.encode 4 (size * 0x100 + sectionKind) = [0x41, s0, s1, s2] ∧
      SectionHeader.ofBytes 0x41 s0 s1 s2 = ⟨true, .fat, size, false⟩ := by
  have hkind : UInt8.ofNat (size * 0x100 + sectionKind) = 0x41 := by
    apply UInt8.toNat_inj.mp
    rw [UInt8.toNat_ofNat']
    show (size * 256 + 65) % 256 = 65
    omega
  have hshift : (size * 0x100 + sectionKind) / 256 = size := by
    show (size * 256 + 65) / 256 = size
    omega
  refine ⟨UInt8.ofNat size, UInt8.ofNat (size / 256), UInt8.ofNat (size / 256 / 256), ?_, ?_⟩
  · show UInt8.ofNat (size * 0x100 + sectionKind) ::
      LittleEndian.encode 3 ((size * 0x100 + sectionKind) / 256) = _
    rw [hkind, hshift]
    rfl
  · have hsize : LittleEndian.decode (LittleEndian.encode 3 size) = size :=
      LittleEndian.decode_encode_of_lt (Nat.lt_of_le_of_lt h (by decide))
    show (⟨true, .fat, LittleEndian.decode (LittleEndian.encode 3 size), false⟩ : SectionHeader) = _
    rw [hsize]

/-- One fat section with the clauses is read as a whole chain, whatever follows. -/
theorem readChain_section {clauses : List ExceptionClause}
    (hsize : 4 + clauses.length * 24 ≤ maxSectionSize) (rest : List UInt8) :
    readChain (LittleEndian.encode 4 ((4 + clauses.length * 24) * 0x100 + sectionKind) ++
      (clauses.flatMap (·.encode) ++ rest)) #[] = .ok (clauses.map (·.known)).toArray := by
  obtain ⟨s0, s1, s2, hbytes, hheader⟩ := sectionHeader_bytes hsize
  have hread : (Step.collect clauses.length (read .fat)).outcome
      (Cursor.ofBytes (clauses.flatMap (·.encode) ++ rest)) = .ok (clauses.map (·.known)) := by
    have hreads : Reads (Step.collect clauses.length (read .fat)) (clauses.flatMap (·.encode))
        (clauses.map (·.known)) := Reads.collect fun c _ => reads_clause c
    exact hreads.outcome rest
  have hcount : (⟨true, .fat, 4 + clauses.length * 24, false⟩ : SectionHeader).clauseCount =
      clauses.length := by
    show (4 + clauses.length * 24 - 4) / 24 = clauses.length
    omega
  have hlong : hasAtLeast (4 + clauses.length * 24)
      (0x41 :: s0 :: s1 :: s2 :: (clauses.flatMap (·.encode) ++ rest)) = true := by
    rw [hasAtLeast_iff]
    simp only [List.length_cons, List.length_append, length_flatMap_encode]
    omega
  rw [hbytes, readChain.eq_def]
  simp only [List.cons_append, List.nil_append, hheader, hlong, hcount, hread]
  have hmin : ¬4 + clauses.length * 24 < SectionHeader.length := by
    show ¬4 + clauses.length * 24 < 4
    omega
  simp [hmin]

theorem isEmpty_of_sectionLength {clauses : List ExceptionClause} {sections : List UInt8}
    (h : sections.length = sectionLength clauses) : sections.isEmpty = clauses.isEmpty := by
  unfold sectionLength at h
  cases hclauses : clauses.isEmpty with
  | true =>
    rw [hclauses, if_pos rfl] at h
    exact List.isEmpty_iff_length_eq_zero.mpr h
  | false =>
    rw [hclauses, if_neg Bool.false_ne_true] at h
    cases sections with
    | nil =>
      rw [List.length_nil, SectionHeader.length] at h
      omega
    | cons _ _ => rfl

/-- A section is read back as its clauses, whatever follows. -/
theorem ofBytes_sectionOf_append {clauses : List ExceptionClause} (hne : clauses ≠ [])
    (hknown : ∀ c ∈ clauses, c.IsKnown) (hsize : 4 + clauses.length * 24 ≤ maxSectionSize)
    (rest : List UInt8) : ofBytes (sectionOf clauses ++ rest) = .ok ⟨clauses, #[]⟩ := by
  have hchain := readChain_section hsize rest
  rw [ExceptionClause.map_known hknown, ← List.append_assoc] at hchain
  unfold sectionOf
  rw [if_neg (by rwa [List.isEmpty_iff])]
  exact except_bind_ok.mpr ⟨clauses.toArray, hchain, rfl⟩

/-- A section without anything behind it, or no section. -/
theorem ofBytes_sectionOf {clauses : List ExceptionClause} (hknown : ∀ c ∈ clauses, c.IsKnown)
    (hsize : 4 + clauses.length * 24 ≤ maxSectionSize) :
    ofBytes (sectionOf clauses) = .ok ⟨clauses, #[]⟩ := by
  by_cases hne : clauses = []
  · rw [hne]
    exact ofBytes_nil
  · have h := ofBytes_sectionOf_append hne hknown hsize []
    rwa [List.append_nil] at h

/-- Moving keeps the number of clauses. -/
theorem clauseCount_eq {t : ExceptionTable} {delta : UInt32} {moved : List ExceptionClause}
    (h : t.inherited.mapM (·.shifted delta) = .ok moved) :
    t.clauseCount = (moved ++ t.added.toList).length := by
  rw [List.length_append, ← (forall₂_of_mapM h).length_eq, Array.length_toList]
  rfl

/-- The bytes of a table, if it has any, are the section with the moved clauses followed by
the added ones. -/
theorem encode_ok {t : ExceptionTable} {delta : UInt32} {bytes : List UInt8} :
    t.encode delta = .ok bytes ↔ ∃ moved, t.inherited.mapM (·.shifted delta) = .ok moved ∧
      4 + (moved ++ t.added.toList).length * 24 ≤ maxSectionSize ∧
      bytes = sectionOf (moved ++ t.added.toList) := by
  by_cases hempty : t.isEmpty = true
  · obtain ⟨inherited, added⟩ := t
    obtain ⟨hinherited, hadded⟩ := (Bool.and_eq_true _ _).mp hempty
    obtain rfl := List.isEmpty_iff.mp hinherited
    obtain rfl := Array.isEmpty_iff.mp hadded
    constructor
    · intro h
      cases h
      exact ⟨[], rfl, by decide, rfl⟩
    · rintro ⟨moved, hmoved, -, rfl⟩
      cases hmoved
      rfl
  have hne : ∀ {moved}, t.inherited.mapM (·.shifted delta) = .ok moved →
      ¬(moved ++ t.added.toList).isEmpty = true := by
    intro moved hmoved hnone
    rw [List.isEmpty_iff_length_eq_zero, ← clauseCount_eq hmoved] at hnone
    obtain ⟨hinherited, hadded⟩ := Nat.add_eq_zero_iff.mp hnone
    apply hempty
    unfold isEmpty
    rw [List.isEmpty_iff_length_eq_zero.mpr hinherited, Array.isEmpty_iff_size_eq_zero.mpr hadded]
    rfl
  unfold encode
  simp only [hempty, Bool.false_eq_true, if_false]
  split
  · next hlarge =>
    constructor
    · intro h
      cases h
    · rintro ⟨moved, hmoved, hsize, -⟩
      rw [← clauseCount_eq hmoved] at hsize
      exact absurd hsize (Nat.not_le_of_lt hlarge)
  · next hsize =>
    constructor
    · intro h
      obtain ⟨moved, hmoved, h⟩ := except_bind_ok.mp h
      cases h
      refine ⟨moved, hmoved, ?_, ?_⟩
      · rw [← clauseCount_eq hmoved]
        exact Nat.le_of_not_lt hsize
      · unfold sectionOf
        rw [if_neg (hne hmoved), ← clauseCount_eq hmoved]
        rfl
    · rintro ⟨moved, hmoved, -, rfl⟩
      refine except_bind_ok.mpr ⟨moved, hmoved, ?_⟩
      unfold sectionOf
      rw [if_neg (hne hmoved), ← clauseCount_eq hmoved]
      rfl

theorem movedBy_of_mapM {clauses moved : List ExceptionClause} {delta : UInt32}
    (h : clauses.mapM (·.shifted delta) = .ok moved) :
    List.Forall₂ (ExceptionClause.MovedBy delta.toNat) clauses moved :=
  (forall₂_of_mapM h).imp fun _ _ => ExceptionClause.movedBy_of_shifted

/-- All clauses that are written are of known kinds. -/
theorem Known.moved {t : ExceptionTable} (h : t.Known) {offset : Nat}
    {moved : List ExceptionClause}
    (hmoved : List.Forall₂ (ExceptionClause.MovedBy offset) t.inherited moved) :
    ∀ c ∈ moved ++ t.added.toList, c.IsKnown := by
  intro c hc
  rcases List.mem_append.mp hc with hc | hc
  · exact isKnown_of_moved hmoved h.inherited c hc
  · exact h.added c hc

/-- The section that is written is read back as the moved clauses followed by the added
ones. -/
theorem ofBytes_of_encode {t : ExceptionTable} {delta : UInt32} {bytes : List UInt8}
    (hknown : t.Known) (h : t.encode delta = .ok bytes) :
    ∃ moved, List.Forall₂ (ExceptionClause.MovedBy delta.toNat) t.inherited moved ∧
      (∀ c ∈ moved ++ t.added.toList, c.IsKnown) ∧
      bytes.length = sectionLength (moved ++ t.added.toList) ∧
      ofBytes bytes = .ok ⟨moved ++ t.added.toList, #[]⟩ := by
  obtain ⟨moved, hmapped, hsize, rfl⟩ := encode_ok.mp h
  have hmoved := movedBy_of_mapM hmapped
  have hall := hknown.moved hmoved
  exact ⟨moved, hmoved, hall, length_sectionOf _, ofBytes_sectionOf hall hsize⟩

end ExceptionTable

end CilInstrument
