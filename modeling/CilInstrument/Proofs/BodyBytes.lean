import CilInstrument.Body.MethodBody
import CilInstrument.Proofs.SectionBytes

/- Taking a body apart undoes putting it together. The flags of every header that is read
   are the flags of a fat header (`isFat_of_decompose`), and a fat header is read back as
   it was written, whatever follows (`ofBytes_toBytes`). With the sections of
   `SectionBytes` this gives the parts of a whole body (`decompose_fatBytes`), and says
   where each byte of it stands. -/
namespace CilInstrument

open Step

/-- The flags of a fat header: the twelve bits it has room for, and the format's tag. -/
structure HeaderFlags.IsFat (f : HeaderFlags) : Prop where
  masked : f.bits &&& HeaderFlags.mask = f.bits
  tag : f.bits.toNat % 4 = 3

namespace HeaderFlags

theorem toNat_mask (bits : UInt16) : (bits &&& mask).toNat = bits.toNat % 4096 := by
  rw [UInt16.toNat_and]
  exact Nat.and_two_pow_sub_one_eq_mod bits.toNat 12

theorem isFat_promoted : promoted.IsFat := ⟨by decide, by decide⟩

theorem or_and (a b m : UInt16) : (a ||| b) &&& m = (a &&& m) ||| (b &&& m) := by
  apply UInt16.toBitVec_inj.mp
  exact BitVec.and_or_distrib_right

/-- Announcing sections or not keeps the format. -/
theorem IsFat.setMoreSections {f : HeaderFlags} (h : f.IsFat) (on : Bool) :
    (f.setMoreSections on).IsFat := by
  obtain ⟨bits⟩ := f
  obtain ⟨hmasked, htag⟩ := h
  replace hmasked : bits &&& mask = bits := hmasked
  replace htag : bits.toNat % 2 ^ 2 = 3 := htag
  cases on with
  | true =>
    constructor
    · show (bits ||| moreSectionsBit) &&& mask = bits ||| moreSectionsBit
      rw [or_and, hmasked]
      rfl
    · show (bits ||| moreSectionsBit).toNat % 2 ^ 2 = 3
      rw [UInt16.toNat_or, Nat.or_mod_two_pow, htag]
      rfl
  | false =>
    constructor
    · show (bits &&& ~~~moreSectionsBit) &&& mask = bits &&& ~~~moreSectionsBit
      rw [UInt16.and_assoc, UInt16.and_comm _ mask, ← UInt16.and_assoc, hmasked]
    · show (bits &&& ~~~moreSectionsBit).toNat % 2 ^ 2 = 3
      rw [UInt16.toNat_and, Nat.and_mod_two_pow, htag]
      rfl

theorem moreSections_setMoreSections (f : HeaderFlags) (on : Bool) :
    (f.setMoreSections on).moreSections = on := by
  obtain ⟨bits⟩ := f
  cases on with
  | true =>
    have hbit : (bits ||| moreSectionsBit) &&& moreSectionsBit = moreSectionsBit := by
      apply UInt16.toNat_inj.mp
      rw [UInt16.toNat_and, UInt16.toNat_or]
      apply Nat.eq_of_testBit_eq
      intro i
      rw [Nat.testBit_and, Nat.testBit_or]
      cases moreSectionsBit.toNat.testBit i <;> simp
    show ((bits ||| moreSectionsBit) &&& moreSectionsBit != 0) = true
    rw [hbit]
    rfl
  | false =>
    have hbit : (bits &&& ~~~moreSectionsBit) &&& moreSectionsBit = 0 := by
      rw [UInt16.and_assoc]
      exact UInt16.and_zero
    show ((bits &&& ~~~moreSectionsBit) &&& moreSectionsBit != 0) = false
    rw [hbit]
    rfl

/-- All flags but the one that announces sections. -/
def others (f : HeaderFlags) : UInt16 := f.bits &&& ~~~moreSectionsBit

theorem others_setMoreSections (f : HeaderFlags) (on : Bool) :
    (f.setMoreSections on).others = f.others := by
  obtain ⟨bits⟩ := f
  cases on with
  | true =>
    show (bits ||| moreSectionsBit) &&& ~~~moreSectionsBit = bits &&& ~~~moreSectionsBit
    rw [or_and]
    exact UInt16.or_zero
  | false =>
    show (bits &&& ~~~moreSectionsBit) &&& ~~~moreSectionsBit = bits &&& ~~~moreSectionsBit
    rw [UInt16.and_assoc, UInt16.and_self]

end HeaderFlags

namespace MethodHeader

/-- A fat header is read back as it was written, and takes three words. -/
theorem ofBytes_toBytes {h : MethodHeader} (hfat : h.flags.IsFat) (rest : List UInt8) :
    ofBytes (h.toBytes ++ rest) = .ok h ∧ declaredWords (h.toBytes ++ rest) = sizeWords ∧
      (h.toBytes ++ rest).head?.bind HeaderFormat.ofFirstByte? = some .fat := by
  obtain ⟨⟨bits⟩, maxStack, codeSize, ⟨token⟩⟩ := h
  obtain ⟨hmasked, htag⟩ := hfat
  replace hmasked : bits &&& HeaderFlags.mask = bits := hmasked
  replace htag : bits.toNat % 4 = 3 := htag
  have hlt : bits.toNat < 4096 := by
    have h := HeaderFlags.toNat_mask bits
    rw [hmasked] at h
    omega
  -- the bits that are no flags hold the size
  have hword : sizeWords * 0x1000 + (bits &&& HeaderFlags.mask).toNat = 12288 + bits.toNat := by
    rw [hmasked]
    rfl
  have hwords : declaredWords (toBytes ⟨⟨bits⟩, maxStack, codeSize, ⟨token⟩⟩ ++ rest) = sizeWords := by
    show (UInt8.ofNat ((sizeWords * 0x1000 + (bits &&& HeaderFlags.mask).toNat) / 256)).toNat / 16 = 3
    rw [hword, UInt8.toNat_ofNat']
    omega
  refine ⟨?_, hwords, ?_⟩
  · have hflags : UInt16.ofNat (LittleEndian.decode (LittleEndian.encode 2
        (sizeWords * 0x1000 + (bits &&& HeaderFlags.mask).toNat))) &&& HeaderFlags.mask = bits := by
      have hfits : 12288 + bits.toNat < LittleEndian.capacity 2 := by
        show _ < 65536
        omega
      rw [hword, LittleEndian.decode_encode_of_lt hfits]
      apply UInt16.toNat_inj.mp
      rw [HeaderFlags.toNat_mask, UInt16.toNat_ofNat']
      omega
    have hmax : UInt16.ofNat (LittleEndian.decode (LittleEndian.encode 2 maxStack.toNat)) =
        maxStack := by
      rw [LittleEndian.decode_encode_of_lt maxStack.toNat_lt, UInt16.ofNat_toNat]
    have hword : ∀ v : UInt32,
        UInt32.ofNat (LittleEndian.decode (LittleEndian.encode 4 v.toNat)) = v := by
      intro v
      rw [LittleEndian.decode_encode_of_lt v.toNat_lt, UInt32.ofNat_toNat]
    show (if declaredWords (toBytes ⟨⟨bits⟩, maxStack, codeSize, ⟨token⟩⟩ ++ rest) < sizeWords then _
      else Except.ok (MethodHeader.mk
        ⟨UInt16.ofNat (LittleEndian.decode (LittleEndian.encode 2
          (sizeWords * 0x1000 + (bits &&& HeaderFlags.mask).toNat))) &&& HeaderFlags.mask⟩
        (UInt16.ofNat (LittleEndian.decode (LittleEndian.encode 2 maxStack.toNat)))
        (UInt32.ofNat (LittleEndian.decode (LittleEndian.encode 4 codeSize.toNat)))
        ⟨UInt32.ofNat (LittleEndian.decode (LittleEndian.encode 4 token.toNat))⟩)) = _
    rw [hwords, if_neg (Nat.lt_irrefl _), hflags, hmax, hword, hword]
  · show HeaderFormat.ofFirstByte?
      (UInt8.ofNat (sizeWords * 0x1000 + (bits &&& HeaderFlags.mask).toNat)) = some .fat
    have hmod : (UInt8.ofNat (12288 + bits.toNat)).toNat % 4 = 3 := by
      rw [UInt8.toNat_ofNat']
      omega
    unfold HeaderFormat.ofFirstByte?
    rw [hword, hmod]
    rfl

/-- A header that starts like a fat one is read with the flags of one. -/
theorem isFat_of_ofBytes {first : UInt8} {rest : List UInt8} {h : MethodHeader}
    (hformat : HeaderFormat.ofFirstByte? first = some .fat)
    (hread : ofBytes (first :: rest) = .ok h) : h.flags.IsFat := by
  have htag : first.toNat % 4 = 3 := by
    unfold HeaderFormat.ofFirstByte? at hformat
    split at hformat
    · cases hformat
    · assumption
    · cases hformat
  unfold ofBytes at hread
  split at hread
  · next f0 f1 _ _ _ _ _ _ _ _ _ _ _ heq =>
    obtain ⟨rfl, -⟩ := List.cons.inj heq
    split at hread
    · cases hread
    cases hread
    constructor
    · show (_ &&& HeaderFlags.mask) &&& HeaderFlags.mask = _ &&& HeaderFlags.mask
      rw [UInt16.and_assoc, UInt16.and_self]
    -- the two lowest bits of the flag word are those of the first byte
    · show (UInt16.ofNat (LittleEndian.decode [first, f1]) &&& HeaderFlags.mask).toNat % 4 = 3
      rw [HeaderFlags.toNat_mask, UInt16.toNat_ofNat']
      show (first.toNat + 256 * (f1.toNat + 256 * 0)) % 0x10000 % 4096 % 4 = 3
      omega
  · cases hread

end MethodHeader

namespace MethodBody

theorem decompose_of_fat {data : List UInt8}
    (h : data.head?.bind HeaderFormat.ofFirstByte? = some .fat) : decompose data = ofFat data := by
  cases data with
  | nil => cases h
  | cons first rest =>
    replace h : HeaderFormat.ofFirstByte? first = some .fat := h
    unfold decompose
    simp only [h]

/-- Whatever is taken apart has the flags of a fat header, and clauses of known kinds. -/
theorem isFat_of_decompose {data : List UInt8} {body : MethodBody}
    (h : decompose data = .ok body) :
    body.header.flags.IsFat ∧ body.exceptions.Known ∧ body.exceptions.added = #[] := by
  have hempty : ExceptionTable.empty.Known :=
    ⟨fun _ hc => absurd hc List.not_mem_nil, fun _ hc => absurd hc List.not_mem_nil⟩
  unfold decompose at h
  split at h
  · cases h
  next first rest =>
  split at h
  · unfold ofTiny at h
    split at h
    · cases h
    · cases h
      exact ⟨HeaderFlags.isFat_promoted, hempty, rfl⟩
  · next hformat =>
    unfold ofFat at h
    obtain ⟨header, hheader, h⟩ := except_bind_ok.mp h
    have hfat : header.flags.IsFat := MethodHeader.isFat_of_ofBytes hformat hheader
    simp only at h
    split at h
    · cases h
    split at h
    · cases h
      exact ⟨hfat, hempty, rfl⟩
    split at h
    · cases h
    obtain ⟨table, htable, h⟩ := except_bind_ok.mp h
    cases h
    obtain ⟨hinherited, hadded⟩ := ExceptionTable.isKnown_of_ofBytes htable
    refine ⟨hfat, ⟨hinherited, fun c hc => ?_⟩, hadded⟩
    rw [hadded] at hc
    exact absurd hc List.not_mem_nil
  · cases h

/-- The number of zeros between the code and the sections. -/
def gap (code sections : List UInt8) : Nat :=
  if sections.isEmpty then 0
  else align4 (MethodHeader.size + code.length) - (MethodHeader.size + code.length)

theorem gap_of_isEmpty {code sections : List UInt8} (h : sections.isEmpty = true) :
    gap code sections = 0 := if_pos h

/-- The zeros fill up to the place of the sections. -/
theorem add_gap {code sections : List UInt8} (h : ¬sections.isEmpty = true) :
    MethodHeader.size + code.length + gap code sections =
      align4 (MethodHeader.size + code.length) := by
  unfold gap align4
  rw [if_neg h]
  omega

theorem fatBytes_eq (header : MethodHeader) (code sections : List UInt8) :
    fatBytes header code sections =
      header.toBytes ++ (code ++ (List.replicate (gap code sections) 0 ++ sections)) := by
  have hfront : (header.toBytes ++ code).length = MethodHeader.size + code.length := by
    rw [List.length_append, MethodHeader.length_toBytes]
  unfold fatBytes gap
  simp only [hfront]
  by_cases hsections : sections.isEmpty = true
  · rw [if_pos hsections, if_pos hsections, List.isEmpty_iff.mp hsections]
    simp
  · rw [if_neg hsections, if_neg hsections]
    simp only [List.append_assoc]

theorem length_fatBytes (header : MethodHeader) (code sections : List UInt8) :
    (fatBytes header code sections).length =
      MethodHeader.size + code.length + gap code sections + sections.length := by
  rw [fatBytes_eq]
  simp only [List.length_append, MethodHeader.length_toBytes, List.length_replicate]
  omega

/-- Between the code and the sections there are only zeros. -/
theorem getElem?_fatBytes {header : MethodHeader} {code sections : List UInt8} {i : Nat}
    (hlow : MethodHeader.size + code.length ≤ i)
    (hhigh : i < MethodHeader.size + code.length + gap code sections) :
    (fatBytes header code sections)[i]? = some 0 := by
  rw [fatBytes_eq, ← List.append_assoc]
  have hfront : (header.toBytes ++ code).length = MethodHeader.size + code.length := by
    rw [List.length_append, MethodHeader.length_toBytes]
  rw [List.getElem?_append_right (by omega), hfront]
  have hlt : i - (MethodHeader.size + code.length) < gap code sections := by omega
  rw [List.getElem?_append_left (by rw [List.length_replicate]; exact hlt)]
  exact List.getElem?_replicate_of_lt hlt

/-- A fat body is taken apart into what it was put together from. -/
theorem decompose_fatBytes {header : MethodHeader} {code sections : List UInt8}
    {table : ExceptionTable} (hfat : header.flags.IsFat)
    (hsize : header.codeSize.toNat = code.length)
    (hmore : header.flags.moreSections = !sections.isEmpty)
    (htable : ExceptionTable.ofBytes sections = .ok table) :
    decompose (fatBytes header code sections) = .ok {
      format := .fat
      header
      code
      exceptions := table
      sectionOffset :=
        if sections.isEmpty then none else some (align4 (MethodHeader.size + code.length)) } := by
  have hlength := length_fatBytes header code sections
  have heq := fatBytes_eq header code sections
  generalize fatBytes header code sections = data at hlength heq ⊢
  obtain ⟨hheader, hwords, hformat⟩ :=
    MethodHeader.ofBytes_toBytes hfat (code ++ (List.replicate (gap code sections) 0 ++ sections))
  rw [← heq] at hheader hwords hformat
  have hstop : MethodHeader.declaredWords data * 4 + header.codeSize.toNat =
      MethodHeader.size + code.length := by
    rw [hwords, hsize]
    rfl
  have hcode : (data.drop (MethodHeader.declaredWords data * 4)).take header.codeSize.toNat =
      code := by
    rw [hwords, hsize, heq]
    show List.take code.length (List.drop MethodHeader.size _) = code
    rw [← MethodHeader.length_toBytes header, List.drop_left, List.take_left]
  rw [decompose_of_fat hformat]
  unfold ofFat
  refine except_bind_ok.mpr ⟨header, hheader, ?_⟩
  simp only [hstop, hcode]
  -- the code ends inside of the bytes
  rw [if_neg (by omega)]
  by_cases hsections : sections.isEmpty = true
  · rw [hmore, hsections]
    rw [List.isEmpty_iff.mp hsections, ExceptionTable.ofBytes_nil] at htable
    cases htable
    rfl
  · have hgap : MethodHeader.size + code.length + gap code sections =
        align4 (MethodHeader.size + code.length) := add_gap hsections
    rw [hmore, if_neg (by simp [hsections]), if_neg (by omega)]
    refine except_bind_ok.mpr ⟨table, ?_, ?_⟩
    · have hfront : (header.toBytes ++ (code ++ List.replicate (gap code sections) 0)).length =
          align4 (MethodHeader.size + code.length) := by
        simp only [List.length_append, MethodHeader.length_toBytes, List.length_replicate]
        omega
      rw [heq, ← List.append_assoc code, ← List.append_assoc, ← hfront, List.drop_left, htable]
    · rw [if_neg hsections]
      rfl

end MethodBody

end CilInstrument
