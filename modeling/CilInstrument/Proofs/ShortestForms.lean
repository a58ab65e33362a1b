import CilInstrument.Proofs.Recognition

/- Compressed integers, written and read back. An integer has a form in every width that can
   hold it; the form that is written is the one in the smallest width, and no other form of
   that length is there (`encode_of_form`). So what is written is read back from wherever it
   stands, nothing shorter is read as the same integer, and what was read is written again in
   no more bytes, and in the same bytes if they were as few as could be
   (`Reader.compressed_round_trip`). -/
namespace CilInstrument

open SignatureReader

/-! Shortest forms. -/

/-- The bytes are an integer, and no form of it has fewer. -/
structure ShortestForm (bytes : List UInt8) (n : Nat) : Prop where
  form : CompressedForm bytes n []
  shortest : ∀ {other}, CompressedForm other n [] → bytes.length ≤ other.length

theorem width_le_of_form {data rest : List UInt8} {n : Nat} (h : CompressedForm data n rest) :
    Compressed.width n + rest.length ≤ data.length := by
  unfold Compressed.width
  cases h with
  | one hn => exact Nat.le_of_eq (by rw [if_pos hn, List.length_cons, Nat.add_comm])
  | two hn =>
    rw [if_pos hn, List.length_cons, List.length_cons]
    split <;> omega
  | four hn =>
    simp only [List.length_cons]
    split
    · omega
    · split <;> omega

theorem form_encode {n : Nat} (h : n ≤ Compressed.max) (rest : List UInt8) :
    CompressedForm (Compressed.encode n ++ rest) n rest := by
  unfold Compressed.encode
  split
  · next hone => exact .one hone
  split
  · next htwo => exact .two htwo
  · rw [Nat.mod_eq_of_lt (Nat.lt_succ_of_le h)]
    exact .four h

theorem shortestForm_encode {n : Nat} (h : n ≤ Compressed.max) :
    ShortestForm (Compressed.encode n) n where
  form := by
    have hform := form_encode h []
    rwa [List.append_nil] at hform
  shortest := by
    intro other hother
    rw [Compressed.length_encode]
    exact width_le_of_form hother

/-- A form that takes no more bytes than it has to is the one that is written. -/
theorem encode_of_form {data rest : List UInt8} {n : Nat} (h : CompressedForm data n rest)
    (hlength : data.length ≤ Compressed.width n + rest.length) :
    data = Compressed.encode n ++ rest := by
  unfold Compressed.width at hlength
  unfold Compressed.encode
  cases h with
  | one hn =>
    rw [if_pos hn]
    rfl
  | two hn =>
    have hone : ¬n < 0x80 := by
      intro hone
      simp only [List.length_cons, if_pos hone] at hlength
      omega
    rw [if_neg hone, if_pos hn]
    rfl
  | four hn =>
    have htwo : ¬n < 0x4000 := by
      intro htwo
      simp only [List.length_cons, if_pos htwo] at hlength
      split at hlength <;> omega
    rw [if_neg (by omega), if_neg htwo, Nat.mod_eq_of_lt (Nat.lt_succ_of_le hn)]
    rfl

/-! Reading and writing. -/

/-- Behind `before` and in front of `rest`. -/
def Cursor.between (before rest : List UInt8) : Cursor where
  data := before ++ rest
  pos := before.length
  rest := rest
  pos_le := by simp
  rest_eq := by simp

namespace Reader

open Compressed

/-- All of the bytes are read, as that integer. -/
def ReadsBack (bytes : List UInt8) (n : Nat) : Prop :=
  ∃ c, compressed.run (Cursor.ofBytes bytes) = .ok n c ∧ c.rest = []

theorem readsBack_iff {bytes : List UInt8} {n : Nat} :
    ReadsBack bytes n ↔ CompressedForm bytes n [] := by
  constructor
  · rintro ⟨c, hread, hrest⟩
    have hform := (compressed_ok.mp hread).2
    rwa [hrest] at hform
  · intro h
    obtain ⟨c, hdata, hrest⟩ := (Cursor.ofBytes bytes).exists_behind (List.nil_suffix)
    exact ⟨c, compressed_ok.mpr ⟨hdata, by rw [hrest]; exact h⟩, hrest⟩

/-- What an integer is read from ends where the reader stops. -/
theorem pos_of_compressed {c c' : Cursor} {n : Nat} {bytes : List UInt8}
    (h : compressed.run c = .ok n c') (hbytes : c.rest = bytes ++ c'.rest) :
    c'.pos = c.pos + bytes.length := by
  have hlength := c.length_rest
  have hlength' := c'.length_rest
  have hle := c.pos_le
  have hle' := c'.pos_le
  rw [hbytes, List.length_append] at hlength
  rw [(compressed_ok.mp h).1] at hlength' hle'
  omega

/-- Every integer that has a form is read back from where it was written, whatever stands on
either side, and its form is the shortest that is read as it. Every integer that is read is
written again in at most the bytes that it was read from, and in just these if no fewer are read
as it. -/
theorem compressed_round_trip :
    (∀ n ≤ Compressed.max, ∀ before behind, ∃ c,
      compressed.run (Cursor.between before (encode n ++ behind)) = .ok n c ∧
        c.pos = before.length + width n ∧ c.rest = behind) ∧
    (∀ n ≤ Compressed.max, ReadsBack (encode n) n ∧ (encode n).length = width n ∧
      ∀ bytes, ReadsBack bytes n → width n ≤ bytes.length) ∧
    ∀ c n c', compressed.run c = .ok n c' →
      ∃ bytes, c.rest = bytes ++ c'.rest ∧ c'.pos = c.pos + bytes.length ∧ n ≤ Compressed.max ∧
        (encode n).length ≤ bytes.length ∧
        ((∀ other, ReadsBack other n → bytes.length ≤ other.length) → encode n = bytes) := by
  refine ⟨?_, ?_, ?_⟩
  · intro n hn before behind
    obtain ⟨c, hdata, hrest⟩ := (Cursor.between before (encode n ++ behind)).exists_behind
      (List.suffix_append (encode n) behind)
    have hread : compressed.run (Cursor.between before (encode n ++ behind)) = .ok n c :=
      compressed_ok.mpr ⟨hdata, by rw [hrest]; exact form_encode hn behind⟩
    refine ⟨c, hread, ?_, hrest⟩
    have hfront : (Cursor.between before (encode n ++ behind)).rest = encode n ++ c.rest := by
      rw [hrest]
      rfl
    rw [pos_of_compressed hread hfront, length_encode]
    rfl
  · intro n hn
    refine ⟨readsBack_iff.mpr (shortestForm_encode hn).form, length_encode n, ?_⟩
    intro bytes hbytes
    exact width_le_of_form (readsBack_iff.mp hbytes)
  · intro c n c' hread
    have hform := (compressed_ok.mp hread).2
    obtain ⟨bytes, hbytes, hother⟩ := carries_compressed hform
    have hown : CompressedForm bytes n [] := by
      have hshort := hother []
      rwa [List.append_nil] at hshort
    refine ⟨bytes, hbytes, pos_of_compressed hread hbytes, hform.le_max, ?_, ?_⟩
    · rw [length_encode]
      exact width_le_of_form hown
    · intro hleast
      have hlength := hleast (encode n) (readsBack_iff.mpr (shortestForm_encode hform.le_max).form)
      rw [length_encode] at hlength
      have hsame := encode_of_form hown hlength
      rw [List.append_nil] at hsame
      exact hsame.symm

/-- An integer in four bytes between two others, and one in two bytes that one would do for. -/
theorem compressed_round_trip_wide :
    0x4000 ≤ Compressed.max ∧
    (∃ c, compressed.run (Cursor.between [0x07] (encode 0x4000 ++ [0x08])) = .ok 0x4000 c ∧
      c.pos = 5 ∧ c.rest = [0x08]) ∧
    ∃ c bytes, compressed.run (Cursor.ofBytes [0x80, 0x02]) = .ok 2 c ∧
      [0x80, 0x02] = bytes ++ c.rest ∧ (encode 2).length ≤ bytes.length := by
  obtain ⟨hwritten, -, hread⟩ := compressed_round_trip
  refine ⟨by decide, hwritten 0x4000 (by decide) [0x07] [0x08], ?_⟩
  obtain ⟨bytes, hbytes, -, -, hle, -⟩ :=
    hread (Cursor.ofBytes [0x80, 0x02]) 2 ⟨[0x80, 0x02], 2, [], by decide, rfl⟩ rfl
  exact ⟨_, bytes, rfl, hbytes, hle⟩

end Reader

end CilInstrument
