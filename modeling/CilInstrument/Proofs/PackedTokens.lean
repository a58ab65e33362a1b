import CilInstrument.Proofs.Recognition

/- Tokens out of packed integers. Everything above the tag is merged into the table of the
   tag, whatever its size. A packed integer has room for 27 bits of a row and a token for 24,
   so the upper three bits of a row that is too large go into the table: a token has the table
   of the tag and the whole row exactly if the row fits, and only among rows that fit does the
   token tell from which integer it is (`Reader.compressedToken_unpacked`). -/
namespace CilInstrument

open SignatureReader Step

/-! A table and a row that are merged. -/

namespace Token

variable {table row : Nat}

/-- The bits of the row above the lowest 24 go into the table, -/
theorem table_merged (htable : table < 0x100) (hrow : row < UInt32.size) :
    (Token.mk (UInt32.ofNat (table * 0x1000000) ||| UInt32.ofNat row)).table =
      table ||| row / 0x1000000 := by
  show (_ : UInt32).toNat / 2 ^ 24 = table ||| row / 2 ^ 24
  rw [toNat_merged htable hrow, ← Nat.shiftRight_eq_div_pow, ← Nat.shiftRight_eq_div_pow,
    Nat.shiftRight_or_distrib, Nat.shiftRight_eq_div_pow (table * 0x1000000)]
  exact congrArg (· ||| row >>> 24) (Nat.mul_div_cancel table (by decide))

/-- and the lowest 24 are the row. -/
theorem row_merged (htable : table < 0x100) (hrow : row < UInt32.size) :
    (Token.mk (UInt32.ofNat (table * 0x1000000) ||| UInt32.ofNat row)).row = row % 0x1000000 := by
  show (_ : UInt32).toNat % 2 ^ 24 = row % 2 ^ 24
  have htableBits : table * 0x1000000 % 2 ^ 24 = 0 := Nat.mul_mod_left table (2 ^ 24)
  rw [toNat_merged htable hrow, Nat.or_mod_two_pow, htableBits, Nat.zero_or]

end Token

/-- Different tags name different tables. -/
theorem packedTables_inj {tag tag' table : Nat} (h : packedTables[tag]? = some table)
    (h' : packedTables[tag']? = some table) : tag = tag' :=
  (List.getElem?_inj (table_lt_of_packed h).1 (by decide)).mp (h.trans h'.symm)

/-! Reading. -/

namespace Reader

variable {c c' : Cursor} {n : Nat}

theorem compressed_le_max (h : compressed.run c = .ok n c') : n ≤ Compressed.max :=
  (compressed_ok.mp h).2.le_max

/-- The row of a packed integer has 27 bits at most. -/
theorem row_lt_of_compressed (h : compressed.run c = .ok n c') : n / 4 < UInt32.size := by
  have hle := compressed_le_max h
  unfold Compressed.max at hle
  unfold UInt32.size
  omega

theorem run_compressedToken_of_none (h : compressed.run c = .ok n c')
    (hnone : packedTables[n % 4]? = none) :
    compressedToken.run c = .error (.malformed (.compressedTokenTag n)) c' := by
  have htag : Compressed.tokenTable? n = none := by
    rw [tokenTable?_eq, hnone]
    rfl
  unfold compressedToken
  simp only [EStateM.run_bind, h, htag]
  rfl

theorem run_compressedToken_of_some {table : Nat} (h : compressed.run c = .ok n c')
    (htable : packedTables[n % 4]? = some table) :
    compressedToken.run c =
      .ok ⟨UInt32.ofNat (table * 0x1000000) ||| UInt32.ofNat (n / 4)⟩ c' := by
  have htag : Compressed.tokenTable? n = some (UInt32.ofNat (table * 0x1000000)) := by
    rw [tokenTable?_eq, htable]
    rfl
  unfold compressedToken
  simp only [EStateM.run_bind, h, htag]
  rfl

/-- What the token that is read says of the integer. -/
theorem token_of_compressed {t : Token} (h : compressed.run c = .ok n c')
    (htoken : compressedToken.run c = .ok t c') :
    ∃ table, packedTables[n % 4]? = some table ∧ t.table = table ||| n / 4 / 0x1000000 ∧
      t.row = n / 4 % 0x1000000 := by
  cases htable : packedTables[n % 4]? with
  | none =>
    rw [run_compressedToken_of_none h htable] at htoken
    cases htoken
  | some table =>
    rw [run_compressedToken_of_some h htable] at htoken
    cases htoken
    have hlt := (table_lt_of_packed htable).2
    have hrow := row_lt_of_compressed h
    exact ⟨table, rfl, Token.table_merged hlt hrow, Token.row_merged hlt hrow⟩

/-- With a row that fits, the merging leaves the table as it is. -/
theorem merged_of_fits {table : Nat} (hfits : n / 4 < 0x1000000) :
    table ||| n / 4 / 0x1000000 = table := by
  rw [Nat.div_eq_of_lt hfits, Nat.or_zero]

/-- A token is read from every packed integer whose tag names a table. Its row is what is left
of the row by 24 bits, and the bits above are merged into its table; so it has the table of the
tag and the row of the integer exactly if the row fits, and no other integer whose row fits
gives the same token. -/
theorem compressedToken_unpacked (hread : compressed.run c = .ok n c') :
    n ≤ Compressed.max ∧
      (packedTables[n % 4]? = none →
        compressedToken.run c = .error (.malformed (.compressedTokenTag n)) c') ∧
      ∀ table, packedTables[n % 4]? = some table →
        ∃ t, compressedToken.run c = .ok t c' ∧
          t.table = table ||| n / 4 / 0x1000000 ∧ t.row = n / 4 % 0x1000000 ∧
          (t.table = table ∧ t.row = n / 4 ↔ n / 4 < 0x1000000) ∧
          ∀ d d' k, compressed.run d = .ok k d' → compressedToken.run d = .ok t d' →
            n / 4 < 0x1000000 → (k = n ↔ k / 4 < 0x1000000) := by
  refine ⟨compressed_le_max hread, run_compressedToken_of_none hread, fun table htable => ?_⟩
  have hrun := run_compressedToken_of_some hread htable
  obtain ⟨_, hsome, htokenTable, htokenRow⟩ := token_of_compressed hread hrun
  obtain rfl : table = _ := Option.some.inj (htable.symm.trans hsome)
  refine ⟨_, hrun, htokenTable, htokenRow, ?_, ?_⟩
  · constructor
    · rintro ⟨-, hrow⟩
      exact hrow ▸ Token.row_lt _
    · intro hfits
      exact ⟨htokenTable.trans (merged_of_fits hfits), htokenRow.trans (Nat.mod_eq_of_lt hfits)⟩
  · intro d d' k hk htoken hfits
    constructor
    · rintro rfl
      exact hfits
    · intro hkfits
      obtain ⟨table', htable', htokenTable', htokenRow'⟩ := token_of_compressed hk htoken
      rw [merged_of_fits hfits] at htokenTable
      rw [merged_of_fits hkfits] at htokenTable'
      obtain rfl : table = table' := htokenTable.symm.trans htokenTable'
      have htag : n % 4 = k % 4 := packedTables_inj htable htable'
      rw [Nat.mod_eq_of_lt hfits] at htokenRow
      rw [Nat.mod_eq_of_lt hkfits] at htokenRow'
      omega

/-- Row 3 behind the tag of type specifications, in a longer form than it needs. -/
theorem compressedToken_unpacked_typeSpec :
    ∃ t c', compressedToken.run (Cursor.ofBytes [0xC0, 0x00, 0x00, 0x0E]) = .ok t c' ∧
      t.table = 0x1B ∧ t.row = 3 := by
  have hread : compressed.run (Cursor.ofBytes [0xC0, 0x00, 0x00, 0x0E]) =
      .ok (3 * 4 + 2) ⟨[0xC0, 0x00, 0x00, 0x0E], 4, [], Nat.le_refl 4, rfl⟩ := rfl
  obtain ⟨-, -, htoken⟩ := compressedToken_unpacked hread
  obtain ⟨t, hrun, -, -, hpacked, -⟩ := htoken 0x1B rfl
  obtain ⟨htable, hrow⟩ := hpacked.mpr (by decide)
  exact ⟨t, _, hrun, htable, hrow⟩

/-- The tag of type definitions with row 2^24 gives a token of none of the three tables, and
so does the tag of type references with row 2^25: it is the same token. -/
theorem compressedToken_of_wideRow :
    compressed.outcome (Cursor.ofBytes [0xC4, 0x00, 0x00, 0x00]) = .ok (0x1000000 * 4) ∧
      compressed.outcome (Cursor.ofBytes [0xC8, 0x00, 0x00, 0x01]) = .ok (0x2000000 * 4 + 1) ∧
      compressedToken.outcome (Cursor.ofBytes [0xC4, 0x00, 0x00, 0x00]) = .ok ⟨0x03000000⟩ ∧
      compressedToken.outcome (Cursor.ofBytes [0xC8, 0x00, 0x00, 0x01]) = .ok ⟨0x03000000⟩ ∧
      Token.table ⟨0x03000000⟩ ∉ packedTables := by
  exact ⟨rfl, rfl, rfl, rfl, by decide⟩

end Reader

end CilInstrument
