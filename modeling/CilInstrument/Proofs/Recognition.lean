import CilInstrument.Proofs.SignatureForms
import CilInstrument.Proofs.StepRuns

/- Readers that recognize a form. `Recognizes` says of a reader on a level that it goes
   through exactly on the bytes that begin with the form, gives its value and stops behind
   it on the same level. Putting readers together keeps it, so the grammar of a reader is
   read off its program. Here that is done for the plain reads: bytes, integers in their
   three widths and packed tokens, with all liberties. -/
namespace CilInstrument

namespace Cursor

theorem eq_of_rest {c c' : Cursor} (hdata : c.data = c'.data) (hrest : c.rest = c'.rest) :
    c = c' := by
  have hlength := c.length_rest
  have hlength' := c'.length_rest
  have hpos : c.pos = c'.pos := by
    have hle := c.pos_le
    have hle' := c'.pos_le
    rw [hrest, hdata] at hlength
    rw [hdata] at hle
    omega
  cases c
  cases c'
  cases hdata
  cases hrest
  cases hpos
  rfl

/-- A cursor can be moved to every rest of what is left. -/
theorem exists_behind (c : Cursor) {rest : List UInt8} (h : rest <:+ c.rest) :
    ∃ c' : Cursor, c'.data = c.data ∧ c'.rest = rest := by
  obtain ⟨front, hfront⟩ := h
  have hle : front.length ≤ c.rest.length := by
    rw [← hfront, List.length_append]
    exact Nat.le_add_right _ _
  refine ⟨c.skip front.length hle, rfl, ?_⟩
  rw [skip_rest, ← hfront, List.drop_left]

/-- The bytes since an earlier position are those that are gone. -/
theorem bytesSince_of_rest {c start : Cursor} (hdata : c.data = start.data) {front : List UInt8}
    (hrest : start.rest = front ++ c.rest) : c.bytesSince start = front := by
  have hlength := c.length_rest
  have hlength' := start.length_rest
  have hle := c.pos_le
  have hle' := start.pos_le
  rw [hrest, List.length_append, ← hdata] at hlength'
  have hpos : c.pos - start.pos = front.length := by
    rw [← hdata] at hle'
    omega
  unfold bytesSince
  rw [hpos, hrest, List.take_left]

/-- The bytes since an earlier position and those that are left are what was left there. -/
theorem rest_eq_of_suffix {c start : Cursor} (hdata : c.data = start.data)
    (h : c.rest <:+ start.rest) : start.rest = c.bytesSince start ++ c.rest := by
  obtain ⟨front, hfront⟩ := h
  rw [bytesSince_of_rest hdata hfront.symm, hfront]

end Cursor

namespace SignatureReader

open Step

variable {α β : Type} {level : Nat}

/-- On this level the reader gives what the form says, where it says it. -/
structure Recognizes (read : SignatureReader α) (level : Nat) (F : Form α) : Prop where
  suffix : ∀ {data a rest}, F data a rest → rest <:+ data
  run_ok : ∀ {c a s}, read.run ⟨c, level⟩ = .ok a s ↔
    ∃ c', s = ⟨c', level⟩ ∧ c'.data = c.data ∧ F c.rest a c'.rest

namespace Recognizes

variable {read : SignatureReader α} {F F' : Form α}

theorem congr (h : Recognizes read level F) (hF : ∀ data a rest, F data a rest ↔ F' data a rest) :
    Recognizes read level F' where
  suffix := fun hform => h.suffix ((hF _ _ _).mpr hform)
  run_ok := by
    intro c a s
    rw [h.run_ok]
    simp only [hF]

theorem pure (a : α) : Recognizes (pure a) level fun data b rest => b = a ∧ rest = data where
  suffix := by
    rintro data b rest ⟨-, rfl⟩
    exact List.suffix_rfl
  run_ok := by
    intro c b s
    constructor
    · intro h
      cases h
      exact ⟨c, rfl, rfl, rfl, rfl⟩
    · rintro ⟨c', rfl, hdata, rfl, hrest⟩
      rw [Cursor.eq_of_rest hdata hrest]
      rfl

theorem throw (e : Error) : Recognizes (throw e : SignatureReader α) level fun _ _ _ => False where
  suffix := fun h => h.elim
  run_ok := by
    intro c a s
    constructor
    · intro h
      cases h
    · rintro ⟨_, _, _, h⟩
      exact h.elim

theorem bind {f : α → SignatureReader β} {G : α → Form β} (h : Recognizes read level F)
    (hf : ∀ a, Recognizes (f a) level (G a)) :
    Recognizes (read >>= f) level fun data b rest => ∃ a mid, F data a mid ∧ G a mid b rest where
  suffix := by
    rintro data b rest ⟨a, mid, hfirst, hsecond⟩
    exact ((hf a).suffix hsecond).trans (h.suffix hfirst)
  run_ok := by
    intro c b s
    rw [run_bind_ok]
    constructor
    · rintro ⟨a, t, hfirst, hsecond⟩
      obtain ⟨c₁, rfl, hdata₁, hform₁⟩ := h.run_ok.mp hfirst
      obtain ⟨c₂, rfl, hdata₂, hform₂⟩ := (hf a).run_ok.mp hsecond
      exact ⟨c₂, rfl, hdata₂.trans hdata₁, a, c₁.rest, hform₁, hform₂⟩
    · rintro ⟨c₂, rfl, hdata, a, mid, hform₁, hform₂⟩
      obtain ⟨c₁, hdata₁, rfl⟩ := c.exists_behind (h.suffix hform₁)
      exact ⟨a, ⟨c₁, level⟩, h.run_ok.mpr ⟨c₁, rfl, hdata₁, hform₁⟩,
        (hf a).run_ok.mpr ⟨c₂, rfl, hdata.trans hdata₁.symm, hform₂⟩⟩

/-- What is read is turned into something else. -/
theorem map (h : Recognizes read level F) (f : α → β) :
    Recognizes (do return f (← read)) level (F.map f) :=
  (h.bind fun a => .pure (f a)).congr fun data b rest => by
    constructor
    · rintro ⟨a, mid, hform, rfl, rfl⟩
      exact ⟨a, hform, rfl⟩
    · rintro ⟨a, hform, rfl⟩
      exact ⟨a, rest, hform, rfl, rfl⟩

theorem discard (h : Recognizes read level F) :
    Recognizes (discard read) level fun data _ rest => ∃ a, F data a rest where
  suffix := fun ⟨_, hform⟩ => h.suffix hform
  run_ok := by
    intro c u s
    rw [run_discard]
    constructor
    · intro hrun
      cases hread : read.run ⟨c, level⟩ with
      | ok a t =>
        rw [hread] at hrun
        cases hrun
        obtain ⟨c', rfl, hdata, hform⟩ := h.run_ok.mp hread
        exact ⟨c', rfl, hdata, a, hform⟩
      | error e t =>
        rw [hread] at hrun
        cases hrun
    · rintro ⟨c', rfl, hdata, a, hform⟩
      rw [h.run_ok.mpr ⟨c', rfl, hdata, hform⟩]

theorem ite {p : Prop} [Decidable p] {read' : SignatureReader α}
    (h : p → Recognizes read level F) (h' : ¬p → Recognizes read' level F') :
    Recognizes (if p then read else read') level
      fun data a rest => if p then F data a rest else F' data a rest := by
  by_cases hp : p
  · simp only [hp, if_true]
    exact h hp
  · simp only [hp, if_false]
    exact h' hp

/-- A choice between two readers, with the same to do behind both. -/
theorem ite_bind {p : Prop} [Decidable p] {read' : SignatureReader α}
    {f : α → SignatureReader β} {G : α → Form β}
    (h : Recognizes (if p then read else read') level F)
    (hf : ∀ a, Recognizes (f a) level (G a)) :
    Recognizes (if p then read >>= f else read' >>= f) level
      fun data b rest => ∃ a mid, F data a mid ∧ G a mid b rest := by
  by_cases hp : p
  · simp only [hp, if_true] at h ⊢
    exact h.bind hf
  · simp only [hp, if_false] at h ⊢
    exact h.bind hf

end Recognizes

/-! Plain reads. -/

section
variable {read : Reader α} {c c' : Cursor} {a : α} {e : Error}

theorem run_ofReader_of_ok (h : read.run c = .ok a c') :
    (ofReader read).run ⟨c, level⟩ = .ok a ⟨c', level⟩ := by
  show ofReader read ⟨c, level⟩ = _
  unfold ofReader
  dsimp only
  rw [show read c = _ from h]

theorem run_ofReader_of_error (h : read.run c = .error e c') :
    (ofReader read).run ⟨c, level⟩ = .error e ⟨c', level⟩ := by
  show ofReader read ⟨c, level⟩ = _
  unfold ofReader
  dsimp only
  rw [show read c = _ from h]

end

theorem ofReader_bind (read : Reader α) (f : α → Reader β) :
    ofReader (read >>= f) = ofReader read >>= fun a => ofReader (f a) := by
  funext ⟨c, level⟩
  show (ofReader (read >>= f)).run ⟨c, level⟩ =
    (ofReader read >>= fun a => ofReader (f a)).run ⟨c, level⟩
  have hbind : (read >>= f).run c = _ := EStateM.run_bind read f
  rw [EStateM.run_bind]
  cases hread : read.run c with
  | ok a c' =>
    rw [hread] at hbind
    rw [run_ofReader_of_ok hread]
    dsimp only at hbind ⊢
    cases hf : (f a).run c' with
    | ok b c'' => rw [run_ofReader_of_ok hf, run_ofReader_of_ok (hbind.trans hf)]
    | error e c'' => rw [run_ofReader_of_error hf, run_ofReader_of_error (hbind.trans hf)]
  | error e c' =>
    rw [hread] at hbind
    rw [run_ofReader_of_error hread, run_ofReader_of_error hbind]

theorem ofReader_pure (a : α) : ofReader (pure a) = pure a := rfl

theorem ofReader_throw (e : Error) : ofReader (throw e : Reader α) = throw e := rfl

theorem ofReader_ite {p : Prop} [Decidable p] (read read' : Reader α) :
    ofReader (if p then read else read') = if p then ofReader read else ofReader read' := by
  split <;> rfl

theorem recognizes_ofReader {read : Reader α} {F : Form α}
    (hsuffix : ∀ {data a rest}, F data a rest → rest <:+ data)
    (hrun : ∀ {c a c'}, read.run c = .ok a c' ↔ c'.data = c.data ∧ F c.rest a c'.rest) :
    Recognizes (ofReader read) level F where
  suffix := hsuffix
  run_ok := by
    intro c a s
    constructor
    · intro h
      cases hok : read.run c with
      | ok b c' =>
        rw [run_ofReader_of_ok hok] at h
        cases h
        exact ⟨c', rfl, hrun.mp hok⟩
      | error e c' =>
        rw [run_ofReader_of_error hok] at h
        cases h
    · rintro ⟨c', rfl, hform⟩
      exact run_ofReader_of_ok (hrun.mpr hform)

/-- What is recognized on a level is read without one, too. -/
theorem reader_ok_of_recognizes {read : Reader α} {F : Form α}
    (h : Recognizes (ofReader read) level F) {c c' : Cursor} {a : α} :
    read.run c = .ok a c' ↔ c'.data = c.data ∧ F c.rest a c'.rest := by
  constructor
  · intro hok
    obtain ⟨_, heq, hform⟩ := h.run_ok.mp (run_ofReader_of_ok hok)
    cases heq
    exact hform
  · intro hform
    have hok := h.run_ok.mpr ⟨c', rfl, hform⟩
    cases hread : read.run c with
    | ok b c₁ =>
      rw [run_ofReader_of_ok hread] at hok
      cases hok
      rfl
    | error e c₁ =>
      rw [run_ofReader_of_error hread] at hok
      cases hok

theorem recognizes_byte :
    Recognizes (ofReader Reader.byte) level fun data b rest => data = b :: rest := by
  refine recognizes_ofReader ?_ ?_
  · rintro data b rest rfl
    exact List.suffix_cons b rest
  · intro c b c'
    show Reader.byte c = _ ↔ _
    unfold Reader.byte
    split
    · next hrest =>
      rw [hrest]
      simp
    · next first rest hrest =>
      constructor
      · intro h
        cases h
        refine ⟨rfl, hrest.trans (congrArg (b :: ·) ?_)⟩
        rw [Cursor.skip_rest, hrest]
        rfl
      · rintro ⟨hdata, hform⟩
        rw [hrest] at hform
        cases hform
        rw [EStateM.Result.ok.injEq]
        refine ⟨rfl, Cursor.eq_of_rest hdata.symm ?_⟩
        rw [Cursor.skip_rest, hrest]
        rfl

theorem recognizes_peek :
    Recognizes (ofReader Reader.peek) level
      fun data b rest => data.head? = some b ∧ rest = data := by
  refine recognizes_ofReader ?_ ?_
  · rintro data b rest ⟨-, rfl⟩
    exact List.suffix_rfl
  · intro c b c'
    show Reader.peek c = _ ↔ _
    unfold Reader.peek
    split
    · next hrest =>
      rw [hrest]
      simp
    · next first rest hrest =>
      rw [hrest]
      constructor
      · intro h
        cases h
        exact ⟨rfl, rfl, hrest⟩
      · rintro ⟨hdata, hhead, hform⟩
        cases hhead
        rw [Cursor.eq_of_rest hdata.symm (hrest.trans hform.symm)]

theorem recognizes_hasMore :
    Recognizes (ofReader Reader.hasMore) level
      fun data more rest => more = !data.isEmpty ∧ rest = data := by
  refine recognizes_ofReader ?_ ?_
  · rintro data b rest ⟨-, rfl⟩
    exact List.suffix_rfl
  · intro c b c'
    constructor
    · intro h
      cases h
      exact ⟨rfl, rfl, rfl⟩
    · rintro ⟨hdata, rfl, hrest⟩
      rw [Cursor.eq_of_rest hdata hrest]
      rfl

theorem recognizes_bytes (n : Nat) :
    Recognizes (ofReader (Reader.bytes n)) level
      fun data front rest => data = front ++ rest ∧ front.length = n := by
  refine recognizes_ofReader ?_ ?_
  · rintro data front rest ⟨rfl, -⟩
    exact List.suffix_append front rest
  · intro c front c'
    show Reader.bytes n c = _ ↔ _
    unfold Reader.bytes
    split
    · next hlength =>
      constructor
      · intro h
        cases h
        exact ⟨rfl, (List.take_append_drop _ _).symm, hlength⟩
      · rintro ⟨hdata, hrest, hfront⟩
        have htake : c.rest.take n = front := by rw [hrest, ← hfront, List.take_left]
        rw [EStateM.Result.ok.injEq]
        refine ⟨htake, Cursor.eq_of_rest hdata.symm ?_⟩
        rw [Cursor.skip_rest, hrest, ← hfront, List.drop_left]
    · next hlength =>
      constructor
      · intro h
        cases h
      · rintro ⟨-, hrest, hfront⟩
        refine absurd ?_ hlength
        rw [hrest, ← hfront, List.take_left]

theorem ofReader_discard (read : Reader α) :
    ofReader (discard read) = (discard (ofReader read) : SignatureReader PUnit) := by
  funext ⟨c, level⟩
  show (ofReader (discard read)).run ⟨c, level⟩ =
    (discard (ofReader read) : SignatureReader PUnit).run ⟨c, level⟩
  have hdiscard := run_discard read c
  rw [run_discard]
  cases hread : read.run c with
  | ok a c' =>
    rw [hread] at hdiscard
    rw [run_ofReader_of_ok hread, run_ofReader_of_ok hdiscard]
  | error e c' =>
    rw [hread] at hdiscard
    rw [run_ofReader_of_error hread, run_ofReader_of_error hdiscard]

theorem recognizes_advance :
    Recognizes (ofReader (Reader.advance 1)) level fun data _ rest => ∃ b, data = b :: rest := by
  unfold Reader.advance
  rw [ofReader_discard]
  refine (recognizes_bytes 1).discard.congr fun data _ rest => ?_
  constructor
  · rintro ⟨front, rfl, hlength⟩
    obtain ⟨b, rfl⟩ := List.length_eq_one_iff.mp hlength
    exact ⟨b, rfl⟩
  · rintro ⟨b, rfl⟩
    exact ⟨[b], rfl, rfl⟩

/-- An integer takes its width from its first byte. -/
theorem recognizes_compressed : Recognizes (ofReader Reader.compressed) level CompressedForm := by
  unfold Reader.compressed
  simp only [ofReader_bind, ofReader_ite, ofReader_pure, ofReader_throw]
  refine (recognizes_byte.bind fun first => .ite (fun _ => .pure _) fun _ =>
    .ite (fun _ => recognizes_byte.bind fun b1 => .pure _) fun _ =>
    .ite (fun _ => recognizes_byte.bind fun b1 => recognizes_byte.bind fun b2 =>
      recognizes_byte.bind fun b3 => .pure _) fun _ => .throw _).congr fun data n rest => ?_
  have hbyte : ∀ {m : Nat} {b : UInt8}, m % 256 = b.toNat → UInt8.ofNat m = b := fun h =>
    UInt8.toNat_inj.mp (by rw [UInt8.toNat_ofNat']; exact h)
  constructor
  · rintro ⟨first, mid, rfl, h⟩
    have hfirst := first.toNat_lt
    split at h
    · next hone =>
      obtain ⟨rfl, rfl⟩ := h
      have hform := @CompressedForm.one first.toNat rest hone
      rwa [UInt8.ofNat_toNat] at hform
    · split at h
      · obtain ⟨b1, mid, rfl, rfl, rfl⟩ := h
        have h1 := b1.toNat_lt
        have hform := @CompressedForm.two ((first.toNat - 0x80) * 0x100 + b1.toNat) rest (by omega)
        rwa [@hbyte _ first (by omega), @hbyte _ b1 (by omega)] at hform
      · split at h
        · obtain ⟨b1, _, rfl, b2, _, rfl, b3, mid, rfl, rfl, rfl⟩ := h
          have h1 := b1.toNat_lt
          have h2 := b2.toNat_lt
          have h3 := b3.toNat_lt
          have hform := @CompressedForm.four ((first.toNat - 0xC0) * 0x1000000 +
            b1.toNat * 0x10000 + b2.toNat * 0x100 + b3.toNat) rest
            (by unfold Compressed.max; omega)
          rwa [@hbyte _ first (by omega), @hbyte _ b1 (by omega), @hbyte _ b2 (by omega),
            @hbyte _ b3 (by omega)] at hform
        · exact h.elim
  · intro h
    cases h with
    | one h =>
      refine ⟨_, _, rfl, ?_⟩
      rw [UInt8.toNat_ofNat', if_pos (by omega)]
      exact ⟨by omega, rfl⟩
    | two h =>
      refine ⟨_, _, rfl, ?_⟩
      rw [UInt8.toNat_ofNat', if_neg (by omega), if_pos (by omega)]
      refine ⟨_, _, rfl, ?_, rfl⟩
      rw [UInt8.toNat_ofNat']
      omega
    | four h =>
      unfold Compressed.max at h
      refine ⟨_, _, rfl, ?_⟩
      rw [UInt8.toNat_ofNat', if_neg (by omega), if_neg (by omega), if_pos (by omega)]
      refine ⟨_, _, rfl, _, _, rfl, _, _, rfl, ?_, rfl⟩
      simp only [UInt8.toNat_ofNat']
      omega

/-- The same, without a level. -/
theorem compressed_ok {c c' : Cursor} {n : Nat} :
    Reader.compressed.run c = .ok n c' ↔ c'.data = c.data ∧ CompressedForm c.rest n c'.rest :=
  reader_ok_of_recognizes (recognizes_compressed : Recognizes _ 0 _)

/-- The table of a packed token by its tag. -/
theorem tokenTable?_eq (n : Nat) :
    Compressed.tokenTable? n =
      packedTables[n % 4]?.map fun table => UInt32.ofNat (table * 0x1000000) := by
  have hlt : n % 4 < 4 := Nat.mod_lt _ (by decide)
  unfold Compressed.tokenTable?
  generalize n % 4 = tag at hlt
  match tag with
  | 0 | 1 | 2 | 3 => rfl

theorem table_lt_of_packed {tag table : Nat} (h : packedTables[tag]? = some table) :
    tag < 3 ∧ table < 0x100 := by
  obtain ⟨htag, rfl⟩ := List.getElem?_eq_some_iff.mp h
  exact ⟨htag, by decide +revert⟩

/-- Table and row are merged. -/
theorem toNat_merged {table row : Nat} (htable : table < 0x100) (hrow : row < UInt32.size) :
    (UInt32.ofNat (table * 0x1000000) ||| UInt32.ofNat row).toNat = table * 0x1000000 ||| row := by
  have hbound : table * 0x1000000 < UInt32.size := by
    unfold UInt32.size
    omega
  rw [UInt32.toNat_or, UInt32.toNat_ofNat_of_lt' hbound, UInt32.toNat_ofNat_of_lt' hrow]

/-- A row that fits stands beside its table. -/
theorem toNat_or_row {table row : Nat} (htable : table < 0x100) (hrow : row < 0x1000000) :
    (UInt32.ofNat (table * 0x1000000) ||| UInt32.ofNat row).toNat = table * 0x1000000 + row := by
  rw [toNat_merged htable (Nat.lt_trans hrow (by decide)), Nat.mul_comm]
  exact (Nat.two_pow_add_eq_or_of_lt (i := 24) hrow table).symm

/-- A packed token whose row fits is its table and its row. -/
theorem recognizes_token : Recognizes (ofReader Reader.compressedToken) level (TokenForm .all) := by
  unfold Reader.compressedToken
  rw [ofReader_bind]
  refine (recognizes_compressed.bind (G := fun n data token rest =>
    rest = data ∧ ∃ table, Compressed.tokenTable? n = some table ∧
      token = ⟨table ||| UInt32.ofNat (n / 4)⟩) fun n => ?_).congr fun data token rest => ?_
  · cases htable : Compressed.tokenTable? n with
    | none => exact (Recognizes.throw _).congr (by simp)
    | some table =>
      exact (Recognizes.pure _).congr (by simp [and_comm])
  · constructor
    · rintro ⟨n, mid, hn, rfl, value, htable, rfl⟩
      by_cases hrow : n / 4 < 0x1000000
      · rw [tokenTable?_eq, Option.map_eq_some_iff] at htable
        obtain ⟨table, htable, rfl⟩ := htable
        have hor := toNat_or_row (table_lt_of_packed htable).2 hrow
        refine @TokenForm.packed _ _ _ (n % 4) _ ?_ ?_
        · rw [htable, Token.table, hor]
          congr 1
          omega
        · rw [Token.row, hor]
          rwa [show (table * 0x1000000 + n / 4) % 0x1000000 * 4 + n % 4 = n by omega]
      · exact .wide rfl htable (Nat.le_of_not_lt hrow) hn
    · intro h
      cases h with
      | @packed _ _ tag _ htable h =>
        obtain ⟨htag, hlt⟩ := table_lt_of_packed htable
        refine ⟨_, _, h, rfl, UInt32.ofNat (token.table * 0x1000000), ?_, ?_⟩
        · rw [tokenTable?_eq, show (token.row * 4 + tag) % 4 = tag by omega, htable]
          rfl
        · have hrow : (token.row * 4 + tag) / 4 = token.row := by omega
          have hvalue : token.value = _ := UInt32.toNat_inj.mp
            ((token.table_mul_add_row).symm.trans (toNat_or_row hlt token.row_lt).symm)
          rw [hrow, ← hvalue]
      | wide _ htable _ h => exact ⟨_, _, h, rfl, _, htable, rfl⟩

end SignatureReader

end CilInstrument
