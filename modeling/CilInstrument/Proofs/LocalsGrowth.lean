import CilInstrument.Proofs.Calls
import CilInstrument.Proofs.ShortestForms

/- Locals signatures over whole runs of requests. Every blob that begins with the tag and
   an integer, in whichever width it stands, is taken as it is (`ofBytes_ok`). A request
   is refused for an empty type or for the number of locals, and a refused one changes
   nothing (`append_error`); one that goes through adds its type behind all others and
   writes the number anew in its shortest form. What all requests together leave is
   `Grown`, which one request keeps (`Grown.append`) and so any row of them. -/
namespace CilInstrument

open Step SignatureReader

namespace LocalsSignature

/-! Reading. -/

/-- A blob is accepted exactly if it begins with the tag and an integer. -/
theorem ofBytes_ok {blob : List UInt8} {l : LocalsSignature} :
    ofBytes blob = .ok l ↔ ∃ number rest count, CompressedForm number count [] ∧
      blob = tag :: number ++ rest ∧ l = ⟨count, number, rest.toArray, false⟩ := by
  have hbyte : ∀ {c c' : Cursor} {b : UInt8}, Reader.byte.run c = .ok b c' ↔
      c'.data = c.data ∧ c.rest = b :: c'.rest :=
    reader_ok_of_recognizes (recognizes_byte : Recognizes _ 0 _)
  unfold ofBytes outcome
  constructor
  · intro h
    split at h
    · next c hread =>
      cases h
      obtain ⟨first, start, hfirst, hread⟩ := run_bind_ok.mp hread
      obtain ⟨-, hblob⟩ := hbyte.mp hfirst
      split at hread
      · obtain ⟨_, _, hthrow, -⟩ := run_bind_ok.mp hread
        cases hthrow
      · next htag =>
        obtain rfl : first = tag := by simpa using htag
        obtain ⟨_, _, hget, hread⟩ := run_bind_ok.mp hread
        cases hget
        obtain ⟨count, stop, hcount, hread⟩ := run_bind_ok.mp hread
        obtain ⟨_, _, hget, hread⟩ := run_bind_ok.mp hread
        cases hget
        cases hread
        obtain ⟨hdata, hform⟩ := compressed_ok.mp hcount
        obtain ⟨number, hnumber, hother⟩ := carries_compressed hform
        refine ⟨number, c.rest, count, ?_, ?_, ?_⟩
        · have hshort := hother []
          rwa [List.append_nil] at hshort
        · rw [List.cons_append, ← hnumber]
          exact hblob
        · rw [Cursor.bytesSince_of_rest hdata hnumber]
    · cases h
  · rintro ⟨number, rest, count, hform, rfl, rfl⟩
    obtain ⟨start, hstart, hrest⟩ := (Cursor.ofBytes (tag :: number ++ rest)).exists_behind
      (List.suffix_cons tag (number ++ rest))
    have hsuffix : rest <:+ start.rest := by
      rw [hrest]
      exact List.suffix_append number rest
    obtain ⟨stop, hstop, hbehind⟩ := start.exists_behind hsuffix
    have hnumber : start.rest = number ++ stop.rest := by rw [hrest, hbehind]
    have hcount : CompressedForm start.rest count stop.rest := by
      obtain ⟨front, hfront, hother⟩ := carries_compressed hform
      rw [hnumber, hfront, List.append_nil]
      exact hother stop.rest
    have hread : read.run (Cursor.ofBytes (tag :: number ++ rest)) =
        .ok ⟨count, number, rest.toArray, false⟩ stop := by
      refine run_bind_ok.mpr ⟨tag, start, hbyte.mpr ⟨hstart, by rw [hrest]; rfl⟩, ?_⟩
      refine run_bind_ok.mpr ⟨start, start, rfl, ?_⟩
      refine run_bind_ok.mpr ⟨count, stop, compressed_ok.mpr ⟨hstop, hcount⟩, ?_⟩
      refine run_bind_ok.mpr ⟨stop, stop, rfl, ?_⟩
      rw [Cursor.bytesSince_of_rest hstop hnumber, hbehind]
      rfl
    rw [show read (Cursor.ofBytes (tag :: number ++ rest)) = _ from hread]

/-! One request. -/

/-- When a request is refused, and for what. It leaves the signature as it was. -/
theorem append_error {type : List UInt8} {l t : LocalsSignature} {e : Error} :
    (append type).run l = .error e t ↔ t = l ∧
      (type = [] ∧ e = .malformed .emptyLocalType ∨
        type ≠ [] ∧ countLimit ≤ l.count ∧ e = .fatal (.localCountOverflow l.count)) := by
  rw [run_append, ← List.isEmpty_iff, ne_eq, ← List.isEmpty_iff]
  by_cases hempty : type.isEmpty = true
  · simp [hempty, eq_comm, and_comm]
  rw [if_neg hempty]
  by_cases hlimit : countLimit ≤ l.count
  · simp [hempty, hlimit, eq_comm, and_comm]
  · simp [hempty, hlimit]

theorem append_ok {type : List UInt8} {l t : LocalsSignature} {index : Nat}
    (h : (append type).run l = .ok index t) :
    index = l.count ∧ l.count < countLimit ∧
      t = ⟨l.count + 1, Compressed.encode (l.count + 1), l.types ++ type.toArray, true⟩ := by
  rw [run_append] at h
  split at h
  · cases h
  split at h
  · cases h
  · next hlimit =>
    cases h
    exact ⟨rfl, Nat.lt_of_not_le hlimit, rfl⟩

/-- The bytes are read as the signature that they are of. -/
theorem ofBytes_toBytes {l : LocalsSignature} (hform : CompressedForm l.countBytes l.count []) :
    ofBytes l.toBytes = .ok { l with isModified := false } :=
  ofBytes_ok.mpr ⟨l.countBytes, l.types.toList, l.count, hform, rfl, rfl⟩

/-- What a request does to the bytes: the type is put at the end, and the new number is put in
the place of the one that is read there. -/
theorem toBytes_append {type : List UInt8} {l t : LocalsSignature} {index : Nat}
    (hform : CompressedForm l.countBytes l.count []) (h : (append type).run l = .ok index t) :
    ∃ read, ofBytes l.toBytes = .ok read ∧
      t.toBytes = (l.toBytes ++ type).take 1 ++ Compressed.encode (read.count + 1) ++
        (l.toBytes ++ type).drop (1 + read.countBytes.length) := by
  obtain ⟨-, -, rfl⟩ := append_ok h
  refine ⟨_, ofBytes_toBytes hform, ?_⟩
  have hbytes : l.toBytes ++ type = [tag] ++ (l.countBytes ++ (l.types.toList ++ type)) := by
    simp [toBytes]
  have hbehind : (l.toBytes ++ type).drop (1 + l.countBytes.length) = l.types.toList ++ type := by
    rw [hbytes, ← List.drop_drop]
    exact List.drop_left
  rw [hbehind, hbytes]
  simp [toBytes]

/-! Rows of requests. -/

/-- One request after the other; a refused one is passed over. -/
def appendAll (requests : List (List UInt8)) (l : LocalsSignature) : LocalsSignature :=
  requests.foldl (fun l type => (append type).after l) l

/-- The types that are taken, each with the index that it is given. -/
def taken : List (List UInt8) → LocalsSignature → List (List UInt8 × Nat)
  | [], _ => []
  | type :: more, l =>
    match (append type).run l with
    | .ok index t => (type, index) :: taken more t
    | .error _ t => taken more t

/-- `l` is what `start` has become when the types of `added` were taken. -/
structure Grown (start : LocalsSignature) (added : List (List UInt8)) (l : LocalsSignature) :
    Prop where
  count : l.count = start.count + added.length
  types : l.types.toList = start.types.toList ++ added.flatten
  isModified : l.isModified = (start.isModified || !added.isEmpty)
  untouched : added = [] → l.countBytes = start.countBytes
  written : added ≠ [] → l.countBytes = Compressed.encode l.count ∧ l.count ≤ countLimit

namespace Grown

variable {start l t : LocalsSignature} {added : List (List UInt8)}

theorem refl (start : LocalsSignature) : Grown start [] start where
  count := rfl
  types := (List.append_nil _).symm
  isModified := (Bool.or_false _).symm
  untouched := fun _ => rfl
  written := fun h => absurd rfl h

/-- A request that goes through adds its type to those that were taken. -/
theorem append {type : List UInt8} {index : Nat} (h : Grown start added l)
    (happend : (append type).run l = .ok index t) : Grown start (added ++ [type]) t := by
  obtain ⟨-, hlimit, rfl⟩ := append_ok happend
  exact {
    count := by
      rw [List.length_append, ← Nat.add_assoc, ← h.count]
      rfl
    types := by
      rw [Array.toList_append, h.types, List.flatten_append, List.append_assoc]
      simp
    isModified := by simp
    untouched := fun hnone => absurd hnone (by simp)
    written := fun _ => ⟨rfl, hlimit⟩ }

/-- The types that the requests find taken are added in their order, under one index after
the other. -/
theorem appendAll (h : Grown start added l) (requests : List (List UInt8)) :
    Grown start (added ++ (taken requests l).map (·.1)) (appendAll requests l) ∧
      (taken requests l).map (·.2) = List.range' l.count (taken requests l).length := by
  induction requests generalizing added l with
  | nil =>
    refine ⟨?_, rfl⟩
    rw [show taken [] l = [] from rfl, List.map_nil, List.append_nil]
    exact h
  | cons type more ih =>
    unfold LocalsSignature.appendAll at ih ⊢
    rw [List.foldl_cons]
    unfold taken
    cases hrun : (LocalsSignature.append type).run l with
    | ok index t =>
      obtain ⟨hgrown, hindices⟩ := ih (h.append hrun)
      obtain ⟨rfl, -, rfl⟩ := append_ok hrun
      rw [after_of_ok hrun]
      refine ⟨?_, ?_⟩
      · rwa [List.append_assoc] at hgrown
      · rw [List.map_cons, hindices, List.length_cons, List.range'_succ]
    | error e t =>
      obtain ⟨rfl, -⟩ := append_error.mp hrun
      rw [after_of_error hrun]
      exact ih h

/-- The number stands in one of its forms, whatever was added. -/
theorem form (h : Grown start added l) (hstart : CompressedForm start.countBytes start.count []) :
    CompressedForm l.countBytes l.count [] := by
  by_cases hadded : added = []
  · rw [h.untouched hadded, h.count, hadded]
    exact hstart
  · obtain ⟨hbytes, hlimit⟩ := h.written hadded
    rw [hbytes]
    exact (shortestForm_encode (Nat.le_trans hlimit (by decide))).form

end Grown

/-- Whatever is requested of an accepted blob: what the bytes are then, what is read of
them again, which indices were given, and which request would be refused next. -/
theorem ofBytes_appendAll {blob : List UInt8} {start : LocalsSignature}
    (h : ofBytes blob = .ok start) :
    ∃ number rest, CompressedForm number start.count [] ∧ blob = tag :: number ++ rest ∧
      ∀ requests, let l := appendAll requests start
        let added := (taken requests start).map (·.1)
        (added = [] → l.toBytes = blob) ∧
        (added ≠ [] → ∃ shortest, ShortestForm shortest (start.count + added.length) ∧
          l.toBytes = tag :: shortest ++ rest ++ added.flatten) ∧
        l.count = start.count + added.length ∧
        ofBytes l.toBytes = .ok { l with isModified := false } ∧
        (l.isModified = true ↔ added ≠ []) ∧
        (taken requests start).map (·.2) = List.range' start.count added.length ∧
        ∀ type e t, (append type).run l = .error e t ↔ t = l ∧
          (type = [] ∧ e = .malformed .emptyLocalType ∨
            type ≠ [] ∧ 0xFFFE ≤ l.count ∧ e = .fatal (.localCountOverflow l.count)) := by
  obtain ⟨number, rest, count, hform, rfl, rfl⟩ := ofBytes_ok.mp h
  refine ⟨number, rest, hform, rfl, fun requests => ?_⟩
  obtain ⟨hgrown, hindices⟩ := (Grown.refl _).appendAll requests
  rw [List.nil_append] at hgrown
  generalize appendAll requests _ = l at hgrown ⊢
  intro _ added
  refine ⟨?_, ?_, hgrown.count, ?_, ?_, ?_, ?_⟩
  · intro hnone
    show tag :: l.countBytes ++ l.types.toList = _
    rw [hgrown.untouched hnone, hgrown.types, show List.map _ _ = [] from hnone,
      List.flatten_nil, List.append_nil]
  · intro hsome
    obtain ⟨hbytes, hlimit⟩ := hgrown.written hsome
    refine ⟨Compressed.encode l.count, ?_, ?_⟩
    · rw [← hgrown.count]
      exact shortestForm_encode (Nat.le_trans hlimit (by decide))
    · show tag :: l.countBytes ++ l.types.toList = _
      rw [hbytes, hgrown.types, ← List.append_assoc]
  · exact ofBytes_toBytes (hgrown.form hform)
  · rw [hgrown.isModified, Bool.false_or, Bool.not_eq_true', List.isEmpty_eq_false_iff]
  · rw [hindices, List.length_map]
  · intro type e t
    exact append_error

/-- Two locals, whose number takes a byte more than it needs. -/
def wideNumber : LocalsSignature := ⟨2, [0x80, 0x02], #[0x08, 0x0E], false⟩

theorem ofBytes_appendAll_wideNumber :
    ofBytes [0x07, 0x80, 0x02, 0x08, 0x0E] = .ok wideNumber ∧
    ∃ number rest, CompressedForm number 2 [] ∧
      [0x07, 0x80, 0x02, 0x08, 0x0E] = tag :: number ++ rest ∧
      ∃ shortest, ShortestForm shortest 4 ∧
        (appendAll [[0x1C], [], [0x0F, 0x08]] wideNumber).toBytes =
          tag :: shortest ++ rest ++ [0x1C, 0x0F, 0x08] := by
  have hread : ofBytes [0x07, 0x80, 0x02, 0x08, 0x0E] = .ok wideNumber := rfl
  obtain ⟨number, rest, hform, hblob, hall⟩ := ofBytes_appendAll hread
  obtain ⟨-, hbytes, -⟩ := hall [[0x1C], [], [0x0F, 0x08]]
  exact ⟨hread, number, rest, hform, hblob, hbytes (by decide)⟩

end LocalsSignature

end CilInstrument
