import CilInstrument.Proofs.BodyBytes

/- Bodies that are cut short. A section takes as many bytes as its header says
   (`ReadsWidth`), so a chain of sections reads the same from a front of the bytes as long
   as no section is cut through. Where a cut falls into a section, reading fails; where it
   falls in front of one, or into the header of one, the chain ends there and the clauses
   behind the cut are not missed (`readChain_take`, `readChain_of_cut`). Header, code and
   padding are all missed. `decompose_front` puts this together: a front of a body that
   is taken apart into anything else than the whole body is cut in front of a section. -/
namespace CilInstrument

open Step

/-- The reader takes that many bytes, whatever they are. -/
def ReadsWidth {α : Type} (r : Reader α) (width : Nat) : Prop :=
  ∀ front : List UInt8, front.length = width → ∃ a, Reads r front a

namespace ReadsWidth

variable {α β : Type}

theorem bind {r : Reader α} {k : α → Reader β} {m n : Nat} (hr : ReadsWidth r m)
    (hk : ∀ a, ReadsWidth (k a) n) : ReadsWidth (r >>= k) (m + n) := by
  intro front hlength
  obtain ⟨a, ha⟩ := hr (front.take m) (by rw [List.length_take]; omega)
  obtain ⟨b, hb⟩ := hk a (front.drop m) (by rw [List.length_drop]; omega)
  have h := ha.bind hb
  rw [List.take_append_drop] at h
  exact ⟨b, h⟩

theorem map {r : Reader α} {n : Nat} (hr : ReadsWidth r n) (f : α → β) :
    ReadsWidth (do return f (← r)) n := by
  intro front hlength
  obtain ⟨a, ha⟩ := hr front hlength
  exact ⟨f a, ha.map f⟩

theorem bytes (n : Nat) : ReadsWidth (Reader.bytes n) n := by
  rintro front rfl
  exact ⟨front, Reads.bytes front⟩

theorem byte : ReadsWidth Reader.byte 1 := by
  intro front hlength
  obtain ⟨b, rfl⟩ := List.length_eq_one_iff.mp hlength
  exact ⟨b, Reads.byte b⟩

theorem uint16 : ReadsWidth Reader.uint16 2 := ((bytes 2).map LittleEndian.decode).map UInt16.ofNat

theorem uint32 : ReadsWidth Reader.uint32 4 := ((bytes 4).map LittleEndian.decode).map UInt32.ofNat

theorem collect {r : Reader α} {n : Nat} (hr : ReadsWidth r n) (count : Nat) :
    ReadsWidth (Step.collect count r) (count * n) := by
  have hgo : ∀ found, ReadsWidth (Step.collect.go r count found) (count * n) := by
    induction count with
    | zero =>
      intro found front hlength
      rw [Nat.zero_mul] at hlength
      obtain rfl := List.eq_nil_of_length_eq_zero hlength
      exact ⟨found.toList, Reads.pure _⟩
    | succ count ih =>
      intro found
      rw [Nat.succ_mul, Nat.add_comm (count * n)]
      exact hr.bind fun a => ih (found.push a)
  exact hgo #[]

theorem clause (layout : SectionLayout) :
    ReadsWidth (ExceptionClause.read layout) (ExceptionClause.size layout) := by
  cases layout with
  | small =>
    exact uint16.bind fun _ => uint16.bind fun _ => byte.bind fun _ => uint16.bind fun _ =>
      byte.bind fun _ => uint32.map _
  | fat =>
    exact uint32.bind fun _ => uint32.bind fun _ => uint32.bind fun _ => uint32.bind fun _ =>
      uint32.bind fun _ => uint32.map _

end ReadsWidth

/-! Sections and chains of them. -/

/-- An extra section, taken apart. -/
structure StoredSection where
  header : SectionHeader
  clauses : List ExceptionClause

namespace StoredSection

/-- The bytes of a section: four bytes of header and then its clauses, as many as it has room
for. -/
structure StoredAs (s : StoredSection) (kind s0 s1 s2 : UInt8) (payload : List UInt8) : Prop where
  header : SectionHeader.ofBytes kind s0 s1 s2 = s.header
  isTable : s.header.isExceptionTable = true
  length : payload.length + SectionHeader.length = s.header.size
  clauses : Reads (Step.collect s.header.clauseCount (ExceptionClause.read s.header.layout))
    (payload.take (s.header.clauseCount * ExceptionClause.size s.header.layout)) s.clauses

/-- The bytes begin with the section. -/
def Heads (s : StoredSection) (data : List UInt8) : Prop :=
  ∃ kind s0 s1 s2 payload rest,
    data = kind :: s0 :: s1 :: s2 :: (payload ++ rest) ∧ s.StoredAs kind s0 s1 s2 payload

/-- A section that is whole stands at the start of the front as well. -/
theorem Heads.take {data : List UInt8} {s : StoredSection} (h : s.Heads data) {n : Nat}
    (hn : s.header.size ≤ n) : s.Heads (data.take n) := by
  obtain ⟨kind, s0, s1, s2, payload, rest, rfl, hstored⟩ := h
  have hlength := hstored.length
  unfold SectionHeader.length at hlength
  obtain ⟨m, rfl⟩ := Nat.exists_eq_add_of_le' (show 4 ≤ n by omega)
  refine ⟨kind, s0, s1, s2, payload, rest.take (m - payload.length), ?_, hstored⟩
  show kind :: s0 :: s1 :: s2 :: (payload ++ rest).take m = _
  rw [List.take_append, List.take_of_length_le (by omega)]

end StoredSection

namespace ExceptionTable

/-- No header of an exception table stands at the start. -/
def NoTable (data : List UInt8) : Prop :=
  ∀ kind s0 s1 s2 rest, data = kind :: s0 :: s1 :: s2 :: rest →
    (SectionHeader.ofBytes kind s0 s1 s2).isExceptionTable = false

/-- The sections of the chain at the start of the bytes. -/
inductive Chain : List UInt8 → List StoredSection → Prop
  | none {data : List UInt8} (h : NoTable data) : Chain data []
  | last {data : List UInt8} {s : StoredSection} (h : s.Heads data)
    (hlast : s.header.more = false) : Chain data [s]
  | next {data : List UInt8} {s : StoredSection} {rest : List StoredSection} (h : s.Heads data)
    (hmore : s.header.more = true) (hrest : Chain (data.drop s.header.stride) rest) :
    Chain data (s :: rest)

/-- All clauses of some sections. -/
def clausesOf (sections : List StoredSection) : List ExceptionClause :=
  sections.flatMap (·.clauses)

theorem append_clausesOf_nil (found : Array ExceptionClause) : found ++ clausesOf [] = found := by
  simp [clausesOf]

theorem append_clausesOf_cons (found : Array ExceptionClause) (s : StoredSection)
    (rest : List StoredSection) :
    found ++ clausesOf (s :: rest) = found ++ s.clauses ++ clausesOf rest := by
  apply Array.ext'
  simp [clausesOf]

/-- A cut behind `n` bytes falls in front of the section at `k`: all sections before that one
are whole, and of its own header a byte at least is missing. -/
def CutInFront : (sections : List StoredSection) → (k n : Nat) → Prop
  | [], _, _ => False
  | _ :: _, 0, n => n < SectionHeader.length
  | s :: rest, k + 1, n => s.header.size ≤ n ∧ CutInFront rest k (n - s.header.stride)

/-! Reading a chain. -/

theorem readChain_of_noTable {data : List UInt8} (h : NoTable data)
    (found : Array ExceptionClause) : readChain data found = .ok found := by
  rw [readChain.eq_def]
  split
  · next kind s0 s1 s2 body =>
    simp only [h kind s0 s1 s2 body rfl]
    rfl
  · rfl

/-- A section that stands there is read as a whole. -/
theorem readChain_of_heads {data : List UInt8} {s : StoredSection} (h : s.Heads data)
    (found : Array ExceptionClause) :
    readChain data found =
      if s.header.more then readChain (data.drop s.header.stride) (found ++ s.clauses)
      else .ok (found ++ s.clauses) := by
  obtain ⟨kind, s0, s1, s2, payload, rest, rfl, hstored⟩ := h
  have hlength := hstored.length
  have hstride := s.header.size_le_stride
  have hmin : ¬s.header.size < SectionHeader.length := by omega
  have hlong : hasAtLeast s.header.size (kind :: s0 :: s1 :: s2 :: (payload ++ rest)) = true := by
    rw [hasAtLeast_iff]
    simp only [List.length_cons, List.length_append]
    unfold SectionHeader.length at hlength
    omega
  have hread : (Step.collect s.header.clauseCount (ExceptionClause.read s.header.layout)).outcome
      (Cursor.ofBytes (payload ++ rest)) = .ok s.clauses := by
    have houtcome := hstored.clauses.outcome
      (payload.drop (s.header.clauseCount * ExceptionClause.size s.header.layout) ++ rest)
    rwa [← List.append_assoc, List.take_append_drop] at houtcome
  have hdrop : (payload ++ rest).drop (s.header.stride - SectionHeader.length) =
      (kind :: s0 :: s1 :: s2 :: (payload ++ rest)).drop s.header.stride := by
    obtain ⟨k, hk⟩ := Nat.exists_eq_add_of_le (show 4 ≤ s.header.stride by
      unfold SectionHeader.length at hlength
      omega)
    rw [hk, Nat.add_comm 4 k]
    rfl
  rw [readChain.eq_def]
  simp only [hstored.header, hstored.isTable, hlong, hread, hmin, hdrop]
  simp

/-- A section whose size is none, or that is longer than the bytes, is refused. -/
theorem readChain_of_size {kind s0 s1 s2 : UInt8} {body : List UInt8} {header : SectionHeader}
    (hheader : SectionHeader.ofBytes kind s0 s1 s2 = header)
    (htable : header.isExceptionTable = true)
    (hsize : header.size < SectionHeader.length ∨ body.length + SectionHeader.length < header.size)
    (found : Array ExceptionClause) :
    readChain (kind :: s0 :: s1 :: s2 :: body) found =
      .error (.malformed (.sectionSize header.layout header.size)) := by
  have hrefused : header.size < SectionHeader.length ∨
      !hasAtLeast header.size (kind :: s0 :: s1 :: s2 :: body) := by
    refine hsize.imp_right fun hlong => ?_
    rw [Bool.not_eq_true', Bool.eq_false_iff, ne_eq, hasAtLeast_iff]
    exact Nat.not_le_of_lt hlong
  rw [readChain.eq_def]
  simp only [hheader, htable, hrefused]
  simp

/-- What stands at the start of a chain. -/
theorem noTable_or_heads_or_size (data : List UInt8) :
    NoTable data ∨ (∃ s : StoredSection, s.Heads data) ∨
      ∃ kind s0 s1 s2 body header, data = kind :: s0 :: s1 :: s2 :: body ∧
        SectionHeader.ofBytes kind s0 s1 s2 = header ∧ header.isExceptionTable = true ∧
        (header.size < SectionHeader.length ∨
          body.length + SectionHeader.length < header.size) := by
  match data with
  | kind :: s0 :: s1 :: s2 :: body =>
    generalize hheader : SectionHeader.ofBytes kind s0 s1 s2 = header
    cases htable : header.isExceptionTable with
    | false =>
      refine .inl fun _ _ _ _ _ h => ?_
      cases h
      rw [hheader, htable]
    | true =>
      by_cases hsize : header.size < SectionHeader.length ∨
          body.length + SectionHeader.length < header.size
      · exact .inr (.inr ⟨kind, s0, s1, s2, body, header, rfl, hheader, htable, hsize⟩)
      obtain ⟨hmin, hmax⟩ := not_or.mp hsize
      have hpayload : (body.take (header.size - SectionHeader.length)).length +
          SectionHeader.length = header.size := by
        rw [List.length_take]
        omega
      have hroom : header.clauseCount * ExceptionClause.size header.layout ≤
          (body.take (header.size - SectionHeader.length)).length := by
        unfold SectionHeader.clauseCount
        exact Nat.le_trans (Nat.div_mul_le_self _ _) (by omega)
      obtain ⟨clauses, hclauses⟩ := (ReadsWidth.clause header.layout).collect header.clauseCount
        ((body.take (header.size - SectionHeader.length)).take
          (header.clauseCount * ExceptionClause.size header.layout))
        (by rw [List.length_take]; omega)
      refine .inr (.inl ⟨⟨header, clauses⟩, kind, s0, s1, s2, _,
        body.drop (header.size - SectionHeader.length), ?_, hheader, htable, hpayload, hclauses⟩)
      rw [List.take_append_drop]
  | [] | [_] | [_, _] | [_, _, _] =>
    left
    intro _ _ _ _ _ h
    cases h

/-- Reading a chain goes through exactly if there is one, and gives its clauses in order. -/
theorem readChain_ok_iff {data : List UInt8} {found clauses : Array ExceptionClause} :
    readChain data found = .ok clauses ↔
      ∃ sections, Chain data sections ∧ clauses = found ++ clausesOf sections := by
  constructor
  · intro h
    -- a section is followed by a shorter chain
    induction hn : data.length using Nat.strongRecOn generalizing data found with
    | _ n ih =>
    obtain hnone | ⟨s, hs⟩ | ⟨kind, s0, s1, s2, body, header, rfl, hheader, htable, hsize⟩ :=
      noTable_or_heads_or_size data
    · rw [readChain_of_noTable hnone] at h
      cases h
      exact ⟨[], .none hnone, (append_clausesOf_nil _).symm⟩
    · rw [readChain_of_heads hs] at h
      cases hmore : s.header.more with
      | false =>
        rw [hmore] at h
        cases h
        refine ⟨[s], .last hs hmore, ?_⟩
        rw [append_clausesOf_cons, append_clausesOf_nil]
      | true =>
        rw [hmore, if_pos rfl] at h
        have hshorter : (data.drop s.header.stride).length < n := by
          obtain ⟨_, _, _, _, _, _, rfl, hstored⟩ := hs
          have hlength := hstored.length
          have hstride := s.header.size_le_stride
          unfold SectionHeader.length at hlength
          rw [← hn, List.length_drop]
          simp only [List.length_cons]
          omega
        obtain ⟨rest, hrest, rfl⟩ := ih _ hshorter h rfl
        exact ⟨s :: rest, .next hs hmore hrest, (append_clausesOf_cons _ _ _).symm⟩
    · rw [readChain_of_size hheader htable hsize] at h
      cases h
  · rintro ⟨sections, hchain, rfl⟩
    induction hchain generalizing found with
    | none hnone => rw [readChain_of_noTable hnone, append_clausesOf_nil]
    | last hs hlast =>
      rw [readChain_of_heads hs, hlast, append_clausesOf_cons, append_clausesOf_nil]
      rfl
    | next hs hmore _ ih =>
      rw [readChain_of_heads hs, hmore, if_pos rfl, ih, append_clausesOf_cons]

/-! Fronts of a chain. -/

/-- Too few bytes for a header. -/
theorem noTable_of_length_lt {data : List UInt8} (h : data.length < SectionHeader.length) :
    NoTable data := by
  rintro kind s0 s1 s2 rest rfl
  simp only [List.length_cons, SectionHeader.length] at h
  omega

theorem NoTable.take {data : List UInt8} (h : NoTable data) (n : Nat) : NoTable (data.take n) := by
  intro kind s0 s1 s2 rest htake
  refine h kind s0 s1 s2 (rest ++ data.drop n) ((List.take_append_drop n data).symm.trans ?_)
  rw [htake]
  rfl

/-- A section that is cut behind its header is refused. -/
theorem readChain_take_of_cut {data : List UInt8} {s : StoredSection} (h : s.Heads data) {n : Nat}
    (hlow : SectionHeader.length ≤ n) (hhigh : n < s.header.size) (found : Array ExceptionClause) :
    readChain (data.take n) found =
      .error (.malformed (.sectionSize s.header.layout s.header.size)) := by
  obtain ⟨kind, s0, s1, s2, payload, rest, rfl, hstored⟩ := h
  unfold SectionHeader.length at hlow
  obtain ⟨m, rfl⟩ := Nat.exists_eq_add_of_le' hlow
  refine readChain_of_size hstored.header hstored.isTable (.inr ?_) found
  show ((payload ++ rest).take m).length + 4 < s.header.size
  rw [List.length_take]
  omega

/-- By induction on the chain: a front is read whole, refused, or read up to a section that
it is cut in front of. -/
theorem readChain_take {data : List UInt8} {sections : List StoredSection}
    (h : Chain data sections) (n : Nat) (found : Array ExceptionClause) :
    readChain (data.take n) found = .ok (found ++ clausesOf sections) ∨
      (∃ layout size, readChain (data.take n) found =
        .error (.malformed (.sectionSize layout size))) ∨
      ∃ k, CutInFront sections k n := by
  induction h generalizing n found with
  | none hnone =>
    left
    rw [readChain_of_noTable (hnone.take n), append_clausesOf_nil]
  | @last data s hs hlast =>
    by_cases hheader : n < SectionHeader.length
    · exact .inr (.inr ⟨0, hheader⟩)
    by_cases hsize : n < s.header.size
    · exact .inr (.inl ⟨_, _, readChain_take_of_cut hs (Nat.le_of_not_lt hheader) hsize found⟩)
    left
    rw [readChain_of_heads (hs.take (Nat.le_of_not_lt hsize)), hlast, append_clausesOf_cons,
      append_clausesOf_nil]
    rfl
  | @next data s rest hs hmore _ ih =>
    by_cases hheader : n < SectionHeader.length
    · exact .inr (.inr ⟨0, hheader⟩)
    by_cases hsize : n < s.header.size
    · exact .inr (.inl ⟨_, _, readChain_take_of_cut hs (Nat.le_of_not_lt hheader) hsize found⟩)
    replace hsize := Nat.le_of_not_lt hsize
    rw [readChain_of_heads (hs.take hsize), hmore, if_pos rfl, List.drop_take,
      append_clausesOf_cons]
    exact (ih (n - s.header.stride) (found ++ s.clauses)).imp_right fun h =>
      h.imp_right fun ⟨k, hk⟩ => ⟨k + 1, hsize, hk⟩

/-- A front that is cut in front of a section is read as the sections before it. -/
theorem readChain_of_cut {data : List UInt8} {sections : List StoredSection}
    (h : Chain data sections) {k n : Nat} (hcut : CutInFront sections k n)
    (found : Array ExceptionClause) :
    readChain (data.take n) found = .ok (found ++ clausesOf (sections.take k)) := by
  induction h generalizing k n found with
  | none => exact hcut.elim
  | @last data s hs hlast =>
    cases k with
    | zero =>
      have hshort : (data.take n).length < SectionHeader.length :=
        Nat.lt_of_le_of_lt (List.length_take_le n data) hcut
      rw [readChain_of_noTable (noTable_of_length_lt hshort), List.take_zero,
        append_clausesOf_nil]
    | succ k => exact hcut.2.elim
  | @next data s rest hs hmore _ ih =>
    cases k with
    | zero =>
      have hshort : (data.take n).length < SectionHeader.length :=
        Nat.lt_of_le_of_lt (List.length_take_le n data) hcut
      rw [readChain_of_noTable (noTable_of_length_lt hshort), List.take_zero,
        append_clausesOf_nil]
    | succ k =>
      rw [readChain_of_heads (hs.take hcut.1), hmore, if_pos rfl, List.drop_take, ih hcut.2,
        List.take_succ_cons, append_clausesOf_cons]

/-- The clauses of a front of a chain. -/
theorem ofBytes_take {data : List UInt8} {table : ExceptionTable} (h : ofBytes data = .ok table) :
    ∃ sections, Chain data sections ∧ table = ⟨clausesOf sections, #[]⟩ ∧
      ∀ n, ofBytes (data.take n) = .ok table ∨
        (∃ layout size, ofBytes (data.take n) = .error (.malformed (.sectionSize layout size))) ∨
        ∃ k, CutInFront sections k n := by
  obtain ⟨clauses, hclauses, htable⟩ := except_bind_ok.mp h
  cases htable
  obtain ⟨sections, hchain, rfl⟩ := readChain_ok_iff.mp hclauses
  refine ⟨sections, hchain, by simp, fun n => ?_⟩
  rcases readChain_take hchain n #[] with hwhole | ⟨layout, size, hrefused⟩ | hcut
  · exact .inl (except_bind_ok.mpr ⟨_, hwhole, rfl⟩)
  · refine .inr (.inl ⟨layout, size, ?_⟩)
    unfold ofBytes
    rw [hrefused]
    rfl
  · exact .inr (.inr hcut)

theorem ofBytes_of_cut {data : List UInt8} {sections : List StoredSection}
    (h : Chain data sections) {k n : Nat} (hcut : CutInFront sections k n) :
    ofBytes (data.take n) = .ok ⟨clausesOf (sections.take k), #[]⟩ := by
  refine except_bind_ok.mpr ⟨_, readChain_of_cut h hcut #[], ?_⟩
  simp
  rfl

/-- A front of a table either fails for the size of a section, or is the table again, or is cut
in front of a section. -/
theorem ofBytes_front {data : List UInt8} {table : ExceptionTable} (h : ofBytes data = .ok table)
    (n : Nat) :
    (∀ e, ofBytes (data.take n) = .error e →
      ∃ layout size, e = .malformed (.sectionSize layout size)) ∧
    ∀ t, t ≠ table → (ofBytes (data.take n) = .ok t ↔
      ∃ sections k, Chain data sections ∧ table = ⟨clausesOf sections, #[]⟩ ∧
        CutInFront sections k n ∧ t = ⟨clausesOf (sections.take k), #[]⟩) := by
  obtain ⟨sections, hchain, hall, hcases⟩ := ofBytes_take h
  have hread : ∀ {sections k t}, Chain data sections → CutInFront sections k n →
      (ofBytes (data.take n) = .ok t ↔ t = ⟨clausesOf (sections.take k), #[]⟩) := by
    intro sections k t hchain hcut
    rw [ofBytes_of_cut hchain hcut, Except.ok.injEq, eq_comm]
  constructor
  · intro e he
    rcases hcases n with hok | ⟨layout, size, hrefused⟩ | ⟨k, hk⟩
    · rw [hok] at he
      cases he
    · rw [hrefused] at he
      cases he
      exact ⟨layout, size, rfl⟩
    · rw [(hread hchain hk).mpr rfl] at he
      cases he
  · intro t hne
    constructor
    · intro ht
      rcases hcases n with hok | ⟨layout, size, hrefused⟩ | ⟨k, hk⟩
      · rw [hok] at ht
        cases ht
        exact absurd rfl hne
      · rw [hrefused] at ht
        cases ht
      · exact ⟨sections, k, hchain, hall, hk, (hread hchain hk).mp ht⟩
    · rintro ⟨sections, k, hchain, -, hk, ht⟩
      exact (hread hchain hk).mpr ht

end ExceptionTable

/-! Fronts of a body. -/

namespace MethodHeader

theorem declaredWords_take (data : List UInt8) {n : Nat} (h : 2 ≤ n) :
    declaredWords (data.take n) = declaredWords data := by
  obtain ⟨m, rfl⟩ := Nat.exists_eq_add_of_le' h
  match data with
  | [] | [_] | _ :: _ :: _ => rfl

theorem ofBytes_of_length_lt {data : List UInt8} (h : data.length < size) :
    ofBytes data = .error .outOfBounds := by
  unfold ofBytes
  split
  · simp only [List.length_cons, size] at h
    omega
  · rfl

/-- A header is read from its own twelve bytes. -/
theorem ofBytes_take {data : List UInt8} {n : Nat} {header : MethodHeader}
    (h : ofBytes data = .ok header) (hn : size ≤ n) : ofBytes (data.take n) = .ok header := by
  obtain ⟨m, rfl⟩ := Nat.exists_eq_add_of_le' hn
  unfold ofBytes at h
  split at h
  · exact h
  · cases h

theorem sizeWords_le {data : List UInt8} {header : MethodHeader} (h : ofBytes data = .ok header) :
    sizeWords ≤ declaredWords data := by
  unfold ofBytes at h
  split at h
  · split at h
    · cases h
    · next hwords => exact Nat.le_of_not_lt hwords
  · cases h

end MethodHeader

namespace MethodBody

/-- Bytes in front of a cut stay where they are. -/
theorem take_drop_take {data : List UInt8} {offset count n : Nat} (h : offset + count ≤ n) :
    ((data.take n).drop offset).take count = (data.drop offset).take count := by
  rw [List.drop_take, List.take_take, Nat.min_eq_left (by omega)]

theorem ofTiny_take {data : List UInt8} {codeSize n : Nat} {body : MethodBody}
    (h : ofTiny data codeSize = .ok body) (hn : n ≤ data.length) :
    ofTiny (data.take n) codeSize = .error .outOfBounds ∨
      ofTiny (data.take n) codeSize = .ok body := by
  unfold ofTiny at h ⊢
  rw [List.length_take, Nat.min_eq_left hn]
  split at h
  · cases h
  by_cases hcut : n < 1 + codeSize
  · exact .inl (if_pos hcut)
  · right
    rw [if_neg hcut, take_drop_take (Nat.le_of_not_lt hcut)]
    exact h

/-- A fat body behind its header: code up to `stop`, and sections from the next multiple of four
on if the header announces them. -/
theorem ofFat_eq {data : List UInt8} {header : MethodHeader} {start stop : Nat}
    (h : MethodHeader.ofBytes data = .ok header)
    (hstart : MethodHeader.declaredWords data * 4 = start)
    (hstop : start + header.codeSize.toNat = stop) :
    ofFat data =
      if data.length < stop then .error .outOfBounds
      else if !header.flags.moreSections then
        .ok ⟨.fat, header, (data.drop start).take header.codeSize.toNat, ExceptionTable.empty, none⟩
      else if data.length < align4 stop then .error .outOfBounds
      else (ExceptionTable.ofBytes (data.drop (align4 stop))).map fun exceptions =>
        ⟨.fat, header, (data.drop start).take header.codeSize.toNat, exceptions,
          some (align4 stop)⟩ := by
  subst hstart hstop
  unfold ofFat
  rw [h]
  rfl

section
variable {data : List UInt8} {header : MethodHeader} {start stop n : Nat}
  (hheader : MethodHeader.ofBytes data = .ok header)
  (hstart : MethodHeader.declaredWords data * 4 = start)
  (hstop : start + header.codeSize.toNat = stop) (hn : n ≤ data.length)
include hheader hstart hstop hn

/-- Header or code are cut through. -/
theorem ofFat_take_of_lt (h : n < stop) : ofFat (data.take n) = .error .outOfBounds := by
  have hlength : (data.take n).length = n := List.length_take_of_le hn
  by_cases hshort : n < MethodHeader.size
  · unfold ofFat
    rw [MethodHeader.ofBytes_of_length_lt (by rw [hlength]; exact hshort)]
    rfl
  · replace hshort := Nat.le_of_not_lt hshort
    have hwords := MethodHeader.declaredWords_take data (Nat.le_trans (by decide) hshort)
    rw [ofFat_eq (MethodHeader.ofBytes_take hheader hshort) (hwords ▸ hstart) hstop, hlength]
    exact if_pos h

/-- Header and code are whole. -/
theorem ofFat_take_of_le (h : stop ≤ n) :
    ofFat (data.take n) =
      if !header.flags.moreSections then
        .ok ⟨.fat, header, (data.drop start).take header.codeSize.toNat, ExceptionTable.empty, none⟩
      else if n < align4 stop then .error .outOfBounds
      else (ExceptionTable.ofBytes ((data.drop (align4 stop)).take (n - align4 stop))).map
        fun exceptions => ⟨.fat, header, (data.drop start).take header.codeSize.toNat, exceptions,
          some (align4 stop)⟩ := by
  have hwords := MethodHeader.sizeWords_le hheader
  unfold MethodHeader.sizeWords at hwords
  have hshort : MethodHeader.size ≤ n := by
    unfold MethodHeader.size
    omega
  have hsame := MethodHeader.declaredWords_take data (Nat.le_trans (by decide) hshort)
  rw [ofFat_eq (MethodHeader.ofBytes_take hheader hshort) (hsame ▸ hstart) hstop,
    List.length_take_of_le hn, if_neg (Nat.not_lt_of_le h), take_drop_take (by omega),
    List.drop_take]

end

/-- A front of a fat body is refused if it is cut in front of the end of its code or of the
start of its sections. Else header and code are the same, and the sections are what the front
has of them. -/
theorem ofFat_take {data : List UInt8} {n : Nat} {body : MethodBody} (h : ofFat data = .ok body)
    (hn : n ≤ data.length) :
    ofFat (data.take n) = .error .outOfBounds ∧ (∀ offset ∈ body.sectionOffset, n < offset) ∨
      ofFat (data.take n) = .ok body ∧ body.sectionOffset = none ∨
      ∃ offset, body.sectionOffset = some offset ∧ offset ≤ n ∧
        ExceptionTable.ofBytes (data.drop offset) = .ok body.exceptions ∧
        ofFat (data.take n) = (ExceptionTable.ofBytes ((data.drop offset).take (n - offset))).map
          fun exceptions => { body with exceptions } := by
  obtain ⟨header, hheader, -⟩ := except_bind_ok.mp h
  generalize hstart : MethodHeader.declaredWords data * 4 = start
  generalize hstop : start + header.codeSize.toNat = stop
  have hlt := ofFat_take_of_lt hheader hstart hstop hn
  have hle := ofFat_take_of_le hheader hstart hstop hn
  have hsections := le_align4 stop
  rw [ofFat_eq hheader hstart hstop] at h
  split at h
  · cases h
  split at h
  · next hmore =>
    cases h
    rcases Nat.lt_or_ge n stop with hcut | hwhole
    · exact .inl ⟨hlt hcut, fun _ hoffset => by cases hoffset⟩
    · refine .inr (.inl ⟨?_, rfl⟩)
      rw [hle hwhole, if_pos hmore]
  next hmore =>
  split at h
  · cases h
  cases htable : ExceptionTable.ofBytes (data.drop (align4 stop)) with
  | error e =>
    rw [htable] at h
    cases h
  | ok table =>
    rw [htable] at h
    cases h
    rcases Nat.lt_or_ge n (align4 stop) with hcut | hwhole
    · refine .inl ⟨?_, fun offset hoffset => by cases hoffset; exact hcut⟩
      rcases Nat.lt_or_ge n stop with hcode | hcode
      · exact hlt hcode
      · rw [hle hcode, if_neg hmore, if_pos hcut]
    · refine .inr (.inr ⟨align4 stop, rfl, hwhole, htable, ?_⟩)
      rw [hle (Nat.le_trans hsections hwhole), if_neg hmore, if_neg (Nat.not_lt_of_le hwhole)]

/-- A front has the form of the whole, which the first byte tells. -/
theorem decompose_forms (data : List UInt8) (n : Nat) :
    (∃ codeSize, decompose data = ofTiny data codeSize ∧
      decompose (data.take n) = ofTiny (data.take n) codeSize) ∨
    decompose data = ofFat data ∧ decompose (data.take n) = ofFat (data.take n) ∨
    ∃ e, decompose data = .error e := by
  have hempty : ∀ codeSize, decompose [] = ofTiny [] codeSize := fun codeSize =>
    (if_pos (show 0 < 1 + codeSize by omega)).symm
  cases data with
  | nil => exact .inr (.inr ⟨_, rfl⟩)
  | cons first rest =>
    cases hformat : HeaderFormat.ofFirstByte? first with
    | none =>
      refine .inr (.inr ⟨.fatal (.unknownHeaderFormat first), ?_⟩)
      unfold decompose
      simp only [hformat]
    | some format =>
      have hsome : ∀ tail, decompose (first :: tail) =
          match format with
          | .tiny => ofTiny (first :: tail) (first.toNat / 4)
          | .fat => ofFat (first :: tail) := by
        intro tail
        unfold decompose
        simp only [hformat]
        cases format <;> rfl
      cases format with
      | tiny =>
        refine .inl ⟨first.toNat / 4, hsome rest, ?_⟩
        cases n with
        | zero => exact hempty _
        | succ n => exact hsome (rest.take n)
      | fat =>
        refine .inr (.inl ⟨hsome rest, ?_⟩)
        cases n with
        | zero => rfl
        | succ n => exact hsome (rest.take n)

/-- A front of a body is refused, or is the body again, or has the same parts and those
sections that the front has. -/
theorem decompose_take {data : List UInt8} {n : Nat} {body : MethodBody}
    (h : decompose data = .ok body) (hn : n ≤ data.length) :
    decompose (data.take n) = .error .outOfBounds ∧ (∀ offset ∈ body.sectionOffset, n < offset) ∨
      decompose (data.take n) = .ok body ∧ body.sectionOffset = none ∨
      ∃ offset, body.sectionOffset = some offset ∧ offset ≤ n ∧
        ExceptionTable.ofBytes (data.drop offset) = .ok body.exceptions ∧
        decompose (data.take n) =
          (ExceptionTable.ofBytes ((data.drop offset).take (n - offset))).map
            fun exceptions => { body with exceptions } := by
  rcases decompose_forms data n with ⟨codeSize, hdata, hfront⟩ | ⟨hdata, hfront⟩ | ⟨e, he⟩
  · rw [hdata] at h
    have hnone : body.sectionOffset = none := by
      unfold ofTiny at h
      split at h
      · cases h
      · cases h
        rfl
    rw [hfront, hnone]
    rcases ofTiny_take h hn with hrefused | hwhole
    · exact .inl ⟨hrefused, fun _ hoffset => by cases hoffset⟩
    · exact .inr (.inl ⟨hwhole, rfl⟩)
  · rw [hdata] at h
    rw [hfront]
    exact ofFat_take h hn
  · rw [he] at h
    cases h

/-- A front of a body either fails with one of two errors, or is taken apart into the same
parts, or is cut in front of a section; then the parts are the same but for the clauses of that
section and of all behind it, which are not missed. -/
theorem decompose_front {data front : List UInt8} {body : MethodBody}
    (h : decompose data = .ok body) (hfront : front <+: data) :
    (∀ e, decompose front = .error e →
      e = .outOfBounds ∨ ∃ layout size, e = .malformed (.sectionSize layout size)) ∧
    ∀ b, b ≠ body → (decompose front = .ok b ↔
      ∃ offset sections k, body.sectionOffset = some offset ∧
        ExceptionTable.Chain (data.drop offset) sections ∧
        body.exceptions = ⟨ExceptionTable.clausesOf sections, #[]⟩ ∧ offset ≤ front.length ∧
        ExceptionTable.CutInFront sections k (front.length - offset) ∧
        b = { body with
          exceptions := ⟨ExceptionTable.clausesOf (sections.take k), #[]⟩ }) := by
  obtain ⟨rest, rfl⟩ := hfront
  generalize hn : front.length = n
  have hle : n ≤ (front ++ rest).length := by
    rw [List.length_append]
    omega
  have hfront : front = (front ++ rest).take n := by rw [← hn, List.take_left]
  generalize front ++ rest = data at h hle hfront
  subst hfront
  rcases decompose_take h hle with ⟨hrefused, hshort⟩ | ⟨hwhole, hnone⟩ |
    ⟨start, hstart, hreached, htable, hfront⟩
  · rw [hrefused]
    constructor
    · rintro e ⟨⟩
      exact .inl rfl
    · intro b _
      constructor
      · rintro ⟨⟩
      · rintro ⟨offset, _, _, hoffset, _, _, hle, _⟩
        exact absurd (hshort offset hoffset) (Nat.not_lt_of_le hle)
  · rw [hwhole]
    refine ⟨fun e he => (nomatch he), fun b hne => ⟨?_, ?_⟩⟩
    · rintro ⟨⟩
      exact absurd rfl hne
    · rintro ⟨offset, _, _, hoffset, _⟩
      rw [hnone] at hoffset
      cases hoffset
  rw [hfront]
  obtain ⟨herror, hok⟩ := ExceptionTable.ofBytes_front htable (n - start)
  refine ⟨fun e he => .inr (herror e (except_map_error.mp he)), fun b hne => ⟨fun hb => ?_, ?_⟩⟩
  · obtain ⟨table, htaken, rfl⟩ := except_map_ok.mp hb
    have hother : table ≠ body.exceptions := fun heq => hne (by rw [heq])
    obtain ⟨sections, k, hchain, hall, hcut, rfl⟩ := (hok table hother).mp htaken
    exact ⟨start, sections, k, hstart, hchain, hall, hreached, hcut, rfl⟩
  · rintro ⟨offset, sections, k, hoffset, hchain, hall, -, hcut, rfl⟩
    obtain rfl : start = offset := Option.some.inj (hstart.symm.trans hoffset)
    have hother : ExceptionTable.mk (ExceptionTable.clausesOf (sections.take k)) #[] ≠
        body.exceptions := fun heq => hne (by rw [heq])
    have htaken := (hok _ hother).mpr ⟨sections, k, hchain, hall, hcut, rfl⟩
    exact except_map_ok.mpr ⟨_, htaken, rfl⟩

/-- A method with one handler, in a small section behind two bytes of padding. -/
def handledBytes : List UInt8 :=
  [0x1B, 0x30, 0x02, 0x00, 0x06, 0x00, 0x00, 0x00, 0x00, 0x00, 0x00, 0x00,
    0x00, 0x00, 0x00, 0x00, 0x00, 0x2A, 0x00, 0x00,
    0x01, 0x10, 0x00, 0x00, 0x00, 0x00, 0x00, 0x00, 0x04, 0x01, 0x00, 0x01, 0x01, 0x00, 0x00, 0x01]

def handledBody : MethodBody where
  format := .fat
  header := ⟨⟨0x1B⟩, 2, 6, Token.null⟩
  code := [0x00, 0x00, 0x00, 0x00, 0x00, 0x2A]
  exceptions := ⟨[⟨0, 0, 4, 1, 1, 0x01000001⟩], #[]⟩
  sectionOffset := some 20

theorem decompose_handledBytes : decompose handledBytes = .ok handledBody := by
  cbv

/-- What is left of it without the handler. -/
def strippedBody : MethodBody := { handledBody with exceptions := ExceptionTable.empty }

/-- Three bytes of the section are not enough to miss the rest. -/
theorem decompose_front_stripped :
    decompose handledBytes = .ok handledBody ∧ handledBytes.take 23 <+: handledBytes ∧
      strippedBody ≠ handledBody ∧ decompose (handledBytes.take 23) = .ok strippedBody ∧
      ∃ sections k, ExceptionTable.Chain (handledBytes.drop 20) sections ∧
        ExceptionTable.CutInFront sections k 3 := by
  have hne : strippedBody ≠ handledBody := by decide
  have hcut : decompose (handledBytes.take 23) = .ok strippedBody := by cbv
  refine ⟨decompose_handledBytes, List.take_prefix 23 _, hne, hcut, ?_⟩
  obtain ⟨offset, sections, k, hoffset, hchain, -, -, hk, -⟩ :=
    ((decompose_front decompose_handledBytes (List.take_prefix 23 _)).2 _ hne).mp hcut
  cases hoffset
  exact ⟨sections, k, hchain, hk⟩

/-- Cut right behind its padding, the method is taken apart without its handler. -/
theorem handler_lost_of_cut :
    decompose handledBytes = .ok handledBody ∧ handledBytes.take 20 <+: handledBytes ∧
      decompose (handledBytes.take 20) = .ok strippedBody ∧
      strippedBody.exceptions.inherited = [] ∧ handledBody.exceptions.inherited ≠ [] :=
  ⟨decompose_handledBytes, List.take_prefix 20 _, by cbv, rfl, by decide⟩

end MethodBody

end CilInstrument
