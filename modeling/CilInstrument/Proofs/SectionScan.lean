import CilInstrument.Proofs.SectionChains
import CilInstrument.Proofs.Tracing

/- Reading exception sections by offsets. The scan goes over the same bytes as the reader of
   a chain, but with a cursor into the whole data and with every access noted, so that what it
   looks at can be asked about; an access outside the data fails, as it would there. A turn of
   the scan at any cursor looks only at the data, fails only for the size of a section, and
   goes on by four bytes at least (`turned`); so the scan is over after as many turns as the
   data has words and one more, and has found what the reader finds (`ofBytes_safe`). -/
namespace CilInstrument

open Step

/-- Bytes that are looked at. -/
structure ByteSpan where
  start : Nat
  width : Nat
  deriving Repr, DecidableEq

/-- All of them are there. -/
def ByteSpan.Inside (span : ByteSpan) (data : List UInt8) : Prop :=
  span.start + span.width ≤ data.length

/-- A step that notes what it looks at, with an offset into the data. -/
abbrev Scan := Traced ByteSpan Nat

namespace SectionScan

variable (data : List UInt8)

/-- The number in the next `width` bytes. -/
def number (width : Nat) : Scan Nat where
  step := fun offset =>
    if offset + width ≤ data.length then
      .ok (LittleEndian.decode ((data.drop offset).take width)) (offset + width)
    else .error .outOfBounds offset
  log := fun offset => [⟨offset, width⟩]

def uint8 : Scan UInt8 := do return UInt8.ofNat (← number data 1)

def uint16 : Scan UInt16 := do return UInt16.ofNat (← number data 2)

def uint32 : Scan UInt32 := do return UInt32.ofNat (← number data 4)

/-- A clause, field by field. -/
def clause : SectionLayout → Scan ExceptionClause
  | .fat => do
    let flags ← uint32 data
    let tryOffset ← uint32 data
    let tryLength ← uint32 data
    let handlerOffset ← uint32 data
    let handlerLength ← uint32 data
    let classOrFilter ← uint32 data
    return ⟨flags.toUInt16 &&& ExceptionClause.knownFlags, tryOffset, tryLength, handlerOffset,
      handlerLength, classOrFilter⟩
  | .small => do
    let flags ← uint16 data
    let tryOffset ← uint16 data
    let tryLength ← uint8 data
    let handlerOffset ← uint16 data
    let handlerLength ← uint8 data
    let classOrFilter ← uint32 data
    return ⟨flags &&& ExceptionClause.knownFlags, tryOffset.toUInt32, tryLength.toUInt32,
      handlerOffset.toUInt32, handlerLength.toUInt32, classOrFilter⟩

def clauses (layout : SectionLayout) : (count : Nat) → Scan (List ExceptionClause)
  | 0 => return []
  | count + 1 => do
    let first ← clause data layout
    let more ← clauses layout count
    return first :: more

/-- The size of the section at the cursor: three bytes of its first word, or its second byte. -/
def size (cursor : Nat) : SectionLayout → Scan Nat
  | .fat => do return (← .startingAt cursor (number data 4)) / 0x100
  | .small => .startingAt (cursor + 1) (number data 1)

/-- One turn: the clauses of the section at the cursor, and whether another one follows; no
clauses where the chain is over. -/
def turn : Scan (List ExceptionClause × Bool) := do
  let cursor ← .quiet get
  if data.length < cursor + SectionHeader.length then return ([], false)
  let kind ← .startingAt cursor (uint8 data)
  if kind &&& 0x01 = 0 then return ([], false)
  let layout := SectionLayout.ofKind kind
  let size ← size data cursor layout
  if size < SectionHeader.length ∨ data.length < cursor + size then
    .quiet (throw (.malformed (.sectionSize layout size)))
  let found ← .startingAt (cursor + SectionHeader.length)
    (clauses data layout ((size - SectionHeader.length) / ExceptionClause.size layout))
  .quiet (set (cursor + match layout with | .fat => size | .small => align4 size))
  return (found, kind &&& 0x80 != 0)

/-- So many turns at most; nothing if they do not do. -/
def scan : (turns : Nat) → Scan (Option (List ExceptionClause))
  | 0 => return none
  | turns + 1 => do
    let (found, more) ← turn data
    if more then return (← scan turns).map (found ++ ·)
    else return some found


/-! What is read in the middle of the data. -/

theorem length_window {offset width : Nat} {data : List UInt8}
    (h : offset + width ≤ data.length) : ((data.drop offset).take width).length = width := by
  rw [List.length_take, List.length_drop]
  omega

theorem run_number {offset width : Nat} {data : List UInt8} (h : offset + width ≤ data.length) :
    (number data width).step.run offset =
      .ok (LittleEndian.decode ((data.drop offset).take width)) (offset + width) := if_pos h

theorem number_inside {offset width : Nat} {data : List UInt8} (h : offset + width ≤ data.length) :
    (number data width).Notes (·.Inside data) offset := by
  intro span hspan
  rw [List.mem_singleton.mp hspan]
  exact h

/-- From every offset with so many bytes behind it, `x` looks only at these, moves behind them
and gives what the reader gives of them. -/
def Takes {α : Type} (x : Scan α) (r : Reader α) (width : Nat) : Prop :=
  ∀ offset, offset + width ≤ data.length →
    ∃ a, x.step.run offset = .ok a (offset + width) ∧
      Reads r ((data.drop offset).take width) a ∧ x.Notes (·.Inside data) offset

namespace Takes

variable {data} {α β : Type}

theorem number (width : Nat) : Takes data (number data width) (Reader.unsigned width) width := by
  intro offset h
  refine ⟨_, run_number h, ?_, number_inside h⟩
  have hbytes := (Reads.bytes ((data.drop offset).take width)).map LittleEndian.decode
  rwa [length_window h] at hbytes

theorem bind {x : Scan α} {r : Reader α} {f : α → Scan β} {g : α → Reader β} {m n : Nat}
    (hx : Takes data x r m) (hf : ∀ a, Takes data (f a) (g a) n) :
    Takes data (x >>= f) (r >>= g) (m + n) := by
  intro offset h
  obtain ⟨a, hrun, hreads, hinside⟩ := hx offset (by omega)
  obtain ⟨b, hrun', hreads', hinside'⟩ := hf a (offset + m) (by omega)
  refine ⟨b, ?_, ?_, (Traced.Notes.bind_of_ok hrun).mpr ⟨hinside, hinside'⟩⟩
  · rw [Traced.run_bind_of_ok hrun, hrun', Nat.add_assoc]
  · rw [List.take_add, List.drop_drop]
    exact hreads.bind hreads'

theorem map {x : Scan α} {r : Reader α} {n : Nat} (hx : Takes data x r n) (f : α → β) :
    Takes data (do return f (← x)) (do return f (← r)) n := by
  intro offset h
  obtain ⟨a, hrun, hreads, hinside⟩ := hx offset h
  refine ⟨f a, Traced.run_bind_of_ok hrun, hreads.map f, ?_⟩
  exact (Traced.Notes.bind_of_ok hrun).mpr ⟨hinside, .pure _⟩

theorem uint8 : Takes data (uint8 data) Reader.byte 1 := by
  intro offset h
  obtain ⟨b, hb⟩ := List.length_eq_one_iff.mp (length_window h)
  have hnumber : UInt8.ofNat (LittleEndian.decode ((data.drop offset).take 1)) = b := by
    rw [hb]
    exact UInt8.ofNat_toNat
  refine ⟨b, ?_, by rw [hb]; exact Reads.byte b, ?_⟩
  · refine (Traced.run_bind_of_ok (run_number h)).trans ?_
    rw [hnumber]
    rfl
  · exact (Traced.Notes.bind_of_ok (run_number h)).mpr ⟨number_inside h, .pure _⟩

theorem uint16 : Takes data (uint16 data) Reader.uint16 2 := (number 2).map UInt16.ofNat

theorem uint32 : Takes data (uint32 data) Reader.uint32 4 := (number 4).map UInt32.ofNat

theorem clause (layout : SectionLayout) :
    Takes data (clause data layout) (ExceptionClause.read layout)
      (ExceptionClause.size layout) := by
  cases layout with
  | fat =>
    exact uint32.bind fun _ => uint32.bind fun _ => uint32.bind fun _ => uint32.bind fun _ =>
      uint32.bind fun _ => uint32.map _
  | small =>
    exact uint16.bind fun _ => uint16.bind fun _ => uint8.bind fun _ => uint16.bind fun _ =>
      uint8.bind fun _ => uint32.map _

/-- As many clauses as are asked for, behind those that the reader has already found. -/
theorem clausesGo (layout : SectionLayout) (count offset : Nat)
    (h : offset + count * ExceptionClause.size layout ≤ data.length) :
    ∃ found, (clauses data layout count).step.run offset =
        .ok found (offset + count * ExceptionClause.size layout) ∧ found.length = count ∧
      (clauses data layout count).Notes (·.Inside data) offset ∧
      ∀ before, Reads (collect.go (ExceptionClause.read layout) count before)
        ((data.drop offset).take (count * ExceptionClause.size layout))
        (before.toList ++ found) := by
  induction count generalizing offset with
  | zero =>
    refine ⟨[], by rw [Nat.zero_mul]; rfl, rfl, .pure _, fun before => ?_⟩
    rw [Nat.zero_mul, List.take_zero, List.append_nil]
    exact Reads.pure _
  | succ count ih =>
    rw [Nat.succ_mul, Nat.add_comm (count * _)] at h ⊢
    obtain ⟨first, hrun, hreads, hinside⟩ := @clause data layout offset (by omega)
    obtain ⟨more, hrun', hlength, hinside', hreads'⟩ := ih _ (by rw [Nat.add_assoc]; exact h)
    refine ⟨first :: more, ?_, congrArg (· + 1) hlength, ?_, fun before => ?_⟩
    · refine (Traced.run_bind_of_ok hrun).trans ((Traced.run_bind_of_ok hrun').trans ?_)
      rw [Nat.add_assoc]
      rfl
    · refine (Traced.Notes.bind_of_ok hrun).mpr ⟨hinside, ?_⟩
      exact (Traced.Notes.bind_of_ok hrun').mpr ⟨hinside', .pure _⟩
    · have hrest := hreads' (before.push first)
      rw [Array.toList_push, List.append_assoc] at hrest
      rw [List.take_add, List.drop_drop]
      exact hreads.bind hrest

end Takes

/-! Turns. -/

open ExceptionTable

theorem run_cursor (cursor : Nat) :
    (Traced.quiet get : Scan Nat).step.run cursor = .ok cursor cursor := rfl

theorem run_turn_of_short {cursor : Nat} (h : data.length < cursor + SectionHeader.length) :
    (turn data).step.run cursor = .ok ([], false) cursor := by
  unfold turn
  rw [Traced.run_bind_of_ok (run_cursor cursor), if_pos h]
  rfl

theorem exists_header {data : List UInt8} {cursor : Nat}
    (h : cursor + SectionHeader.length ≤ data.length) :
    ∃ kind s0 s1 s2 body, data.drop cursor = kind :: s0 :: s1 :: s2 :: body := by
  have hlength : SectionHeader.length ≤ (data.drop cursor).length := by
    rw [List.length_drop]
    omega
  match hdata : data.drop cursor with
  | kind :: s0 :: s1 :: s2 :: body => exact ⟨kind, s0, s1, s2, body, rfl⟩
  | [] | [_] | [_, _] | [_, _, _] =>
    rw [hdata] at hlength
    simp only [List.length_cons, List.length_nil, SectionHeader.length] at hlength
    omega

section
variable {data} {cursor : Nat} {kind s0 s1 s2 : UInt8} {body : List UInt8}
  (h : data.drop cursor = kind :: s0 :: s1 :: s2 :: body)
include h

theorem length_of_header : data.length = cursor + SectionHeader.length + body.length := by
  have hlength := congrArg List.length h
  simp only [List.length_drop, List.length_cons] at hlength
  unfold SectionHeader.length
  omega

theorem run_kind (s : Nat) : (Traced.startingAt cursor (uint8 data) : Scan UInt8).step.run s =
    .ok kind s := by
  have hlength := length_of_header h
  unfold SectionHeader.length at hlength
  have hrun : (uint8 data).step.run cursor = .ok kind (cursor + 1) := by
    refine (Traced.run_bind_of_ok (run_number (by omega))).trans ?_
    rw [h]
    show EStateM.Result.ok (UInt8.ofNat kind.toNat) _ = _
    rw [UInt8.ofNat_toNat]
  exact Traced.run_startingAt_of_ok hrun s

/-- The size is where the header of the section has it, in either layout. -/
theorem run_size (s : Nat) : (size data cursor (.ofKind kind)).step.run s =
    .ok (SectionHeader.ofBytes kind s0 s1 s2).size s := by
  have hlength := length_of_header h
  unfold SectionHeader.length at hlength
  unfold SectionLayout.ofKind SectionHeader.ofBytes
  by_cases hfat : (kind &&& 0x40 != 0) = true
  · simp only [hfat, if_true]
    have hword := @run_number cursor 4 data (by omega)
    refine (Traced.run_bind_of_ok (Traced.run_startingAt_of_ok hword s)).trans ?_
    rw [h]
    have hdiv : (kind.toNat + 256 * LittleEndian.decode [s0, s1, s2]) / 0x100 =
        LittleEndian.decode [s0, s1, s2] := by
      have hkind := kind.toNat_lt
      omega
    exact congrArg (EStateM.Result.ok · s) hdiv
  · simp only [hfat]
    have hbehind : data.drop (cursor + 1) = s0 :: s1 :: s2 :: body := by
      rw [← List.drop_drop, h]
      rfl
    have hbyte := @run_number (cursor + 1) 1 data (by omega)
    rw [hbehind] at hbyte
    exact Traced.run_startingAt_of_ok hbyte s

theorem run_turn_of_noTable (htable : kind &&& 0x01 = 0) :
    (turn data).step.run cursor = .ok ([], false) cursor := by
  have hlength := length_of_header h
  unfold turn
  rw [Traced.run_bind_of_ok (run_cursor cursor), if_neg (by omega),
    Traced.run_bind_of_ok (run_kind h cursor), if_pos htable]
  rfl

theorem run_turn_of_size (htable : kind &&& 0x01 ≠ 0) {header : SectionHeader}
    (hheader : SectionHeader.ofBytes kind s0 s1 s2 = header)
    (hsize : header.size < SectionHeader.length ∨ data.length < cursor + header.size) :
    (turn data).step.run cursor =
      .error (.malformed (.sectionSize header.layout header.size)) cursor := by
  have hlength := length_of_header h
  subst hheader
  unfold turn
  rw [Traced.run_bind_of_ok (run_cursor cursor), if_neg (by omega),
    Traced.run_bind_of_ok (run_kind h cursor), if_neg htable,
    Traced.run_bind_of_ok (run_size h cursor), if_pos hsize]
  rfl

theorem run_turn_of_section (htable : kind &&& 0x01 ≠ 0) {header : SectionHeader}
    (hheader : SectionHeader.ofBytes kind s0 s1 s2 = header)
    (hsize : ¬(header.size < SectionHeader.length ∨ data.length < cursor + header.size))
    {found : List ExceptionClause} {offset : Nat}
    (hfound : (clauses data header.layout header.clauseCount).step.run
      (cursor + SectionHeader.length) = .ok found offset) :
    (turn data).step.run cursor = .ok (found, header.more) (cursor + header.stride) := by
  have hlength := length_of_header h
  subst hheader
  unfold turn
  rw [Traced.run_bind_of_ok (run_cursor cursor), if_neg (by omega),
    Traced.run_bind_of_ok (run_kind h cursor), if_neg htable,
    Traced.run_bind_of_ok (run_size h cursor), if_neg hsize]
  exact (Traced.run_bind_of_ok (Traced.run_startingAt_of_ok hfound cursor)).trans rfl

end

/-! What a turn looks at. -/

theorem size_inside {cursor : Nat} (h : cursor + SectionHeader.length ≤ data.length)
    (layout : SectionLayout) (s : Nat) : (size data cursor layout).Notes (·.Inside data) s := by
  unfold SectionHeader.length at h
  cases layout with
  | fat => exact .bind (.startingAt (number_inside h)) fun _ _ _ => .pure _
  | small => exact .startingAt (number_inside (by omega))

theorem turn_inside (cursor : Nat) : (turn data).Notes (·.Inside data) cursor := by
  unfold turn
  refine .bind (.quiet _) fun start _ hstart => ?_
  cases hstart
  refine .ite (fun _ => .pure _) fun hroom => ?_
  replace hroom := Nat.le_of_not_lt hroom
  have hkind : (uint8 data).Notes (·.Inside data) cursor :=
    .bind (number_inside (Nat.le_trans (by unfold SectionHeader.length; omega) hroom))
      fun _ _ _ => .pure _
  refine .bind (.startingAt hkind) fun kind _ _ => .ite (fun _ => .pure _) fun _ => ?_
  refine .bind (size_inside data hroom _ _) fun size _ _ => .ite ?_ fun hsize => ?_
  · exact fun _ => .bind (.quiet _) fun _ _ hthrow => by cases hthrow
  · have hfits : cursor + SectionHeader.length +
        (size - SectionHeader.length) / ExceptionClause.size (.ofKind kind) *
          ExceptionClause.size (.ofKind kind) ≤ data.length := by
      have hle := Nat.div_mul_le_self (size - SectionHeader.length)
        (ExceptionClause.size (.ofKind kind))
      omega
    obtain ⟨_, _, _, hinside, _⟩ := Takes.clausesGo _ _ _ hfits
    exact .bind (.startingAt hinside) fun _ _ _ => .bind (.quiet _) fun _ _ _ => .pure _

/-- So many turns look at nothing else either. -/
theorem scan_inside (turns cursor : Nat) : (scan data turns).Notes (·.Inside data) cursor := by
  induction turns generalizing cursor with
  | zero => exact .pure _
  | succ turns ih =>
    refine .bind (turn_inside data cursor) fun result next _ => .ite (fun _ => ?_) fun _ => .pure _
    exact .bind (ih next) fun _ _ _ => .pure _

/-! What a turn comes to. -/

/-- The header of an exception table stands at the cursor. -/
def HeaderAt (cursor : Nat) (header : SectionHeader) : Prop :=
  ∃ kind s0 s1 s2 body, data.drop cursor = kind :: s0 :: s1 :: s2 :: body ∧
    SectionHeader.ofBytes kind s0 s1 s2 = header ∧ header.isExceptionTable = true

/-- The three ways of a turn, each with what the reader of a chain does from there on. -/
inductive Turned (cursor : Nat) : Prop
  | stops (hrun : (turn data).step.run cursor = .ok ([], false) cursor)
    (hchain : ∀ before, readChain (data.drop cursor) before = .ok before)
  | refused (header : SectionHeader) (hheader : HeaderAt data cursor header)
    (hsize : header.size < SectionHeader.length ∨ data.length < cursor + header.size)
    (hrun : (turn data).step.run cursor =
      .error (.malformed (.sectionSize header.layout header.size)) cursor)
    (hchain : ∀ before, readChain (data.drop cursor) before =
      .error (.malformed (.sectionSize header.layout header.size)))
  | goes (found : List ExceptionClause) (more : Bool) (next : Nat)
    (hrun : (turn data).step.run cursor = .ok (found, more) next)
    (hnext : cursor + SectionHeader.length + 12 * found.length ≤ next)
    (hinside : cursor + SectionHeader.length + 12 * found.length ≤ data.length)
    (hchain : ∀ before, readChain (data.drop cursor) before =
      if more then readChain (data.drop next) (before ++ found) else .ok (before ++ found))

/-- A clause takes twelve bytes at least. -/
theorem mul_clauseCount_le (header : SectionHeader) :
    12 * header.clauseCount ≤ header.size - SectionHeader.length := by
  unfold SectionHeader.clauseCount ExceptionClause.size
  cases header.layout <;> dsimp only <;> omega

/-- At a section that is whole, its clauses are read and the turn goes to its end. -/
theorem turned_of_section {cursor : Nat} {kind s0 s1 s2 : UInt8} {body : List UInt8}
    (hdata : data.drop cursor = kind :: s0 :: s1 :: s2 :: body) (htable : kind &&& 0x01 ≠ 0)
    {header : SectionHeader} (hheader : SectionHeader.ofBytes kind s0 s1 s2 = header)
    (hsize : ¬(header.size < SectionHeader.length ∨ data.length < cursor + header.size)) :
    Turned data cursor := by
  have hlength := length_of_header hdata
  have hroom : header.clauseCount * ExceptionClause.size header.layout ≤
      header.size - SectionHeader.length := Nat.div_mul_le_self _ _
  have hbody : data.drop (cursor + SectionHeader.length) = body := by
    rw [← List.drop_drop, hdata]
    rfl
  obtain ⟨found, hfound, hcount, -, hreads⟩ :=
    @Takes.clausesGo data header.layout header.clauseCount
      (cursor + SectionHeader.length) (by omega)
  have hheads : StoredSection.Heads ⟨header, found⟩ (data.drop cursor) := by
    refine ⟨kind, s0, s1, s2, body.take (header.size - SectionHeader.length),
      body.drop (header.size - SectionHeader.length), ?_, hheader, ?_, ?_, ?_⟩
    · rw [List.take_append_drop, hdata]
    · rw [← hheader]
      exact bne_iff_ne.mpr htable
    · rw [List.length_take]
      dsimp only
      omega
    · have hall := hreads #[]
      rw [hbody] at hall
      rw [List.take_take, Nat.min_eq_left hroom]
      exact hall
  have hmost := mul_clauseCount_le header
  have hstride := header.size_le_stride
  refine .goes found header.more (cursor + header.stride)
    (run_turn_of_section hdata htable hheader hsize hfound) (by omega) (by omega) fun before => ?_
  rw [readChain_of_heads hheads, List.drop_drop]

theorem turned (cursor : Nat) : Turned data cursor := by
  by_cases hshort : data.length < cursor + SectionHeader.length
  · refine .stops (run_turn_of_short data hshort) ?_
    refine readChain_of_noTable (noTable_of_length_lt ?_)
    rw [List.length_drop]
    unfold SectionHeader.length at hshort ⊢
    omega
  obtain ⟨kind, s0, s1, s2, body, hdata⟩ := exists_header (Nat.le_of_not_lt hshort)
  by_cases htable : kind &&& 0x01 = 0
  · refine .stops (run_turn_of_noTable hdata htable) ?_
    refine readChain_of_noTable ?_
    intro _ _ _ _ _ h
    rw [hdata] at h
    cases h
    exact bne_eq_false_iff_eq.mpr htable
  have hlength := length_of_header hdata
  generalize hheader : SectionHeader.ofBytes kind s0 s1 s2 = header
  have hmark : header.isExceptionTable = true := by
    rw [← hheader]
    exact bne_iff_ne.mpr htable
  by_cases hsize : header.size < SectionHeader.length ∨ data.length < cursor + header.size
  · refine .refused header ⟨kind, s0, s1, s2, body, hdata, hheader, hmark⟩ hsize
      (run_turn_of_size hdata htable hheader hsize) fun before => ?_
    rw [hdata]
    exact readChain_of_size hheader hmark (hsize.imp_right fun h => by omega) before
  · exact turned_of_section data hdata htable hheader hsize

/-- A turn stops where it is, or goes on by four bytes at least. -/
theorem turn_ok {cursor next : Nat} {found : List ExceptionClause} {more : Bool}
    (h : (turn data).step.run cursor = .ok (found, more) next) :
    found = [] ∧ more = false ∧ next = cursor ∨ cursor + 4 ≤ next := by
  cases turned data cursor with
  | stops hrun =>
    rw [hrun] at h
    cases h
    exact .inl ⟨rfl, rfl, rfl⟩
  | refused _ _ _ hrun =>
    rw [hrun] at h
    cases h
  | goes _ _ _ hrun hnext =>
    rw [hrun] at h
    cases h
    unfold SectionHeader.length at hnext
    exact .inr (by omega)

/-- A turn fails for nothing but the size that stands there. -/
theorem turn_error {cursor t : Nat} {e : Error} (h : (turn data).step.run cursor = .error e t) :
    ∃ header, HeaderAt data cursor header ∧
      e = .malformed (.sectionSize header.layout header.size) ∧
      (header.size < 4 ∨ data.length < cursor + header.size) := by
  cases turned data cursor with
  | stops hrun | goes _ _ _ hrun =>
    rw [hrun] at h
    cases h
  | refused header hheader hsize hrun =>
    rw [hrun] at h
    cases h
    exact ⟨header, hheader, rfl, hsize⟩

/-! The whole scan. -/

theorem appendList_append {α : Type} (before : Array α) (found behind : List α) :
    before ++ found ++ behind = before ++ (found ++ behind) := by
  apply Array.ext'
  simp

/-- By induction on the turns: as many as there can be sections in the bytes behind the cursor
are enough. The scan finds what the reader of a chain finds, in twelve bytes a clause at least. -/
theorem scan_cases {turns cursor : Nat} (hpos : 0 < turns)
    (hturns : data.length < cursor + 4 * turns) :
    (∃ found next, (scan data turns).step.run cursor = .ok (some found) next ∧
      12 * found.length ≤ data.length - cursor ∧
      ∀ before, readChain (data.drop cursor) before = .ok (before ++ found)) ∨
    ∃ position header, HeaderAt data position header ∧
      (header.size < SectionHeader.length ∨ data.length < position + header.size) ∧
      (scan data turns).step.run cursor =
        .error (.malformed (.sectionSize header.layout header.size)) position ∧
      ∀ before, readChain (data.drop cursor) before =
        .error (.malformed (.sectionSize header.layout header.size)) := by
  induction turns generalizing cursor with
  | zero => exact absurd hpos (Nat.lt_irrefl 0)
  | succ turns ih =>
    unfold scan
    cases turned data cursor with
    | stops hrun hchain =>
      refine .inl ⟨[], cursor, Traced.run_bind_of_ok hrun, Nat.zero_le _, fun before => ?_⟩
      rw [hchain, Array.appendList_nil]
    | refused header hheader hsize hrun hchain =>
      exact .inr ⟨cursor, header, hheader, hsize, Traced.run_bind_of_error hrun, hchain⟩
    | goes found more next hrun hnext hinside hchain =>
      unfold SectionHeader.length at hnext hinside
      rw [Traced.run_bind_of_ok hrun]
      cases more with
      | false => exact .inl ⟨found, next, rfl, by omega, fun before => hchain before⟩
      | true =>
        rcases ih (by omega) (show data.length < next + 4 * turns by omega) with
          ⟨behind, last, hrest, hlength, hreads⟩ | ⟨position, header, hheader, hsize, hrest, hreads⟩
        · refine .inl ⟨found ++ behind, last, (Traced.run_bind_of_ok hrest).trans rfl, ?_, ?_⟩
          · rw [List.length_append]
            omega
          · intro before
            rw [hchain, if_pos rfl, hreads, appendList_append]
        · refine .inr ⟨position, header, hheader, hsize, Traced.run_bind_of_error hrest, ?_⟩
          intro before
          rw [hchain, if_pos rfl, hreads]

/-- More turns than the data has words are enough. -/
theorem ofBytes_cases {turns : Nat} (h : data.length / 4 < turns) :
    (∃ found next, (scan data turns).step.run 0 = .ok (some found) next ∧
      12 * found.length ≤ data.length ∧ ofBytes data = .ok ⟨found, #[]⟩) ∨
    ∃ position header, HeaderAt data position header ∧
      (header.size < SectionHeader.length ∨ data.length < position + header.size) ∧
      (scan data turns).step.run 0 =
        .error (.malformed (.sectionSize header.layout header.size)) position ∧
      ofBytes data = .error (.malformed (.sectionSize header.layout header.size)) := by
  rcases @scan_cases data turns 0 (by omega) (by omega) with
    ⟨found, next, hrun, hlength, hreads⟩ | ⟨position, header, hheader, hsize, hrun, hreads⟩
  · refine .inl ⟨found, next, hrun, hlength, except_bind_ok.mpr ⟨_, hreads #[], ?_⟩⟩
    simp
    rfl
  · refine .inr ⟨position, header, hheader, hsize, hrun, ?_⟩
    exact except_bind_error.mpr (.inl (hreads #[]))

/-- Whatever the data is, from any cursor a turn looks only at the data, goes on by four bytes
at least or stops where it is, and fails only for the size that the header there states. More
turns than the data has words are enough for the scan, which looks only at the data as well and
gives what is read of the data; so that fails only for the size of a section, too, and finds a
clause for twelve bytes at most. -/
theorem ofBytes_safe (data : List UInt8) :
    (∀ cursor, (turn data).Notes (·.Inside data) cursor ∧
      (∀ found more next, (turn data).step.run cursor = .ok (found, more) next →
        found = [] ∧ more = false ∧ next = cursor ∨ cursor + 4 ≤ next) ∧
      ∀ e t, (turn data).step.run cursor = .error e t →
        ∃ header, HeaderAt data cursor header ∧
          e = .malformed (.sectionSize header.layout header.size) ∧
          (header.size < 4 ∨ data.length < cursor + header.size)) ∧
    (∀ turns, data.length / 4 < turns → (scan data turns).Notes (·.Inside data) 0 ∧
      (scan data turns).step.outcome 0 =
        (ofBytes data).map fun table => some table.inherited) ∧
    (∀ e, ofBytes data = .error e → ∃ position header, HeaderAt data position header ∧
      e = .malformed (.sectionSize header.layout header.size) ∧
      (header.size < 4 ∨ data.length < position + header.size)) ∧
    ∀ table, ofBytes data = .ok table → 12 * table.inherited.length ≤ data.length := by
  have hread := ofBytes_cases data (Nat.lt_succ_self _)
  refine ⟨fun cursor => ⟨turn_inside data cursor, fun _ _ _ => turn_ok data,
    fun _ _ => turn_error data⟩, ?_, ?_, ?_⟩
  · intro turns hturns
    refine ⟨scan_inside data turns 0, ?_⟩
    rcases ofBytes_cases data hturns with
      ⟨found, next, hrun, -, hok⟩ | ⟨position, header, -, -, hrun, herror⟩
    · rw [outcome_of_ok hrun, hok]
      rfl
    · rw [outcome_of_error hrun, herror]
      rfl
  · intro e he
    rcases hread with ⟨_, _, -, -, hok⟩ | ⟨position, header, hheader, hsize, -, herror⟩
    · rw [hok] at he
      cases he
    · rw [herror] at he
      cases he
      exact ⟨position, header, hheader, rfl, hsize⟩
  · intro table htable
    rcases hread with ⟨found, _, -, hlength, hok⟩ | ⟨_, _, -, -, -, herror⟩
    · rw [hok] at htable
      cases htable
      exact hlength
    · rw [herror] at htable
      cases htable

/-- A small section of five bytes, which is filled up behind the end of the data and still
announces another one. -/
def padded : List UInt8 := [0x81, 0x05, 0x00, 0x00, 0x00]

theorem ofBytes_safe_padded :
    (turn padded).step.run 0 = .ok ([], true) 8 ∧
    (([] : List ExceptionClause) = [] ∧ true = false ∧ 8 = 0 ∨ 0 + 4 ≤ 8) ∧
    padded.length / 4 < 2 ∧ (scan padded 2).Notes (·.Inside padded) 0 ∧
    (ofBytes padded).map (fun table => some table.inherited) = .ok (some []) := by
  obtain ⟨hturn, hscan, -⟩ := ofBytes_safe padded
  obtain ⟨hinside, houtcome⟩ := hscan 2 (by decide)
  exact ⟨rfl, (hturn 0).2.1 [] true 8 rfl, by decide, hinside, houtcome.symm.trans rfl⟩

end SectionScan

end CilInstrument
