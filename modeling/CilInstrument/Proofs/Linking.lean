import CilInstrument.Code.Builder

/- The bytes of a list of entries. `Linking.emitted` are the bytes as they are when the
   entries are appended, with zeros where the distance of a jump belongs; `Linking.linked`
   are the bytes with the distances filled in. The two have the same length and differ in
   the operands of jumps only (`getElem?_linked`); an operand leads from the instruction
   behind the jump to the place of its label (`operand_linked`); no two operands overlap
   (`sites_pairwise`). Encoding gives the linked bytes, or names the first jump whose
   label is not placed (`resolve_eq`), as long as all positions are below 0x80000000; and
   wherever they are, it is the same as to patch what was emitted (`patch_emitted`). -/
namespace CilInstrument

namespace LittleEndian

/-- Two's complement is read back, if the number fits. -/
theorem decodeInt_encodeInt {n : Int} (hlow : -2147483648 ≤ n) (hhigh : n < 2147483648) :
    decodeInt (encodeInt 4 n) = n := by
  have hwidth : capacity 4 = 4294967296 := rfl
  have hlt : (n % (4294967296 : Nat)).toNat < capacity 4 := by omega
  unfold decodeInt encodeInt
  rw [length_encode, hwidth, decode_encode_of_lt hlt, Int.toNat_of_nonneg (by omega)]
  unfold Int.bmod
  dsimp only
  split <;> omega

end LittleEndian

/-- Where a jump stands in the code, and the label that it goes to. -/
structure JumpSite where
  position : Nat
  op : OpCode
  label : Nat
  deriving Repr, DecidableEq

namespace JumpSite

/-- Where the operand starts. -/
def operand (j : JumpSite) : Nat := j.position + j.op.encoding.length

/-- Where the instruction behind the jump starts. -/
def next (j : JumpSite) : Nat := j.operand + OperandKind.branchTarget.size

/-- The byte at a position belongs to the operand. -/
def Covers (j : JumpSite) (i : Nat) : Prop := j.operand ≤ i ∧ i < j.next

instance (j : JumpSite) (i : Nat) : Decidable (j.Covers i) :=
  inferInstanceAs (Decidable (_ ∧ _))

end JumpSite

namespace Linking

open CodeItem (totalSize totalSize_nil totalSize_cons totalSize_append)

variable {place : Nat → Option Nat} {offset : Nat}

/-- The jumps among entries of which the first stands at `offset`. -/
def sites : (offset : Nat) → List CodeItem → List JumpSite
  | _, [] => []
  | offset, .jump op label :: rest =>
    ⟨offset, op, label⟩ :: sites (offset + (CodeItem.jump op label).size) rest
  | offset, item :: rest => sites (offset + item.size) rest

/-- An entry as it is appended: the distance of a jump is not known yet. -/
def emittedItem : CodeItem → List UInt8
  | .instruction op operand _ => op.encoding ++ operand.bytes
  | .jump op _ => op.encoding ++ List.replicate OperandKind.branchTarget.size 0
  | .splice code => code

def emitted (items : List CodeItem) : List UInt8 := items.flatMap emittedItem

/-- From the instruction behind a jump to the place of its label. -/
def distance (place : Nat → Option Nat) (j : JumpSite) : Int :=
  ((place j.label).getD 0 : Nat) - (j.next : Int)

/-- An entry at `offset` with its distance filled in. -/
def linkedItem (place : Nat → Option Nat) (offset : Nat) : CodeItem → List UInt8
  | .jump op label => op.encoding ++ LittleEndian.encodeInt 4 (distance place ⟨offset, op, label⟩)
  | item => emittedItem item

def linked (place : Nat → Option Nat) : (offset : Nat) → List CodeItem → List UInt8
  | _, [] => []
  | offset, item :: rest => linkedItem place offset item ++ linked place (offset + item.size) rest

/-! Sizes. -/

@[simp] theorem length_emittedItem (item : CodeItem) : (emittedItem item).length = item.size := by
  cases item <;> simp [emittedItem, CodeItem.size]

@[simp] theorem length_linkedItem (item : CodeItem) :
    (linkedItem place offset item).length = item.size := by
  cases item with
  | jump op label => simp [linkedItem, CodeItem.size, OperandKind.size]
  | instruction op operand effect => exact length_emittedItem (.instruction op operand effect)
  | splice code => rfl

theorem length_emitted (items : List CodeItem) : (emitted items).length = totalSize items := by
  induction items with
  | nil => rfl
  | cons item rest ih =>
    rw [totalSize_cons, ← ih, ← length_emittedItem item, emitted, List.flatMap_cons]
    exact List.length_append

theorem length_linked (items : List CodeItem) :
    (linked place offset items).length = totalSize items := by
  induction items generalizing offset with
  | nil => rfl
  | cons item rest ih => rw [linked, List.length_append, length_linkedItem, ih, totalSize_cons]

theorem linked_append (first second : List CodeItem) :
    linked place offset (first ++ second) =
      linked place offset first ++ linked place (offset + totalSize first) second := by
  induction first generalizing offset with
  | nil => rfl
  | cons item rest ih =>
    rw [List.cons_append, linked, linked, ih, List.append_assoc, totalSize_cons, Nat.add_assoc]

/-! The jumps of the code. -/

theorem sites_cons (item : CodeItem) (rest : List CodeItem) :
    sites offset (item :: rest) = sites offset [item] ++ sites (offset + item.size) rest := by
  cases item <;> rfl

theorem sites_append (first second : List CodeItem) :
    sites offset (first ++ second) =
      sites offset first ++ sites (offset + totalSize first) second := by
  induction first generalizing offset with
  | nil => rfl
  | cons item rest ih =>
    rw [List.cons_append, sites_cons, ih, sites_cons _ rest, List.append_assoc, totalSize_cons,
      Nat.add_assoc]

/-- A jump of the code is an entry of the code. -/
theorem exists_of_mem_sites {items : List CodeItem} {j : JumpSite} (h : j ∈ sites offset items) :
    ∃ before behind, items = before ++ .jump j.op j.label :: behind ∧
      j.position = offset + totalSize before := by
  induction items generalizing offset with
  | nil => cases h
  | cons item rest ih =>
    rw [sites_cons] at h
    rcases List.mem_append.mp h with h | h
    · cases item with
      | jump op label =>
        rw [List.mem_singleton.mp h]
        exact ⟨[], rest, rfl, rfl⟩
      | instruction op operand effect => cases h
      | splice code => cases h
    · obtain ⟨before, behind, rfl, hposition⟩ := ih h
      refine ⟨item :: before, behind, rfl, ?_⟩
      rw [hposition, totalSize_cons, Nat.add_assoc]

/-- The operands lie in the code. -/
theorem bounds_of_mem_sites {items : List CodeItem} {j : JumpSite} (h : j ∈ sites offset items) :
    offset ≤ j.position ∧ j.next ≤ offset + totalSize items := by
  obtain ⟨before, behind, rfl, hposition⟩ := exists_of_mem_sites h
  have hsize : j.next = j.position + (CodeItem.jump j.op j.label).size := by
    simp only [JumpSite.next, JumpSite.operand, CodeItem.size, Nat.add_assoc]
  rw [totalSize_append, totalSize_cons, hsize]
  omega

/-- The operands of two jumps do not overlap. -/
theorem sites_pairwise (items : List CodeItem) :
    (sites offset items).Pairwise fun j k => j.next ≤ k.operand := by
  induction items generalizing offset with
  | nil => exact .nil
  | cons item rest ih =>
    rw [sites_cons]
    refine List.pairwise_append.mpr ⟨?_, ih, ?_⟩
    · cases item with
      | jump op label => exact List.pairwise_singleton _ _
      | instruction op operand effect => exact .nil
      | splice code => exact .nil
    -- the first entry ends before the others begin
    · intro j hj k hk
      have hfirst := (bounds_of_mem_sites hj).2
      have hrest := (bounds_of_mem_sites hk).1
      rw [totalSize_cons, totalSize_nil] at hfirst
      have hoperand : k.position ≤ k.operand := Nat.le_add_right _ _
      omega

/-! What linking fills in. -/

/-- The operand of every jump is its distance. -/
theorem operand_linked {items : List CodeItem} {j : JumpSite} (h : j ∈ sites offset items) :
    ((linked place offset items).drop (j.operand - offset)).take 4 =
      LittleEndian.encodeInt 4 (distance place j) := by
  obtain ⟨before, behind, rfl, hposition⟩ := exists_of_mem_sites h
  have hj : (⟨offset + totalSize before, j.op, j.label⟩ : JumpSite) = j := by rw [← hposition]
  have hskip : j.operand - offset =
      (linked place offset before ++ j.op.encoding).length := by
    rw [List.length_append, length_linked, JumpSite.operand, hposition]
    omega
  rw [linked_append, linked, linkedItem, hj, hskip, List.append_assoc, ← List.append_assoc,
    List.drop_left, List.take_append_of_le_length (by simp), List.take_of_length_le (by simp)]

/-- The spliced code stands in the bytes as it is. -/
theorem splice_linked {before behind : List CodeItem} {code : List UInt8} :
    ((linked place offset (before ++ .splice code :: behind)).drop (totalSize before)).take
      code.length = code := by
  have hskip : totalSize before = (linked place offset before).length := (length_linked before).symm
  rw [linked_append, hskip, List.drop_left]
  show (code ++ _).take code.length = code
  exact List.take_left

/-- Every byte outside of the operands is the one that was emitted. -/
theorem getElem?_linked {items : List CodeItem} {i : Nat}
    (h : ∀ j ∈ sites offset items, ¬j.Covers (offset + i)) :
    (linked place offset items)[i]? = (emitted items)[i]? := by
  induction items generalizing offset i with
  | nil => rfl
  | cons item rest ih =>
    have hemitted : emitted (item :: rest) = emittedItem item ++ emitted rest := rfl
    rw [sites_cons] at h
    rw [linked, hemitted]
    by_cases hi : i < item.size
    · rw [List.getElem?_append_left (by simpa using hi),
        List.getElem?_append_left (by simpa using hi)]
      cases item with
      | instruction op operand effect => rfl
      | splice code => rfl
      | jump op label =>
        -- the byte is none of the operand, so it is one of the opcode
        have hopcode : i < op.encoding.length := by
          have hcovers := h ⟨offset, op, label⟩ (by simp [sites])
          simp only [JumpSite.Covers, JumpSite.next, JumpSite.operand, not_and] at hcovers
          simp only [CodeItem.size] at hi
          omega
        simp only [linkedItem, emittedItem]
        rw [List.getElem?_append_left hopcode, List.getElem?_append_left hopcode]
    · have hle : item.size ≤ i := Nat.le_of_not_lt hi
      rw [List.getElem?_append_right (by simpa using hle),
        List.getElem?_append_right (by simpa using hle), length_linkedItem, length_emittedItem]
      apply ih
      intro j hj
      have hshift : offset + item.size + (i - item.size) = offset + i := by omega
      rw [hshift]
      exact h j (List.mem_append_right _ hj)

/-! Encoding. -/

/-- The bytes of entries of which the first stands at `offset`. -/
def resolve (place : Nat → Option Nat) : (offset : Nat) → List CodeItem → Except Error (List UInt8)
  | _, [] => .ok []
  | offset, item :: rest => do
    let first ← item.bytes place offset
    let more ← resolve place (offset + item.size) rest
    return first ++ more

/-- A jump whose label is not placed. -/
def Unplaced (place : Nat → Option Nat) (j : JumpSite) : Bool := (place j.label).isNone

theorem bytes_of_jump {op : OpCode} {label target : Nat} (hplace : place label = some target)
    (hnext : (⟨offset, op, label⟩ : JumpSite).next < 0x80000000) (htarget : target < 0x80000000) :
    (CodeItem.jump op label).bytes place offset =
      .ok (linkedItem place offset (.jump op label)) := by
  have hsize : offset + (CodeItem.jump op label).size = (⟨offset, op, label⟩ : JumpSite).next := by
    simp only [JumpSite.next, JumpSite.operand, CodeItem.size, Nat.add_assoc]
  have hlow : Int32.minValue.toInt = -0x80000000 := by decide
  have hhigh : Int32.maxValue.toInt = 0x80000000 - 1 := by decide
  simp only [CodeItem.bytes, hplace, hsize, linkedItem, distance, Option.getD_some]
  generalize (⟨offset, op, label⟩ : JumpSite).next = next at hnext
  -- neither check can fail below 0x80000000
  have hoffset : codeOffset next = .ok next := if_pos (by omega)
  have hrange : Int32.minValue.toInt ≤ (target : Int) - next ∧
      (target : Int) - next ≤ Int32.maxValue.toInt := by
    rw [hlow, hhigh]
    omega
  have hdistance : CodeItem.jumpBytes target next =
      .ok (LittleEndian.encodeInt 4 ((target : Int) - next)) := by
    unfold CodeItem.jumpBytes
    rw [hoffset]
    exact if_pos hrange
  rw [hdistance]
  rfl

/-- As long as all positions are below 0x80000000, encoding gives the linked bytes, or names
the first jump whose label is not placed. -/
theorem resolve_eq (items : List CodeItem) (hsize : offset + totalSize items < 0x80000000)
    (hplace : ∀ label p, place label = some p → p < 0x80000000) :
    resolve place offset items =
      match (sites offset items).find? (Unplaced place) with
      | some j => .error (.unknownLabel j.label)
      | none => .ok (linked place offset items) := by
  induction items generalizing offset with
  | nil => rfl
  | cons item rest ih =>
    rw [totalSize_cons] at hsize
    have hrest := @ih (offset + item.size) (by omega)
    -- entries that do not jump are taken as they are
    have hkept : ∀ bytes, sites offset [item] = [] → item.bytes place offset = .ok bytes →
        linkedItem place offset item = bytes →
        resolve place offset (item :: rest) =
          match (sites offset (item :: rest)).find? (Unplaced place) with
          | some j => .error (.unknownLabel j.label)
          | none => .ok (linked place offset (item :: rest)) := by
      intro bytes hsites hbytes hlinked
      rw [resolve, hbytes, hrest, sites_cons, hsites, List.nil_append, linked, hlinked]
      cases (sites (offset + item.size) rest).find? (Unplaced place) <;> rfl
    cases item with
    | instruction op operand effect => exact hkept _ rfl rfl rfl
    | splice code => exact hkept _ rfl rfl rfl
    | jump op label =>
      cases hlabel : place label with
      | none =>
        have hfirst : (sites offset (.jump op label :: rest)).find? (Unplaced place) =
            some ⟨offset, op, label⟩ := by
          rw [sites, List.find?_cons_of_pos]
          simp [Unplaced, hlabel]
        have hbytes : (CodeItem.jump op label).bytes place offset = .error (.unknownLabel label) := by
          simp only [CodeItem.bytes, hlabel]
        rw [resolve, hbytes, hfirst]
        rfl
      | some target =>
        have hnext : (⟨offset, op, label⟩ : JumpSite).next < 0x80000000 := by
          simp only [JumpSite.next, JumpSite.operand]
          simp only [CodeItem.size] at hsize
          omega
        have hskip : (sites offset (.jump op label :: rest)).find? (Unplaced place) =
            (sites (offset + (CodeItem.jump op label).size) rest).find? (Unplaced place) := by
          rw [sites, List.find?_cons_of_neg]
          simp [Unplaced, hlabel]
        rw [resolve, bytes_of_jump hlabel hnext (hplace label target hlabel), hrest, hskip, linked]
        cases (sites (offset + (CodeItem.jump op label).size) rest).find? (Unplaced place) <;> rfl

theorem length_of_jumpBytes {target next : Nat} {distance : List UInt8}
    (h : CodeItem.jumpBytes target next = .ok distance) : distance.length = 4 := by
  unfold CodeItem.jumpBytes at h
  cases hnext : codeOffset next with
  | error e =>
    rw [hnext] at h
    cases h
  | ok n =>
    rw [hnext] at h
    simp only [bind, Except.bind] at h
    split at h
    · cases h
      exact LittleEndian.length_encodeInt 4 _
    · cases h

theorem length_of_bytes {item : CodeItem} {bytes : List UInt8}
    (h : item.bytes place offset = .ok bytes) : bytes.length = item.size := by
  cases item with
  | instruction op operand effect =>
    cases h
    simp [CodeItem.size]
  | splice code =>
    cases h
    rfl
  | jump op label =>
    simp only [CodeItem.bytes] at h
    split at h
    · cases h
    · next target _ =>
      cases hdistance : CodeItem.jumpBytes target (offset + (CodeItem.jump op label).size) with
      | error e =>
        rw [hdistance] at h
        cases h
      | ok distance =>
        rw [hdistance] at h
        cases h
        rw [List.length_append, length_of_jumpBytes hdistance]
        rfl

/-- Encoding keeps count of the position by what it wrote. -/
theorem foldlM_bytes (items : List CodeItem) (out : Array UInt8) :
    items.foldlM (fun out item => do
      let more ← item.bytes place out.size
      return out.appendList more) out =
      (resolve place out.size items).map fun more => out ++ more.toArray := by
  induction items generalizing out with
  | nil =>
    show Except.ok out = Except.ok (out ++ #[])
    rw [Array.append_empty]
  | cons item rest ih =>
    rw [List.foldlM_cons, resolve]
    cases hbytes : item.bytes place out.size with
    | error e => rfl
    | ok first =>
      -- the next entry is encoded at the size of what is written so far
      have hsize : (out.appendList first).size = out.size + item.size := by
        have hlist : (out.appendList first).toList = out.toList ++ first := Array.toList_appendList
        rw [← length_of_bytes hbytes, ← Array.length_toList, hlist, List.length_append,
          Array.length_toList]
      refine (ih (out.appendList first)).trans ?_
      rw [hsize]
      cases resolve place (out.size + item.size) rest with
      | error e => rfl
      | ok more =>
        show Except.ok (out.appendList first ++ more.toArray) =
          Except.ok (out ++ (first ++ more).toArray)
        congr 1
        apply Array.ext'
        simp

theorem code_bytes_eq (c : Code) :
    c.bytes place = (resolve place 0 c.items.toList).map List.toArray := by
  rw [Code.bytes, ← Array.foldlM_toList]
  refine (foldlM_bytes c.items.toList #[]).trans ?_
  cases resolve place 0 c.items.toList with
  | error e => rfl
  | ok more =>
    show Except.ok (#[] ++ more.toArray) = Except.ok more.toArray
    rw [Array.empty_append]

/-! Patching. -/

/-- Bytes with others in place of those from `position` on. -/
def overwrite (position : Nat) (new bytes : List UInt8) : List UInt8 :=
  bytes.take position ++ new ++ bytes.drop (position + new.length)

/-- Emitted bytes with the distances put in, jump by jump. -/
def patch (place : Nat → Option Nat) : List JumpSite → List UInt8 → Except Error (List UInt8)
  | [], bytes => .ok bytes
  | j :: rest, bytes =>
    match place j.label with
    | none => .error (.unknownLabel j.label)
    | some target => do
      let distance ← CodeItem.jumpBytes target j.next
      patch place rest (overwrite j.operand distance bytes)

theorem overwrite_middle (front old behind : List UInt8) {new : List UInt8}
    (h : new.length = old.length) :
    overwrite front.length new (front ++ old ++ behind) = front ++ new ++ behind := by
  unfold overwrite
  rw [h, ← List.length_append, List.drop_left, List.append_assoc front old, List.take_left]

/-- The distance of a jump takes the place of the zeros behind its opcode. -/
theorem overwrite_jump (op : OpCode) (label : Nat) (rest : List CodeItem) (front : List UInt8)
    {distance : List UInt8} (h : distance.length = 4) :
    overwrite (⟨front.length, op, label⟩ : JumpSite).operand distance
        (front ++ emitted (.jump op label :: rest)) =
      front ++ (op.encoding ++ distance) ++ emitted rest := by
  have hmiddle := overwrite_middle (front ++ op.encoding)
    (List.replicate OperandKind.branchTarget.size 0) (emitted rest)
    (h.trans List.length_replicate.symm)
  rw [List.length_append] at hmiddle
  rw [← List.append_assoc front, ← hmiddle]
  simp [JumpSite.operand, emitted, emittedItem]

/-- Patching finishes the first entry as encoding does, and goes on behind it. -/
theorem patch_cons (item : CodeItem) (rest : List CodeItem) (front : List UInt8) :
    patch place (sites front.length (item :: rest)) (front ++ emitted (item :: rest)) =
      item.bytes place front.length >>= fun first =>
        patch place (sites (front.length + item.size) rest) (front ++ first ++ emitted rest) := by
  cases item with
  | instruction op operand effect =>
    exact congrArg (patch place _) (List.append_assoc front _ (emitted rest)).symm
  | splice code => exact congrArg (patch place _) (List.append_assoc front code (emitted rest)).symm
  | jump op label =>
    have hnext : (⟨front.length, op, label⟩ : JumpSite).next =
        front.length + (CodeItem.jump op label).size := by
      simp only [JumpSite.next, JumpSite.operand, CodeItem.size, Nat.add_assoc]
    rw [sites, patch, hnext]
    simp only [CodeItem.bytes]
    cases place label with
    | none => rfl
    | some target =>
      dsimp only
      cases hdistance : CodeItem.jumpBytes target
          (front.length + (CodeItem.jump op label).size) with
      | error e => rfl
      | ok distance =>
        have hlength := length_of_jumpBytes hdistance
        exact congrArg (patch place _) (overwrite_jump op label rest front hlength)

/-- Patching what was emitted, behind bytes that are finished, is encoding: it gives the same
bytes, or fails for the same jump and reason. -/
theorem patch_emitted (items : List CodeItem) (front : List UInt8) :
    patch place (sites front.length items) (front ++ emitted items) =
      (resolve place front.length items).map (front ++ ·) := by
  induction items generalizing front with
  | nil => rfl
  | cons item rest ih =>
    rw [patch_cons, resolve]
    cases hbytes : item.bytes place front.length with
    | error e => rfl
    | ok first =>
      -- the first entry is finished, and the others stand behind it
      have hrest := ih (front ++ first)
      rw [List.length_append, length_of_bytes hbytes] at hrest
      refine hrest.trans ?_
      cases resolve place (front.length + item.size) rest with
      | error e => rfl
      | ok more => exact congrArg Except.ok (List.append_assoc front first more)

end Linking

end CilInstrument
