import CilInstrument.Proofs.Growth
import CilInstrument.Proofs.Linking

/- Where control goes in finished code, and the stack depths along its paths. The graph
   is read off the code alone: an entry that does not end a path leads to the entry
   behind it, a jump leads to the place of its label, and the method's own code is one
   node that no path leaves. Paths start at the first entry with nothing on the stack,
   and at the start of every handler with the exception. -/
namespace CilInstrument

/-- The entry `item` stands at position `p`. -/
def Code.ItemAt (c : Code) (p : Nat) (item : CodeItem) : Prop :=
  ∃ before behind, c.items.toList = before ++ item :: behind ∧ CodeItem.totalSize before = p

namespace CodeItem

/-- What executing the entry does to the stack; nothing is said for a jump that empties it. -/
def effect? : CodeItem → Option StackEffect
  | instruction _ _ effect => some effect
  | jump op _ => op.fixedEffect?
  | splice _ => some ⟨0, 0⟩

/-- Values that have to be on the stack. -/
def pops (item : CodeItem) : Nat := (item.effect?.map (·.pops)).getD 0

/-- The depth behind the entry, which may be negative if too little is on the stack. -/
def depthAfter (item : CodeItem) (depth : Int) : Int :=
  match item.effect? with
  | some effect => depth - effect.pops + effect.pushes
  | none => 0

/-- Control goes on to the entry behind it. -/
def falls : CodeItem → Bool
  | instruction op _ _ | jump op _ => !op.flow.isTerminal
  | splice _ => false

theorem pops_jump {op : OpCode} {label : Nat} (hop : op.operand = .branchTarget) :
    (jump op label).pops = op.branchPops := by
  cases op <;> first | rfl | cases hop

/-- A jump pops what decides over it; `leave` empties the stack. -/
theorem depthAfter_jump {op : OpCode} {label : Nat} (hop : op.operand = .branchTarget)
    (depth : Int) :
    (jump op label).depthAfter depth = if op.flow = .leave then 0 else depth - op.branchPops := by
  cases op with
  | br | brfalse | brtrue | leave =>
    simp [depthAfter, effect?, OpCode.fixedEffect?, OpCode.flow, OpCode.branchPops]
  | _ => cases hop

/-- Only the method's own code may be empty. -/
theorem size_pos {item : CodeItem} (h : item ≠ .splice []) : 0 < item.size := by
  have hencoding : ∀ op : OpCode, 0 < op.encoding.length := by
    intro op
    cases op <;> decide
  cases item with
  | instruction op operand effect => exact Nat.add_pos_left (hencoding op) _
  | jump op label => exact Nat.add_pos_left (hencoding op) _
  | splice code =>
    cases code with
    | nil => exact absurd rfl h
    | cons first rest => exact Nat.succ_pos _

end CodeItem

namespace Code

theorem itemAt_push {c : Code} {item item' : CodeItem} {p : Nat} :
    (c.push item').ItemAt p item ↔ c.ItemAt p item ∨ p = c.size ∧ item = item' := by
  have hitems : (c.push item').items.toList = c.items.toList ++ [item'] := Array.toList_push
  constructor
  · intro h
    obtain ⟨before, behind, hsplit, rfl⟩ := h
    rw [hitems] at hsplit
    rcases List.eq_nil_or_concat behind with rfl | ⟨behind, last, rfl⟩
    · obtain ⟨hbefore, hlast⟩ := List.append_inj' hsplit rfl
      right
      refine ⟨?_, by cases hlast; rfl⟩
      rw [c.size_eq, hbefore]
    · left
      rw [List.concat_eq_append, ← List.cons_append, ← List.append_assoc] at hsplit
      exact ⟨before, behind, (List.append_inj' hsplit rfl).1, rfl⟩
  · intro h
    rcases h with ⟨before, behind, hsplit, rfl⟩ | ⟨rfl, rfl⟩
    · refine ⟨before, behind ++ [item'], ?_, rfl⟩
      rw [hitems, hsplit, List.append_assoc, List.cons_append]
    · exact ⟨c.items.toList, [], hitems, c.size_eq.symm⟩

theorem ItemAt.bound {c : Code} {p : Nat} {item : CodeItem} (h : c.ItemAt p item) :
    p + item.size ≤ c.size := by
  obtain ⟨before, behind, hsplit, rfl⟩ := h
  rw [c.size_eq, hsplit, CodeItem.totalSize_append, CodeItem.totalSize_cons]
  omega

theorem ItemAt.mem {c : Code} {p : Nat} {item : CodeItem} (h : c.ItemAt p item) :
    item ∈ c.items.toList := by
  obtain ⟨before, behind, hsplit, -⟩ := h
  rw [hsplit]
  exact List.mem_append_right _ List.mem_cons_self

end Code

/-- Some path comes to position `p` with `depth` values on the stack. -/
inductive Reaches (b : Builder) (handlers : List Nat) : (p : Nat) → (depth : Int) → Prop
  | entry : Reaches b handlers 0 0
  | handler {p : Nat} : p ∈ handlers → Reaches b handlers p 1
  | fall {p : Nat} {depth : Int} {item : CodeItem} :
    Reaches b handlers p depth → b.code.ItemAt p item → item.falls = true →
    Reaches b handlers (p + item.size) (item.depthAfter depth)
  | jump {p target label : Nat} {depth : Int} {op : OpCode} :
    Reaches b handlers p depth → b.code.ItemAt p (.jump op label) →
    b.place label = some target →
    Reaches b handlers target ((CodeItem.jump op label).depthAfter depth)

end CilInstrument
