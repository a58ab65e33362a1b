import Mathlib.Logic.Relation
import CilInstrument.Proofs.JumpTargets

/- Where the entries of the code end up. A change adds at most one entry, at the end
   (`Change.grown`), and the method's own code is one of them at most, at the offset that is
   noted for it (`Builder.SplicedOnce`). If there are bytes, they are the linked ones, however
   long the code is (`Builder.bytes_ok`), so the own code stands in them unchanged
   (`Builder.ownCode_of_bytes`). -/
namespace CilInstrument

open Step

/-! Linking succeeded. -/

namespace Linking

variable {place : Nat → Option Nat} {offset : Nat}

/-- The label of the jump stands somewhere, and the distance to it can be written. -/
structure Linked (place : Nat → Option Nat) (j : JumpSite) : Prop where
  placed : place j.label ≠ none
  low : Int32.minValue.toInt ≤ distance place j
  high : distance place j ≤ Int32.maxValue.toInt

theorem bytes_ok {item : CodeItem} {bytes : List UInt8} (h : item.bytes place offset = .ok bytes) :
    bytes = linkedItem place offset item ∧ ∀ j ∈ sites offset [item], Linked place j := by
  cases item with
  | instruction op operand effect =>
    cases h
    exact ⟨rfl, fun j hj => absurd hj List.not_mem_nil⟩
  | splice code =>
    cases h
    exact ⟨rfl, fun j hj => absurd hj List.not_mem_nil⟩
  | jump op label =>
    simp only [CodeItem.bytes] at h
    cases hplace : place label with
    | none =>
      rw [hplace] at h
      cases h
    | some target =>
      rw [hplace] at h
      obtain ⟨more, hmore, h⟩ := except_bind_ok.mp h
      obtain ⟨next, hnext, hdistance⟩ := except_bind_ok.mp hmore
      have hsize : next = (⟨offset, op, label⟩ : JumpSite).next := by
        unfold codeOffset at hnext
        split at hnext
        · rw [← Except.ok.inj hnext]
          simp only [JumpSite.next, JumpSite.operand, CodeItem.size, Nat.add_assoc]
        · cases hnext
      subst hsize
      have hsite : distance place ⟨offset, op, label⟩ =
          (target : Int) - ((⟨offset, op, label⟩ : JumpSite).next : Nat) := by
        unfold distance
        simp only [hplace, Option.getD_some]
      simp only at hdistance
      split at hdistance
      · next hrange =>
        cases hdistance
        cases h
        refine ⟨by rw [linkedItem, hsite], fun j hj => ?_⟩
        rw [List.mem_singleton.mp hj]
        refine ⟨by simp [hplace], ?_, ?_⟩
        · rw [hsite]
          exact hrange.1
        · rw [hsite]
          exact hrange.2
      · cases hdistance

/-- What encoding gives are the linked bytes. -/
theorem resolve_ok {items : List CodeItem} {out : List UInt8}
    (h : resolve place offset items = .ok out) :
    out = linked place offset items ∧ ∀ j ∈ sites offset items, Linked place j := by
  induction items generalizing offset out with
  | nil =>
    cases h
    exact ⟨rfl, fun j hj => absurd hj List.not_mem_nil⟩
  | cons item rest ih =>
    obtain ⟨first, hfirst, h⟩ := except_bind_ok.mp h
    obtain ⟨more, hmore, h⟩ := except_bind_ok.mp h
    cases h
    obtain ⟨rfl, hlinked⟩ := bytes_ok hfirst
    obtain ⟨rfl, hrest⟩ := ih hmore
    refine ⟨rfl, fun j hj => ?_⟩
    rw [sites_cons] at hj
    rcases List.mem_append.mp hj with hj | hj
    · exact hlinked j hj
    · exact hrest j hj

end Linking

/-- There are bytes only if all regions are closed, and then they are the linked ones. -/
theorem Builder.bytes_ok {b : Builder} {out : List UInt8} (h : b.bytes = .ok out) :
    b.regions = [] ∧ out = Linking.linked b.place 0 b.code.items.toList ∧
      ∀ j ∈ b.sites, Linking.Linked b.place j := by
  unfold Builder.bytes at h
  split at h
  · cases h
  · next hregions =>
    obtain ⟨code, hcode, h⟩ := except_bind_ok.mp h
    cases h
    rw [Linking.code_bytes_eq] at hcode
    obtain ⟨more, hmore, rfl⟩ := except_map_ok.mp hcode
    exact ⟨hregions, Linking.resolve_ok hmore⟩

/-! One entry more. -/

namespace CodeItem

/-- An entry that is appended as an instruction or a jump, with the operand that its opcode
takes. -/
inductive IsCoded : CodeItem → Prop
  | instruction {op : OpCode} {operand : Operand} {effect : StackEffect}
    (hkind : operand.kind = op.operand) : IsCoded (.instruction op operand effect)
  | jump {op : OpCode} {label : Nat} (hkind : op.operand = .branchTarget) :
    IsCoded (.jump op label)

end CodeItem

/-- How far a change gets with the code: no entry, an instruction or a jump, or the own code,
whose offset is noted. -/
inductive Grown (b b' : Builder) : Prop
  | nothing (hitems : b'.code.items.toList = b.code.items.toList)
    (hsplice : b'.spliceOffset = b.spliceOffset)
  | coded {item : CodeItem} (hcoded : item.IsCoded)
    (hitems : b'.code.items.toList = b.code.items.toList ++ [item])
    (hsplice : b'.spliceOffset = b.spliceOffset)
  | spliced {ownCode : List UInt8} (hnone : b.spliceOffset = none)
    (hitems : b'.code.items.toList = b.code.items.toList ++ [.splice ownCode])
    (hsplice : b'.spliceOffset = some b.size)

theorem Change.grown {b b' : Builder} (h : Change b b') : Grown b b' := by
  have hpush : ∀ {c : Code} (item : CodeItem), c = b.code →
      (c.push item).items.toList = b.code.items.toList ++ [item] := by
    intro c item hc
    rw [hc]
    exact Array.toList_push
  cases h with
  | nothing => exact .nothing rfl rfl
  | refused _ _ => exact .nothing rfl rfl
  | @instruction op effect operand _ hkind _ _ => exact .coded (.instruction hkind) (hpush _ rfl) rfl
  | createLabel => exact .nothing rfl rfl
  | @jump op label hop _ _ _ _ =>
    exact .coded (.jump hop) (hpush (.jump op label) (Builder.code_meet _ _))
      (Builder.spliceOffset_meet _ _)
  | @place label _ _ _ _ =>
    refine .nothing ?_ (Builder.spliceOffset_resume _ _)
    exact congrArg (fun c : Code => c.items.toList) (Builder.code_resume b label)
  | @resume label _ _ _ =>
    refine .nothing ?_ (Builder.spliceOffset_resume _ _)
    exact congrArg (fun c : Code => c.items.toList) (Builder.code_resume b label)
  | region h =>
    cases h <;> exact .nothing rfl rfl
  | splice hnone _ _ => exact .spliced hnone (hpush _ rfl) rfl

/-! The method's own code. -/

/-- The code consists of instructions and jumps, and of the own code where it is noted. -/
inductive Builder.SplicedOnce (b : Builder) : Prop
  | never (hnone : b.spliceOffset = none) (hcoded : ∀ item ∈ b.code.items.toList, item.IsCoded)
  | once {before behind : List CodeItem} {ownCode : List UInt8}
    (hoffset : b.spliceOffset = some (CodeItem.totalSize before))
    (hitems : b.code.items.toList = before ++ .splice ownCode :: behind)
    (hbefore : ∀ item ∈ before, item.IsCoded) (hbehind : ∀ item ∈ behind, item.IsCoded)

theorem Builder.SplicedOnce.start (exceptions : ExceptionTable) :
    (Builder.start exceptions).SplicedOnce :=
  .never rfl fun _ h => absurd h List.not_mem_nil

theorem Change.splicedOnce {b b' : Builder} (h : Change b b') (hb : b.SplicedOnce) :
    b'.SplicedOnce := by
  cases h.grown with
  | nothing hsame hsplice =>
    cases hb with
    | never hnone hcoded => exact .never (hsplice.trans hnone) (hsame ▸ hcoded)
    | once hoffset hitems hbefore hbehind =>
      exact .once (hsplice.trans hoffset) (hsame.trans hitems) hbefore hbehind
  | @coded item hcoded hmore hsplice =>
    have hlast : ∀ {items : List CodeItem}, (∀ x ∈ items, x.IsCoded) →
        ∀ x ∈ items ++ [item], x.IsCoded := by
      intro items hitems x hx
      rcases List.mem_append.mp hx with hx | hx
      · exact hitems x hx
      · rw [List.mem_singleton.mp hx]
        exact hcoded
    cases hb with
    | never hnone hall =>
      refine .never (hsplice.trans hnone) ?_
      rw [hmore]
      exact hlast hall
    | once hoffset hitems hbefore hbehind =>
      have hparts := (hmore.trans (congrArg (· ++ [item]) hitems)).trans (List.append_assoc _ _ _)
      exact .once (hsplice.trans hoffset) hparts hbefore (hlast hbehind)
  | spliced hnone hmore hsplice =>
    cases hb with
    | never _ hcoded =>
      rw [Builder.size_eq] at hsplice
      exact .once hsplice hmore hcoded fun _ h => absurd h List.not_mem_nil
    | once hoffset _ _ _ =>
      rw [hnone] at hoffset
      cases hoffset

theorem Builder.SplicedOnce.of_changes {b b' : Builder}
    (h : Relation.ReflTransGen Change b b') (hb : b.SplicedOnce) : b'.SplicedOnce := by
  induction h with
  | refl => exact hb
  | tail _ hchange ih => exact hchange.splicedOnce ih

/-- In the bytes the own code stands as it was spliced in. -/
theorem Builder.ownCode_of_bytes {b : Builder} {out ownCode : List UInt8} (hb : b.SplicedOnce)
    (hspliced : .splice ownCode ∈ b.code.items.toList) (h : b.bytes = .ok out) :
    (out.drop b.ownCodeOffset).take ownCode.length = ownCode := by
  have hnot : ∀ {items : List CodeItem}, (∀ item ∈ items, item.IsCoded) →
      .splice ownCode ∉ items := by
    intro items hcoded hmem
    cases hcoded _ hmem
  cases hb with
  | never _ hcoded => exact absurd hspliced (hnot hcoded)
  | @once before behind code hoffset hitems hbefore hbehind =>
    -- there is no other own code than the one that is asked for
    have hcode : code = ownCode := by
      rw [hitems] at hspliced
      rcases List.mem_append.mp hspliced with hmem | hmem
      · exact absurd hmem (hnot hbefore)
      · rcases List.mem_cons.mp hmem with heq | hmem
        · exact (CodeItem.splice.inj heq).symm
        · exact absurd hmem (hnot hbehind)
    subst hcode
    obtain ⟨-, rfl, -⟩ := bytes_ok h
    rw [ownCodeOffset, hoffset, Option.getD_some, hitems]
    exact Linking.splice_linked

end CilInstrument
