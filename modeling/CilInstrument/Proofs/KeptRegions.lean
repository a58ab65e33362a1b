import Mathlib.Data.List.Forall2
import CilInstrument.Proofs.ClauseNesting
import CilInstrument.Proofs.FinalStep
import CilInstrument.Proofs.OwnCode

/- The regions of a method keep their code. The own code stands in the written body as it
   was, at one offset, and the clauses that are about it are moved by just that offset: the
   bytes in their ranges are the same as before (`regions_keep_their_code`), whatever was
   emitted in front of the own code, behind it and around it. -/
namespace CilInstrument

open Step

namespace CodeRange

/-- The bytes of the code in the range. -/
def bytesOf (r : CodeRange) (code : List UInt8) : List UInt8 :=
  (code.drop r.start).take (r.stop - r.start)

/-- A range of code that stands in other code has the same bytes there. -/
theorem bytesOf_moved {code newCode : List UInt8} {offset : Nat} {r : CodeRange}
    (hcode : (newCode.drop offset).take code.length = code) (hin : r.stop ≤ code.length) :
    bytesOf ⟨r.start + offset, r.stop + offset⟩ newCode = r.bytesOf code := by
  have hlength : r.stop + offset - (r.start + offset) = r.stop - r.start := by omega
  calc bytesOf ⟨r.start + offset, r.stop + offset⟩ newCode
      = ((newCode.drop offset).drop r.start).take (r.stop - r.start) := by
        rw [List.drop_drop, Nat.add_comm offset, bytesOf, hlength]
    _ = (((newCode.drop offset).take code.length).drop r.start).take (r.stop - r.start) := by
        rw [List.drop_take, List.take_take, Nat.min_eq_left (by omega)]
    _ = r.bytesOf code := by rw [hcode, bytesOf]

end CodeRange

/-- The clause `c` of `code` and the clause `c'` of `newCode`, where that code stands at
`offset`, are about the same bytes, and say the same about them. -/
structure ExceptionClause.KeepsCode (offset : Nat) (code newCode : List UInt8)
    (c c' : ExceptionClause) : Prop where
  flags : c'.flags = c.flags
  tryLength : c'.tryLength = c.tryLength
  handlerLength : c'.handlerLength = c.handlerLength
  tryCode : c'.tryRange.bytesOf newCode = c.tryRange.bytesOf code
  handlerCode : c'.handlerRange.bytesOf newCode = c.handlerRange.bytesOf code
  exceptionClass : c.isFilter = false → c'.classOrFilter = c.classOrFilter
  filter : c.isFilter = true → c'.classOrFilter.toNat = c.classOrFilter.toNat + offset
  filterCode : c.isFilter = true → c.classOrFilter.toNat < code.length →
    newCode[c'.classOrFilter.toNat]? = code[c.classOrFilter.toNat]?

theorem ExceptionClause.MovedBy.keepsCode {offset : Nat} {code newCode : List UInt8}
    {c c' : ExceptionClause} (h : MovedBy offset c c')
    (hcode : (newCode.drop offset).take code.length = code) (hin : c.LiesIn code.length) :
    c.KeepsCode offset code newCode c' where
  flags := h.flags
  tryLength := h.tryLength
  handlerLength := h.handlerLength
  tryCode := by
    have hrange : c'.tryRange = ⟨c.tryRange.start + offset, c.tryRange.stop + offset⟩ := by
      simp only [tryRange, h.tryOffset, h.tryLength, Nat.add_right_comm]
    rw [hrange]
    exact CodeRange.bytesOf_moved hcode hin.1
  handlerCode := by
    have hrange : c'.handlerRange = ⟨c.handlerRange.start + offset, c.handlerRange.stop + offset⟩ := by
      simp only [handlerRange, h.handlerOffset, h.handlerLength, Nat.add_right_comm]
    rw [hrange]
    exact CodeRange.bytesOf_moved hcode hin.2
  exceptionClass := h.exceptionClass
  filter := h.filter
  filterCode := by
    intro hfilter hlt
    calc newCode[c'.classOrFilter.toNat]?
        = ((newCode.drop offset).take code.length)[c.classOrFilter.toNat]? := by
          rw [List.getElem?_take_of_lt hlt, List.getElem?_drop, h.filter hfilter, Nat.add_comm]
      _ = code[c.classOrFilter.toNat]? := by rw [hcode]

section
variable {σ : Type} [Host σ]

/-- Whatever was called in between: if the method's own code was spliced in and the final step
goes through, the written body has the original clauses first, in their order, and each is
about the same bytes as before and says the same about them. -/
theorem Instrument.regions_keep_their_code {config : Config} {setting : Setting σ}
    {s₀ s' : Session σ} {calls : List (Call σ)} (hstart : Session.start config setting = .ok s₀)
    (hspliced : .splice s₀.target.ownCode ∈ (Call.run calls s₀).builder.code.items.toList)
    (hfinish : finishFat.run (Call.run calls s₀) = .ok () s') :
    let s := Call.run calls s₀
    ∃ data stored original token host written result moved,
      (Host.methodBytes : Ask σ (List UInt8)).run setting.host = .ok data stored ∧
      MethodBody.decompose data = .ok original ∧ s.NamesLocals token host ∧
      (Host.writeMethod written).run host = .ok () s'.host ∧
      MethodBody.decompose written = .ok result ∧
      (result.code.drop s.builder.ownCodeOffset).take original.code.length = original.code ∧
      result.exceptions.inherited = moved ++ s.builder.exceptions.added.toList ∧
      ((∀ c ∈ original.exceptions.inherited, c.LiesIn original.code.length) →
        List.Forall₂ (ExceptionClause.KeepsCode s.builder.ownCodeOffset original.code result.code)
          original.exceptions.inherited moved) := by
  intro s
  obtain ⟨data, stored, original, hbytes, horiginal, hown, hcontinues, -⟩ :=
    Session.exists_continues hstart calls
  obtain ⟨code, sections, token, host, hcode, hsections, hsize, hnames, hwrite⟩ :=
    finishFat_ok hfinish
  obtain ⟨result, hresult⟩ := rewritten_of_parts token hcontinues.header hcontinues.isFat
    hcontinues.known.inherited hcontinues.sound hcode hsections hsize
  obtain ⟨moved, hmoved, htable⟩ := hresult.clauses
  -- splicing noted the offset by which the clauses are moved
  have honce : s.builder.SplicedOnce :=
    .of_changes hcontinues.changes (.start original.exceptions)
  rw [hown] at hspliced
  have hkept := Builder.ownCode_of_bytes honce hspliced hresult.code
  refine ⟨data, stored, original, token, host, _, result, moved, hbytes, horiginal, hnames, hwrite,
    hresult.decomposed, hkept, by rw [htable], fun hin => ?_⟩
  have hboth := (List.forall₂_and_left _ _).mpr ⟨hin, hmoved⟩
  exact hboth.imp fun c c' h => h.2.keepsCode hkept h.1

end

/-- A region of its own around the method's own code. -/
def enclosingCalls : List (Call StoredMethod) :=
  [.emit (Action.block .startTry), .emit (Action.block (.plain .nop)), .placeOwnCode,
   .emit (Action.block .endTry), .emit (Action.block .startHandler),
   .emit (Action.block (.plain .pop)), .emit (Action.block (.plain .rethrow)),
   .emit (Action.block .endHandler)]

/-- The finally clause of the guarded method moves by one byte, and the enclosing region is
behind it. -/
theorem Instrument.regions_keep_their_code_guarded :
    ∃ s₀ s', Session.start .default ⟨StoredMethod.guarded, .empty⟩ = .ok s₀ ∧
      .splice s₀.target.ownCode ∈ (Call.run enclosingCalls s₀).builder.code.items.toList ∧
      finishFat.run (Call.run enclosingCalls s₀) = .ok () s' ∧
      ∃ original result moved added, MethodBody.decompose StoredMethod.guarded.body = .ok original ∧
        MethodBody.decompose s'.host.body = .ok result ∧
        result.exceptions.inherited = moved ++ added ∧
        added.length = 1 ∧ moved.length = 1 ∧
        List.Forall₂ (ExceptionClause.KeepsCode 1 original.code result.code)
          original.exceptions.inherited moved := by
  have hruns : guardedSession?.map (fun s₀ =>
      let s := Call.run enclosingCalls s₀
      finishFat.succeeds s && (s.builder.code.items.toList.contains (.splice s₀.target.ownCode) &&
        (s.builder.ownCodeOffset == 1 && s.builder.exceptions.added.toList.length == 1))) =
          some true := by
    decide +kernel
  obtain ⟨s₀, hstart, hchecks⟩ := exists_ok_of_map (x := Session.start _ _) hruns
  obtain ⟨hsucceeds, hchecks⟩ := (Bool.and_eq_true _ _).mp hchecks
  obtain ⟨hcontains, hchecks⟩ := (Bool.and_eq_true _ _).mp hchecks
  obtain ⟨hoffset, hadded⟩ := (Bool.and_eq_true _ _).mp hchecks
  obtain ⟨_, hfinish⟩ := exists_ok_of_succeeds hsucceeds
  have hspliced := List.contains_iff_mem.mp hcontains
  obtain ⟨data, stored, original, token, host, written, result, moved, hbytes, horiginal, -,
    hwrite, hresult, -, hclauses, hkeeps⟩ := regions_keep_their_code hstart hspliced hfinish
  cases hbytes
  replace horiginal : MethodBody.decompose StoredMethod.guarded.body = .ok original := horiginal
  -- the one clause of the method lies in its seven bytes of code
  have hparts : (MethodBody.decompose StoredMethod.guarded.body).toOption.map (fun body =>
      (body.exceptions.inherited, body.code.length)) = some ([⟨2, 0, 4, 4, 1, 0⟩], 7) := by
    decide +kernel
  rw [horiginal] at hparts
  obtain ⟨hinherited, hlength⟩ := Prod.mk.inj (Option.some.inj hparts)
  have hin : ∀ c ∈ original.exceptions.inherited, c.LiesIn original.code.length := by
    rw [hinherited, hlength]
    intro c hc
    rw [List.mem_singleton.mp hc]
    exact ⟨by decide, by decide⟩
  have hkept := hkeeps hin
  obtain ⟨-, hstored⟩ := EStateM.Result.ok.inj hwrite
  rw [eq_of_beq hoffset] at hkept
  refine ⟨s₀, _, hstart, hspliced, hfinish, original, result, moved, _, horiginal, ?_, hclauses,
    eq_of_beq hadded, ?_, hkept⟩
  · rw [← hstored]
    exact hresult
  · rw [← hkept.length_eq, hinherited]
    rfl

end CilInstrument
