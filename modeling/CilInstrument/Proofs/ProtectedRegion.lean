import CilInstrument.Proofs.EnclosedCode
import CilInstrument.Proofs.InstructionStream
import CilInstrument.Proofs.StoredMethod

/- What becomes of a protected region whose bodies use regions themselves. The marks that
   the region sets act on whatever region is innermost then. So it is the innermost region
   at the end of the try body that gets the handler, and the innermost one at the end of
   the handler whose clause is recorded; if that region is in no state for it, the region is
   refused. Bodies that leave the open regions as they found them get what they expect: the
   regions of before, and behind the clauses of the bodies a clause for just this code
   (`Emit.tryCatch_regions`). A try body may end in a try block of its own, though: it is
   not refused, and the region of the call stays open (`Emit.regions_of_reopened`). -/
namespace CilInstrument

open Step

/-- The clause of a try block in `[start, stop)` that is handled in `[stop, finish)`. -/
structure ExceptionClause.Covers (c : ExceptionClause) (start stop finish : Nat)
    (exceptionClass : Token) : Prop where
  flags : c.flags = typed
  tryStart : c.tryOffset.toNat = start
  tryStop : c.tryOffset.toNat + c.tryLength.toNat = stop
  handlerStart : c.handlerOffset.toNat = stop
  handlerStop : c.handlerOffset.toNat + c.handlerLength.toNat = finish
  exceptionClass : c.classOrFilter = exceptionClass.value

theorem Build.regionClause_covers {start stop finish : Nat} (hstart : start ≤ stop)
    (hstop : stop ≤ finish) (hfinish : finish < 0x100000000) (exceptionClass : Token) :
    (regionClause start stop stop finish exceptionClass).Covers start stop finish
      exceptionClass := by
  have htoNat : ∀ {n : Nat}, n < 0x100000000 → (UInt32.ofNat n).toNat = n := fun hn =>
    UInt32.toNat_ofNat_of_lt' hn
  constructor
  · rfl
  · exact htoNat (by omega)
  · show (UInt32.ofNat start).toNat + (UInt32.ofNat (stop - start)).toNat = stop
    rw [htoNat (by omega), htoNat (by omega)]
    omega
  · exact htoNat (by omega)
  · show (UInt32.ofNat stop).toNat + (UInt32.ofNat (finish - stop)).toNat = finish
    rw [htoNat (by omega), htoNat (by omega)]
    omega
  · rfl

/-! Marks that are set. -/

namespace Build

variable {b b' : Builder}

/-- A `leave` to a new label is never refused. -/
theorem run_leave (b : Builder) :
    ∃ b', (jump .leave).run b = .ok b.labels.size b' ∧ Builder.Adding 5 b b' ∧
      b'.reachable = false := by
  have hlanding : b.addLabel.landing .leave ≤ Builder.depthLimit := Nat.zero_le _
  have hjump := (jumpTo_ok (u := ()) (b := b.addLabel)).mpr
    ⟨rfl, b.lt_size_addLabel, fun _ => Nat.zero_le _, hlanding, fun _ => .inl b.expected_new, rfl⟩
  have hadding := jumpTo_adding hjump
  refine ⟨_, by rw [run_jump, hjump], ?_, (jumped_of_ok hjump).reachable.trans (Bool.and_false _)⟩
  exact ⟨hadding.regions, hadding.exceptions, hadding.size_eq⟩

/-- Only an open try block can be ended, -/
theorem endTry_refused (h : ∀ start outer, b.regions ≠ .inTry start :: outer) :
    ∃ fault, endTry.run b = .error (.malformed fault) b := by
  rw [run_endTry]
  split
  · split
    · next start outer hregions => exact absurd hregions (h start outer)
    · exact ⟨_, rfl⟩
  · exact ⟨_, rfl⟩

/-- and only an open handler. -/
theorem checkHandlerEnd_refused
    (h : ∀ start stop first outer, b.regions ≠ .inHandler start stop first :: outer) :
    ∃ fault, checkHandlerEnd.run b = .error (.malformed fault) b := by
  rw [run_checkHandlerEnd]
  split
  · split
    · next start stop first outer hregions => exact absurd hregions (h start stop first outer)
    · exact ⟨_, rfl⟩
  · exact ⟨_, rfl⟩

end Build

namespace Emit

variable {σ : Type} [Resolver σ]

/-! The parts of a protected region. -/

omit [Resolver σ] in
/-- The try block, its `leave`, and the marks in front of the handler. -/
def openHandler (body : Emit σ Unit) : Emit σ Nat := do
  build Build.startTry
  body
  let exit ← build (Build.jump .leave)
  build Build.endTry
  build Build.startHandler
  return exit

omit [Resolver σ] in
/-- How a handler is left. -/
def leaveHandler (rethrow : Bool) (exit : Nat) : Emit σ Unit := do
  if rethrow then build (Build.plain .rethrow)
  build (Build.jumpTo .leave exit)

theorem tryCatch_eq (body handler : Emit σ Unit) (rethrow : Bool) :
    tryCatch body handler rethrow = (do
      let exit ← openHandler body
      handler
      leaveHandler rethrow exit
      endHandler
      build (Build.placeLabel exit)) := by
  unfold tryCatch openHandler leaveHandler
  cases rethrow <;> simp

/-- How the try block was left and the handler opened. -/
structure Opens (body : Emit σ Unit) (s left opened : Emission σ) : Prop where
  run : ∃ exit, (openHandler body).run s = .ok exit opened
  body : (do build Build.startTry; body : Emit σ Unit).run s = .ok () left
  /-- The innermost region is in its try block, and gets the handler. -/
  region : ∃ start outer, left.builder.regions = .inTry start :: outer ∧
    opened.builder.regions =
      .inHandler start opened.builder.size opened.builder.size :: outer
  exceptions : opened.builder.exceptions = left.builder.exceptions
  size_eq : opened.builder.size = left.builder.size + 5

omit [Resolver σ] in
theorem openHandler_ok {body : Emit σ Unit} {s opened : Emission σ} {exit : Nat}
    (h : (openHandler body).run s = .ok exit opened) : ∃ left, Opens body s left opened := by
  have hrun : ∃ exit, (openHandler body).run s = .ok exit opened := ⟨exit, h⟩
  obtain ⟨_, entered, hstart, h⟩ := run_bind_ok.mp h
  obtain ⟨_, left, hbody, h⟩ := run_bind_ok.mp h
  obtain ⟨_, gone, hleave, h⟩ := run_bind_ok.mp h
  obtain ⟨_, ended, hend, h⟩ := run_bind_ok.mp h
  obtain ⟨_, _, hopen, h⟩ := run_bind_ok.mp h
  cases h
  obtain ⟨b, hjump, hadding, -⟩ := Build.run_leave left.builder
  have hgone : gone.builder = b := by
    have hleave := (build_ok.mp hleave).2
    rw [hjump] at hleave
    cases hleave
    rfl
  obtain ⟨start, outer, hregions, -, -, hended⟩ := Build.endTry_ok.mp (build_ok.mp hend).2
  obtain ⟨start', stop', outer', hafter, -, hopened⟩ :=
    Build.startHandler_ok.mp (build_ok.mp hopen).2
  rw [hended] at hafter
  cases hafter
  have hfirst : (do build Build.startTry; body : Emit σ Unit).run s = .ok () left :=
    run_bind_ok.mpr ⟨_, entered, hstart, hbody⟩
  refine ⟨left, hrun, hfirst, ⟨start, outer, ?_, ?_⟩, ?_, ?_⟩
  · rw [← hadding.regions, ← hgone, hregions]
  · rw [hopened, hended]
    rfl
  · rw [hopened, hended]
    show gone.builder.exceptions = _
    rw [hgone, hadding.exceptions]
  · rw [hopened, hended]
    show gone.builder.size = _
    rw [hgone, hadding.size_eq]

omit [Resolver σ] in
/-- A try body at whose end no try block is the innermost region is refused. -/
theorem openHandler_refused {body : Emit σ Unit} {s left : Emission σ}
    (hbody : (do build Build.startTry; body : Emit σ Unit).run s = .ok () left)
    (hopen : ∀ start outer, left.builder.regions ≠ .inTry start :: outer) :
    ∃ fault t, (openHandler body).run s = .error (.malformed fault) t := by
  obtain ⟨_, entered, hstart, hbody⟩ := run_bind_ok.mp hbody
  obtain ⟨b, hleave, hadding, -⟩ := Build.run_leave left.builder
  obtain ⟨fault, hend⟩ := Build.endTry_refused (b := b) (by
    rw [hadding.regions]
    exact hopen)
  refine ⟨fault, ⟨left.host, b⟩, ?_⟩
  unfold openHandler
  simp only [EStateM.run_bind, hstart, hbody, run_build, hleave, hend]

omit [Resolver σ] in
theorem leaveHandler_ok {rethrow : Bool} {exit : Nat} {s t : Emission σ}
    (h : (leaveHandler rethrow exit).run s = .ok () t) :
    t.host = s.host ∧
      Builder.Adding ((if rethrow then 2 else 0) + 5) s.builder t.builder := by
  unfold leaveHandler at h
  cases rethrow with
  | false =>
    obtain ⟨hhost, hjump⟩ := build_ok.mp h
    exact ⟨hhost, Build.jumpTo_adding hjump⟩
  | true =>
    obtain ⟨_, thrown, hthrow, h⟩ := run_bind_ok.mp h
    obtain ⟨hhost, hthrow⟩ := build_ok.mp hthrow
    obtain ⟨hhost', hjump⟩ := build_ok.mp h
    obtain ⟨effect, _, heffect, hemit⟩ := run_bind_ok.mp hthrow
    obtain ⟨-, rfl⟩ := run_ofExcept_ok.mp heffect
    obtain ⟨-, -, hthrown⟩ := Build.emit_ok.mp hemit
    have hadding := Build.jumpTo_adding hjump
    refine ⟨hhost'.trans hhost, ⟨?_, ?_, ?_⟩⟩
    · rw [hadding.regions, hthrown]
      rfl
    · rw [hadding.exceptions, hthrown]
      rfl
    · rw [hadding.size_eq, hthrown]
      rfl

/-- How the handler was ended. -/
structure Ends (closed t : Emission σ) (rethrow : Bool) : Prop where
  /-- The innermost region is in its handler, and it is the one whose clause is recorded. -/
  region : ∃ start stop first token,
    closed.builder.regions = .inHandler start stop first :: t.builder.regions ∧
    (Resolver.typeToken RuntimeLibrary.exceptionType).run closed.host = .ok token t.host ∧
    t.builder.exceptions = closed.builder.exceptions.add
      (Build.regionClause start stop first t.builder.size token)
  size_eq : t.builder.size = closed.builder.size + (if rethrow then 2 else 0) + 5
  size_lt : t.builder.size < 0x100000000

theorem ends_of_ok {rethrow : Bool} {exit : Nat} {closed t : Emission σ}
    (h : (do leaveHandler rethrow exit; endHandler; build (Build.placeLabel exit) :
      Emit σ Unit).run closed = .ok () t) : Ends closed t rethrow := by
  obtain ⟨_, gone, hleave, h⟩ := run_bind_ok.mp h
  obtain ⟨_, ended, hend, hplace⟩ := run_bind_ok.mp h
  obtain ⟨hhost, hgone⟩ := leaveHandler_ok hleave
  obtain ⟨hkept, hplace⟩ := build_ok.mp hplace
  have hplaced := Build.placeLabel_adding hplace
  obtain ⟨_, checked, hcheck, hend⟩ := run_bind_ok.mp hend
  obtain ⟨token, asked, hask, hend⟩ := run_bind_ok.mp hend
  obtain ⟨hchecked, hcheck⟩ := build_ok.mp hcheck
  obtain ⟨-, -, -, -, -, -, -, hsame⟩ := Build.checkHandlerEnd_ok.mp hcheck
  obtain ⟨htoken, hasked⟩ := ask_ok.mp hask
  obtain ⟨hended, hend⟩ := build_ok.mp hend
  obtain ⟨start, stop, first, outer, hregions, -, hsize, hclause⟩ := Build.endHandler_ok hend
  have hbuilder : asked.builder = gone.builder := hasked.trans hsame
  have htsize : t.builder.size = gone.builder.size := by
    rw [hplaced.size_eq, hclause, ← hbuilder]
    rfl
  refine ⟨⟨start, stop, first, token, ?_, ?_, ?_⟩, ?_, ?_⟩
  · rw [hplaced.regions, hclause, ← hgone.regions, ← hbuilder, hregions]
  · rw [hkept, hended, ← hhost, ← hchecked]
    exact htoken
  · rw [hplaced.exceptions, hclause, ← hgone.exceptions, htsize, ← hbuilder]
  · rw [htsize, hgone.size_eq, Nat.add_assoc]
  · rw [htsize, ← hbuilder]
    exact hsize

/-- What a caller expects of a protected region. -/
structure Guards (s opened closed t : Emission σ) : Prop where
  regions : t.builder.regions = s.builder.regions
  /-- The last clause is for the code from where the region was entered, -/
  clause : ∃ clause token,
    (Resolver.typeToken RuntimeLibrary.exceptionType).run closed.host = .ok token t.host ∧
    t.builder.exceptions = closed.builder.exceptions.add clause ∧
    clause.Covers s.builder.size opened.builder.size t.builder.size token
  /-- and stands behind those of the bodies, which stand behind those of before. -/
  before : s.builder.exceptions.added.toList <+: closed.builder.exceptions.added.toList

theorem guards_of_balanced {body handler : Emit σ Unit} (hbody : Builds body)
    (hhandler : Builds handler) {rethrow : Bool} {s left opened closed t : Emission σ}
    (hopens : Opens body s left opened) (hrun : handler.run opened = .ok () closed)
    (hends : Ends closed t rethrow)
    (hleft : left.builder.regions = .inTry s.builder.size :: s.builder.regions)
    (hclosed : closed.builder.regions = opened.builder.regions) : Guards s opened closed t := by
  have hfirst : Builds (do build Build.startTry; body : Emit σ Unit) :=
    .bind (.of_madeOf (.base (.marking .startTry))) fun _ => hbody
  have hgrows := hfirst.grows hopens.body
  have hgrows' := hhandler.grows hrun
  have hsizes := hgrows.size_le
  have hsizes' := hgrows'.size_le
  obtain ⟨start, outer, hinTry, hopened⟩ := hopens.region
  obtain ⟨start', stop, first, token, hinHandler, htoken, hexceptions⟩ := hends.region
  -- the region whose clause is recorded is the one that was entered
  rw [hleft] at hinTry
  cases hinTry
  rw [hclosed, hopened] at hinHandler
  obtain ⟨hregion, houter⟩ := List.cons.inj hinHandler
  cases hregion
  have hstart : s.builder.size ≤ opened.builder.size := by
    rw [hopens.size_eq]
    omega
  have hstop : opened.builder.size ≤ t.builder.size := by
    rw [hends.size_eq]
    omega
  refine ⟨houter.symm, ⟨_, token, htoken, hexceptions, ?_⟩, ?_⟩
  · exact Build.regionClause_covers hstart hstop hends.size_lt token
  · refine hgrows.added.trans ?_
    rw [← hopens.exceptions]
    exact hgrows'.added

/-- A protected region that is not refused made its marks on the innermost region, at the
end of the try body and at the end of the handler. If that was the region itself both
times, all is as a caller expects. If there was no region in a state for the mark, the
region is refused as malformed. -/
theorem tryCatch_regions {body handler : Emit σ Unit} (hbody : Builds body)
    (hhandler : Builds handler) (rethrow : Bool) (s : Emission σ) :
    (∀ t, (tryCatch body handler rethrow).run s = .ok () t →
      ∃ left opened closed, Opens body s left opened ∧ handler.run opened = .ok () closed ∧
        Ends closed t rethrow ∧
        (left.builder.regions = .inTry s.builder.size :: s.builder.regions →
          closed.builder.regions = opened.builder.regions → Guards s opened closed t)) ∧
    (∀ left, (do build Build.startTry; body : Emit σ Unit).run s = .ok () left →
      (∀ start outer, left.builder.regions ≠ .inTry start :: outer) →
      ∃ fault t, (tryCatch body handler rethrow).run s = .error (.malformed fault) t) ∧
    ∀ exit opened closed gone, (openHandler body).run s = .ok exit opened →
      handler.run opened = .ok () closed → (leaveHandler rethrow exit).run closed = .ok () gone →
      (∀ start stop first outer, closed.builder.regions ≠ .inHandler start stop first :: outer) →
      ∃ fault t, (tryCatch body handler rethrow).run s = .error (.malformed fault) t := by
  rw [tryCatch_eq]
  refine ⟨fun t h => ?_, fun left hleft hopen => ?_, fun exit opened closed gone hopened hrun hgone
    hhandling => ?_⟩
  · obtain ⟨exit, opened, hopened, h⟩ := run_bind_ok.mp h
    obtain ⟨_, closed, hrun, h⟩ := run_bind_ok.mp h
    obtain ⟨left, hopens⟩ := openHandler_ok hopened
    have hends := ends_of_ok h
    exact ⟨left, opened, closed, hopens, hrun, hends,
      guards_of_balanced hbody hhandler hopens hrun hends⟩
  · obtain ⟨fault, t, hrefused⟩ := openHandler_refused hleft hopen
    exact ⟨fault, t, run_bind_error.mpr (.inl hrefused)⟩
  · obtain ⟨hhost, hadding⟩ := leaveHandler_ok hgone
    obtain ⟨fault, hcheck⟩ := Build.checkHandlerEnd_refused (b := gone.builder) (by
      rw [hadding.regions]
      exact hhandling)
    refine ⟨fault, gone, ?_⟩
    unfold endHandler
    simp only [EStateM.run_bind, hopened, hrun, hgone, run_build, hcheck]

/-- Nothing, and then the exception is dropped. -/
def droppingRegion : Emit StoredMethod Unit :=
  tryCatch (build (Build.plain .nop)) (build (Build.plain .pop)) false

theorem tryCatch_regions_nested :
    ∃ t left opened closed,
      (tryCatch droppingRegion (build (Build.plain .pop)) true).run
        ⟨.empty, .start .empty⟩ = .ok () t ∧
      Opens droppingRegion ⟨.empty, .start .empty⟩ left opened ∧
      Guards ⟨.empty, .start .empty⟩ opened closed t ∧ t.builder.exceptions.added.size = 2 := by
  have hplain : ∀ op, MadeOf Elementary (build (Build.plain op) : Emit StoredMethod Unit) :=
    fun op => Action.perform_elementary (.plain op)
  have hbody : Builds droppingRegion :=
    .of_madeOf (tryCatch_closed elementary_covers.closed (hplain .nop) (hplain .pop) false)
  obtain ⟨_, h⟩ := exists_ok_of_succeeds (s := ⟨StoredMethod.empty, .start .empty⟩)
    (x := tryCatch droppingRegion (build (Build.plain .pop)) true) (by decide +kernel)
  obtain ⟨left, opened, closed, hopens, hrun, -, hguards⟩ :=
    (tryCatch_regions hbody (.of_madeOf (hplain .pop)) true _).1 _ h
  obtain ⟨_, hopened⟩ := hopens.run
  refine ⟨_, left, opened, closed, h, hopens, hguards ?_ ?_, by decide +kernel⟩
  · rw [← after_of_ok hopens.body]
    decide +kernel
  · rw [← after_of_ok hrun, ← after_of_ok hopened]
    decide +kernel

/-- A try body that ends in a try block of its own is let through. Its block gets the
handler, and the region of the call stays open. -/
theorem regions_of_reopened :
    ∃ t, (tryCatch (build Build.startTry) (build (Build.plain .pop)) false).run
        ⟨StoredMethod.empty, .start .empty⟩ = .ok () t ∧
      t.builder.regions = [.inTry 0] := by
  obtain ⟨_, h⟩ := exists_ok_of_succeeds (s := ⟨StoredMethod.empty, .start .empty⟩)
    (x := tryCatch (build Build.startTry) (build (Build.plain .pop)) false) (by decide +kernel)
  exact ⟨_, h, by decide +kernel⟩

end Emit

end CilInstrument
