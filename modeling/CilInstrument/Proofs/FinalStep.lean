import CilInstrument.Proofs.JumpTargets
import CilInstrument.Proofs.UnchangedRewrite

/- What a final step does, in the order in which it does it. First the new body is put
   together from what the session has; that asks the host for nothing, and can only fail
   with an error about the body (`fatParts_fault`, `tinyBody_fault`). A fat header then
   needs the token of the locals, for which the host may have to keep a signature. Writing
   the body is the last thing (`run_finishFat`, `run_finishTiny`). -/
namespace CilInstrument

open Step

/-! What can be wrong with a body. -/

/-- The errors of putting a body together. -/
def Error.isBodyFault : Error → Bool
  | malformed (.regionNotClosed _) | malformed (.jumpDistance _) | malformed (.valueTooLarge _)
  | malformed .clausesWithoutCode | malformed (.clauseOffset _) | malformed (.tooManyClauses _)
  | unknownLabel _ | tinyBodyUnsupported _ | tinyBodyTooLarge _ => true
  | _ => false

/-- None of them is fatal. -/
theorem Error.not_isFatal_of_isBodyFault {e : Error} (h : e.isBodyFault = true) :
    e.isFatal = false := by
  cases e with
  | fatal reason => cases h
  | _ => rfl

/-- The computation fails only for what is wrong with the body. -/
def FailsForBody {α : Type} (x : Except Error α) : Prop := ∀ e, x = .error e → e.isBodyFault = true

namespace FailsForBody

variable {α β : Type}

theorem ok (a : α) : FailsForBody (.ok a) := by
  intro e h
  cases h

theorem error {e : Error} (h : e.isBodyFault = true) :
    FailsForBody (.error e : Except Error α) := by
  intro e' he
  cases he
  exact h

theorem bind {x : Except Error α} {f : α → Except Error β} (hx : FailsForBody x)
    (hf : ∀ a, FailsForBody (f a)) : FailsForBody (x >>= f) := by
  intro e h
  cases hrun : x with
  | ok a =>
    rw [hrun] at h
    exact hf a e h
  | error e' =>
    rw [hrun] at h
    cases h
    exact hx e hrun

theorem ite {c : Prop} [Decidable c] {x y : Except Error α} (hx : FailsForBody x)
    (hy : FailsForBody y) : FailsForBody (if c then x else y) := by
  split
  · exact hx
  · exact hy

theorem mapM {f : α → Except Error β} (hf : ∀ a, FailsForBody (f a)) (l : List α) :
    FailsForBody (l.mapM f) := by
  induction l with
  | nil => exact ok []
  | cons a rest ih =>
    rw [List.mapM_cons]
    exact bind (hf a) fun b => bind ih fun more => ok (b :: more)

end FailsForBody

theorem codeOffset_ok {n offset : Nat} :
    codeOffset n = .ok offset ↔ n < 0x100000000 ∧ offset = n := by
  unfold codeOffset
  split
  · next hlt => simp [hlt, eq_comm]
  · next hge => simp [hge]

theorem codeOffset_fault (n : Nat) : FailsForBody (codeOffset n) :=
  .ite (.ok n) (.error (e := .malformed (.valueTooLarge n)) rfl)

theorem CodeItem.bytes_fault (place : Nat → Option Nat) (offset : Nat) (item : CodeItem) :
    FailsForBody (item.bytes place offset) := by
  cases item with
  | instruction op operand effect => exact .ok _
  | splice code => exact .ok _
  | jump op label =>
    simp only [bytes]
    cases place label with
    | none => exact .error rfl
    | some target =>
      have hdistance : FailsForBody (jumpBytes target (offset + (jump op label).size)) :=
        .bind (codeOffset_fault _) fun _ => .ite (.ok _) (.error rfl)
      exact .bind hdistance fun distance => .ok (op.encoding ++ distance)

theorem Linking.resolve_fault (place : Nat → Option Nat) (offset : Nat) (items : List CodeItem) :
    FailsForBody (resolve place offset items) := by
  induction items generalizing offset with
  | nil => exact .ok []
  | cons item rest ih =>
    exact .bind (item.bytes_fault place offset) fun first => .bind (ih _) fun more =>
      .ok (first ++ more)

namespace Builder

/-- The code fails for an open region or a label that is not placed, or is too long. -/
theorem bytes_fault (b : Builder) : FailsForBody b.bytes := by
  unfold bytes
  cases b.regions with
  | cons region outer => exact .error rfl
  | nil =>
    refine .bind ?_ fun code => .ok code.toList
    rw [Linking.code_bytes_eq]
    exact .bind (Linking.resolve_fault _ 0 _) fun more => .ok more.toArray

/-- The section fails for clauses without their code, or that can not be moved or written. -/
theorem sectionBytes_fault (b : Builder) : FailsForBody b.sectionBytes := by
  have hoffset : ∀ delta offset, FailsForBody (ExceptionClause.shiftOffset delta offset) :=
    fun _ _ => .ite (.ok _) (.error rfl)
  have hshifted : ∀ delta (c : ExceptionClause), FailsForBody (c.shifted delta) := by
    intro delta c
    refine .bind (hoffset _ _) fun tryOffset => .bind (hoffset _ _) fun handlerOffset => ?_
    exact .ite (.bind (hoffset _ _) fun _ => .ok _) (.bind (.ok _) fun _ => .ok _)
  refine .ite (.error rfl) (.ite (.ok []) (.ite (.error rfl) ?_))
  exact .bind (.mapM (hshifted _) _) fun moved => .ok _

end Builder

/-! What is put together. -/

namespace Session

variable {σ : Type}

/-- Code and section of a body with a fat header. -/
def fatParts (s : Session σ) : Except Error (List UInt8 × List UInt8) := do
  let code ← s.builder.bytes
  let sections ← s.builder.sectionBytes
  let _ ← codeOffset code.length
  return (code, sections)

/-- The body with a tiny header. -/
def tinyBody (s : Session σ) : Except Error (List UInt8) :=
  match Instrument.tinyObstacle? s with
  | some obstacle => .error (.tinyBodyUnsupported obstacle)
  | none => do
    let code ← s.builder.bytes
    let first ← MethodHeader.tinyByte code.length
    return first :: code

theorem fatParts_fault (s : Session σ) : FailsForBody s.fatParts :=
  .bind s.builder.bytes_fault fun code => .bind s.builder.sectionBytes_fault fun sections =>
    .bind (codeOffset_fault _) fun _ => .ok (code, sections)

theorem tinyBody_fault (s : Session σ) : FailsForBody s.tinyBody := by
  unfold tinyBody
  cases Instrument.tinyObstacle? s with
  | some obstacle => exact .error rfl
  | none =>
    refine .bind s.builder.bytes_fault fun code => .bind ?_ fun first => .ok (first :: code)
    exact .ite (.error rfl) (.ok _)

theorem fatParts_ok {s : Session σ} {code sections : List UInt8} :
    s.fatParts = .ok (code, sections) ↔ s.builder.bytes = .ok code ∧
      s.builder.sectionBytes = .ok sections ∧ code.length < 0x100000000 := by
  constructor
  · intro h
    obtain ⟨code', hcode, h⟩ := except_bind_ok.mp h
    obtain ⟨sections', hsections, h⟩ := except_bind_ok.mp h
    obtain ⟨size, hsize, h⟩ := except_bind_ok.mp h
    cases h
    exact ⟨hcode, hsections, (codeOffset_ok.mp hsize).1⟩
  · intro h
    obtain ⟨hcode, hsections, hlt⟩ := h
    refine except_bind_ok.mpr ⟨code, hcode, except_bind_ok.mpr ⟨sections, hsections, ?_⟩⟩
    exact except_bind_ok.mpr ⟨_, codeOffset_ok.mpr ⟨hlt, rfl⟩, rfl⟩

theorem tinyBody_ok {s : Session σ} {body : List UInt8} :
    s.tinyBody = .ok body ↔ Instrument.tinyObstacle? s = none ∧
      ∃ code, s.builder.bytes = .ok code ∧ code.length ≤ MethodHeader.tinyMaxCode ∧
        body = UInt8.ofNat (code.length * 4 + 2) :: code := by
  unfold tinyBody
  cases Instrument.tinyObstacle? s with
  | some obstacle => simp
  | none =>
    constructor
    · intro h
      obtain ⟨code, hcode, h⟩ := except_bind_ok.mp h
      obtain ⟨first, hfirst, h⟩ := except_bind_ok.mp h
      cases h
      unfold MethodHeader.tinyByte at hfirst
      split at hfirst
      · cases hfirst
      · next hle =>
        cases hfirst
        exact ⟨rfl, code, hcode, Nat.le_of_not_lt hle, rfl⟩
    · intro h
      obtain ⟨-, code, hcode, hle, rfl⟩ := h
      refine except_bind_ok.mpr ⟨code, hcode, except_bind_ok.mpr ⟨_, ?_, rfl⟩⟩
      exact if_neg (Nat.not_lt_of_le hle)

/-- The session with one more event in the log. -/
def logged (s : Session σ) (event : Event) : Session σ :=
  { s with shared := s.shared.record s.target.name event }

@[simp] theorem locals_logged (s : Session σ) (event : Event) :
    (s.logged event).locals = s.locals := rfl

@[simp] theorem host_logged (s : Session σ) (event : Event) : (s.logged event).host = s.host := rfl

end Session

/-- What a session still knows of its method, whatever was called since it started. -/
structure Session.Continues {σ : Type} (original : MethodBody) (s : Session σ) : Prop where
  header : s.target.header = original.header
  isFat : original.header.flags.IsFat
  known : original.exceptions.Known
  changes : Relation.ReflTransGen Change (Builder.start original.exceptions) s.builder

theorem Session.Continues.sound {σ : Type} {original : MethodBody} {s : Session σ}
    (h : s.Continues original) : s.builder.Sound original.exceptions.inherited :=
  .of_changes h.changes (.start h.known)

theorem Session.exists_continues {σ : Type} [Host σ] {config : Config} {setting : Setting σ}
    {s₀ : Session σ} (hstart : Session.start config setting = .ok s₀) (calls : List (Call σ)) :
    ∃ data stored original, (Host.methodBytes : Ask σ (List UInt8)).run setting.host = .ok data stored ∧
      MethodBody.decompose data = .ok original ∧ s₀.target.ownCode = original.code ∧
      (Call.run calls s₀).Continues original ∧
      ((Call.run calls s₀).locals.isModified = true ↔ Call.appended calls s₀ ≠ []) := by
  obtain ⟨data, stored, original, hbytes, horiginal, hheader, hcode, hbuilder, hunmodified⟩ :=
    Session.start_ok hstart
  obtain ⟨hfat, hknown, -⟩ := MethodBody.isFat_of_decompose horiginal
  have hfollows := Call.follows_run calls s₀
  refine ⟨data, stored, original, hbytes, horiginal, hcode, ?_, ?_⟩
  · exact {
      header := by rw [hfollows.target, hheader]
      isFat := hfat
      known := hknown
      changes := by
        rw [← hbuilder]
        exact hfollows.builder }
  · rw [hfollows.isModified, hunmodified]
    simp

/-! The steps. -/

namespace Instrument

variable {σ : Type} [Host σ]

/-- The final step that writes a header of the given format. -/
def finish : HeaderFormat → Instrument σ Unit
  | .fat => finishFat
  | .tiny => finishTiny

/-- With its parts at hand, a session asks for the token of the locals and writes. -/
def writeFat (code sections : List UInt8) : Instrument σ Unit := do
  let s ← get
  let token ← localsToken
  writeBack (MethodBody.fatBytes (s.fatHeader code sections token) code sections)

theorem run_writeFat {code sections : List UInt8} {s t : Session σ} {token : Token}
    (h : localsToken.run s = .ok token t) :
    (writeFat code sections).run s =
      (writeBack (MethodBody.fatBytes (s.fatHeader code sections token) code sections)).run t := by
  unfold writeFat
  simp only [EStateM.run_bind, EStateM.run_get, h]

theorem run_writeFat_error {code sections : List UInt8} {s t : Session σ} {e : Error}
    (h : localsToken.run s = .error e t) : (writeFat code sections).run s = .error e t := by
  unfold writeFat
  simp only [EStateM.run_bind, EStateM.run_get, h]

theorem run_finishFat (s : Session σ) :
    finishFat.run s =
      match s.fatParts with
      | .ok (code, sections) => (writeFat code sections).run (s.logged (.assembling .fat))
      | .error e => .error e (s.logged (.assembling .fat)) := by
  unfold finishFat Session.fatParts
  simp only [EStateM.run_bind, run_log, EStateM.run_get, Session.builder]
  cases s.emission.builder.bytes with
  | error e => rfl
  | ok code =>
    cases s.emission.builder.sectionBytes with
    | error e => rfl
    | ok sections =>
      simp only [run_ofExcept, bind, Except.bind]
      cases hoffset : codeOffset code.length with
      | error e => rfl
      | ok size =>
        obtain rfl := (codeOffset_ok.mp hoffset).2
        rfl

theorem run_finishTiny (s : Session σ) :
    finishTiny.run s =
      match s.tinyBody with
      | .ok body => (writeBack body).run (s.logged (.assembling .tiny))
      | .error e => .error e (s.logged (.assembling .tiny)) := by
  have hobstacle : tinyObstacle? (s.logged (.assembling .tiny)) = tinyObstacle? s := rfl
  unfold finishTiny Session.tinyBody
  simp only [EStateM.run_bind, run_log, EStateM.run_get, ← Session.logged.eq_1, hobstacle]
  cases tinyObstacle? s with
  | some obstacle => rfl
  | none =>
    simp only [EStateM.run_bind, EStateM.run_get, Session.builder, Session.logged]
    cases s.emission.builder.bytes with
    | error e => rfl
    | ok code =>
      simp only [run_ofExcept, bind, Except.bind]
      cases MethodHeader.tinyByte code.length <;> rfl

end Instrument

end CilInstrument
