import CilInstrument.Proofs.CommitDiscipline
import CilInstrument.Proofs.DisabledCache
import CilInstrument.Proofs.LookupNames
import CilInstrument.Proofs.MildBuilding
import CilInstrument.Proofs.MildReading

/- Fatal errors and their records. Three layers can find that a method is lost, and none of
   them keeps the log: taking the body apart, adding a local and writing the body. What wraps
   them does, and nothing else records an error. So a step either is quiet, which is to say
   that it leaves the records of errors alone and fails mildly, or leaves the record of just
   the error that it gives (`Step.Records`); put together with quiet steps it still does. For
   a row of rewrites the records of errors are those of the calls that gave a fatal one, in
   their order (`Job.fatal_errors_recorded`). A fatal error that the caller's own code makes up
   is passed on without a record (`Job.fatal_errors_unrecorded`). -/
namespace CilInstrument

open Step

/-! Records of errors. -/

/-- The records of errors, the oldest first. -/
def Shared.errors (s : Shared) : List LogRecord := s.log.toList.filter (·.event.level == .error)

/-- What a call is to leave in the log: the error that it gives, if that is fatal. -/
def fatalRecord {α : Type} (method : String) : Except Error α → List LogRecord
  | .ok _ => []
  | .error e => if e.isFatal then [⟨method, .failed e⟩] else []

theorem fatalRecord_map {α β : Type} (method : String) (result : Except Error α) (f : α → β) :
    fatalRecord method (result.map f) = fatalRecord method result := by
  cases result <;> rfl

theorem fatalRecord_of_mildly {α : Type} {result : Except Error α} (h : FailsMildly result)
    (method : String) : fatalRecord method result = [] := by
  cases result with
  | ok a => rfl
  | error e => exact if_neg (by rw [h e rfl]; decide)

namespace Shared

theorem errors_record (s : Shared) (method : String) {event : Event}
    (h : (event.level == .error) = false) : (s.record method event).errors = s.errors := by
  simp [errors, record, h]

theorem errors_recordFatal (s : Shared) (method : String) (e : Error) :
    (s.recordFatal method e).errors =
      s.errors ++ if e.isFatal then [⟨method, .failed e⟩] else [] := by
  unfold recordFatal
  cases e.isFatal with
  | true =>
    simp only [if_true, errors, record, Array.toList_push, List.filter_append]
    rfl
  | false => exact (List.append_nil _).symm

end Shared

/-! Quiet steps, and steps that leave a record. -/

namespace Step

variable {σ τ α β γ : Type}

/-- The step leaves alone what `view` shows, and fails mildly. -/
structure Quiet (view : σ → γ) ⦃α : Type⦄ (x : Step σ α) : Prop where
  keeps : Keeps view x
  mild : Mild x

/-- Taken in this state, the step leaves the record of the fatal error that it gives and no
other record of an error, and it gives one for no other reason than the `cause`. -/
structure Records (errors : σ → List LogRecord) (method : String) (cause : Error → Prop)
    (x : Step σ α) (s : σ) : Prop where
  recorded : errors (x.after s) = errors s ++ fatalRecord method (x.outcome s)
  caused : ∀ e, x.outcome s = .error e → e.isFatal = true → cause e

namespace Quiet

variable {view : σ → γ} {x : Step σ α}

theorem pure (a : α) : Quiet view (Pure.pure a : Step σ α) := ⟨fun _ => rfl, .pure a⟩

theorem get : Quiet view (MonadState.get : Step σ σ) := ⟨fun _ => rfl, .get⟩

theorem ofExcept {r : Except Error α} (h : FailsMildly r) :
    Quiet view (Step.ofExcept r : Step σ α) where
  keeps := by
    intro s
    cases r <;> rfl
  mild := .ofExcept h

theorem modify {f : σ → σ} (h : ∀ s, view (f s) = view s) :
    Quiet view (modify f : Step σ PUnit) := ⟨h, .modify f⟩

theorem bind {f : α → Step σ β} (hx : Quiet view x) (hf : ∀ a, Quiet view (f a)) :
    Quiet view (x >>= f) where
  keeps := (MadeOf.bind (.base hx.keeps) fun a => .base (hf a).keeps).keeps
  mild := .bind hx.mild fun a => (hf a).mild

/-- A mild step on a part of the state that does not show. -/
theorem lifted {y : Step τ α} (part : σ → τ) (put : σ → τ → σ)
    (hrun : ∀ s, x.run s = match y.run (part s) with
      | .ok a t => .ok a (put s t)
      | .error e t => .error e (put s t)) (hput : ∀ s t, view (put s t) = view s)
    (hy : Mild y) : Quiet view x where
  keeps := by
    intro s
    unfold Step.after
    rw [hrun]
    cases y.run (part s) with
    | ok a t => exact hput s t
    | error e t => exact hput s t
  mild := .lifted part put hrun hy

theorem records {errors : σ → List LogRecord} (h : Quiet view x)
    (hview : ∀ {s t}, view t = view s → errors t = errors s) (method : String)
    (cause : Error → Prop) (s : σ) : Records errors method cause x s where
  recorded := by
    rw [hview (h.keeps s), fatalRecord_of_mildly (h.mild.outcome s), List.append_nil]
  caused := by
    intro e he hfatal
    rw [h.mild.outcome s e he] at hfatal
    cases hfatal

end Quiet

namespace Records

variable {errors : σ → List LogRecord} {method : String} {cause : Error → Prop} {view : σ → γ}
  {x : Step σ α} {f : α → Step σ β} {s t : σ}

theorem of_ok {a : α} (hrun : x.run s = .ok a t) (h : errors t = errors s) :
    Records errors method cause x s where
  recorded := by
    rw [after_of_ok hrun, outcome_of_ok hrun, h]
    exact (List.append_nil _).symm
  caused := by
    intro e he
    rw [outcome_of_ok hrun] at he
    cases he

theorem of_error {e : Error} (hrun : x.run s = .error e t)
    (h : errors t = errors s ++ if e.isFatal then [⟨method, .failed e⟩] else [])
    (hcause : e.isFatal = true → cause e) : Records errors method cause x s where
  recorded := by
    rw [after_of_error hrun, outcome_of_error hrun, h]
    rfl
  caused := by
    intro e' he
    rw [outcome_of_error hrun] at he
    cases he
    exact hcause

/-- The step goes on as another one does elsewhere. -/
theorem of_run {y : Step σ α} (h : Records errors method cause y t) (hrun : x.run s = y.run t)
    (herrors : errors t = errors s) : Records errors method cause x s := by
  cases hy : y.run t with
  | ok a u =>
    have hrecorded := h.recorded
    rw [after_of_ok hy, outcome_of_ok hy, herrors] at hrecorded
    exact .of_ok (hrun.trans hy) (hrecorded.trans (List.append_nil _))
  | error e u =>
    have hrecorded := h.recorded
    rw [after_of_error hy, outcome_of_error hy, herrors] at hrecorded
    exact .of_error (hrun.trans hy) hrecorded (h.caused e (outcome_of_error hy))

theorem error_of_bind {e : Error} (h : Records errors method cause x s)
    (hrun : x.run s = .error e t) : Records errors method cause (x >>= f) s := by
  have hrecorded := h.recorded
  rw [after_of_error hrun, outcome_of_error hrun] at hrecorded
  exact .of_error (run_bind_error.mpr (.inl hrun)) hrecorded (h.caused e (outcome_of_error hrun))

variable (hview : ∀ {s t}, view t = view s → errors t = errors s)
include hview

/-- Quiet steps may come first, -/
theorem behind (hx : Quiet view x)
    (hf : ∀ a t, x.run s = .ok a t → view t = view s → Records errors method cause (f a) t) :
    Records errors method cause (x >>= f) s := by
  have hkeeps := hx.keeps s
  cases hrun : x.run s with
  | ok a t =>
    rw [after_of_ok hrun] at hkeeps
    refine (hf a t hrun hkeeps).of_run ?_ (hview hkeeps)
    rw [EStateM.run_bind, hrun]
  | error e t => exact (hx.records hview method cause s).error_of_bind hrun

/-- and they may come last. -/
theorem before (hx : Records errors method cause x s) (hf : ∀ a, Quiet view (f a)) :
    Records errors method cause (x >>= f) s := by
  cases hrun : x.run s with
  | ok a t =>
    have hrecorded := hx.recorded
    rw [after_of_ok hrun, outcome_of_ok hrun] at hrecorded
    refine ((hf a).records hview method cause t).of_run ?_ (hrecorded.trans (List.append_nil _))
    rw [EStateM.run_bind, hrun]
  | error e t => exact hx.error_of_bind hrun

end Records

end Step

/-! Starting. -/

/-- The first byte of the stored body is that of no known format. -/
def Host.StoresUnknownFormat {σ : Type} [Host σ] (host : σ) (e : Error) : Prop :=
  ∃ first rest behind, (Host.methodBytes : Ask σ (List UInt8)).run host = .ok (first :: rest) behind ∧
    HeaderFormat.ofFirstByte? first = none ∧ e = .fatal (.unknownHeaderFormat first)

namespace Setting

variable {σ α : Type}

/-- The records of errors in the common log. -/
def errors (s : Setting σ) : List LogRecord := s.shared.errors

theorem ask_quiet {question : Ask σ α} (h : Mild question) :
    Quiet errors (Setting.ask question) := by
  refine .lifted Setting.host (fun s host => { s with host }) (fun s => ?_) (fun _ _ => rfl) h
  cases hrun : question.run s.host <;> rw [run_ask, hrun]

theorem log_quiet (method : String) {event : Event} (h : (event.level == .error) = false) :
    Quiet errors (Setting.log method event : Step (Setting σ) Unit) :=
  .modify fun s => s.shared.errors_record method h

theorem decompose_records (method : String) (data : List UInt8) (s : Setting σ) :
    Records errors method (fun e => ∃ first rest, data = first :: rest ∧
      HeaderFormat.ofFirstByte? first = none ∧ e = .fatal (.unknownHeaderFormat first))
      (Setting.decompose method data) s := by
  unfold Setting.decompose
  cases hbody : MethodBody.decompose data with
  | ok body => exact .of_ok rfl rfl
  | error e =>
    exact .of_error rfl (s.shared.errors_recordFatal method e) (MethodBody.decompose_fatal hbody)

variable [Host σ]

theorem readMethod_records (hmild : Host.Mild σ) (config : Config) (s : Setting σ) :
    Records errors (Host.methodName s.host) (Host.StoresUnknownFormat s.host)
      (Setting.readMethod config) s := by
  have hsame : ∀ {s t : Setting σ}, t.errors = s.errors → t.errors = s.errors := id
  unfold Setting.readMethod
  refine .behind hsame .get fun _ _ hget _ => ?_
  cases hget
  refine .behind hsame (log_quiet _ rfl) fun _ u hlog _ => ?_
  cases hlog
  refine .behind hsame (ask_quiet hmild.methodBytes) fun data t hbytes _ => ?_
  replace hbytes := Setting.ask_ok hbytes
  -- what is done with the locals, wherever they come from
  have hrest : ∀ (name : String) (event : Event) (_ : (event.level == .error) = false)
      (result : MethodSig → Target × LocalsSignature × Builder), Quiet errors (do
        let signature ← Step.ofExcept (MethodSig.ofBytes (Host.methodSignature (← get).host))
        Setting.log name event
        return result signature : Step (Setting σ) _) :=
    fun name event hevent result => .bind .get fun _ =>
      .bind (.ofExcept (MethodSig.ofBytes_mildly _)) fun _ =>
        .bind (log_quiet name hevent) fun _ => .pure _
  have hbody : Records errors (Host.methodName s.host) (Host.StoresUnknownFormat s.host)
      (Setting.decompose (Host.methodName s.host) data) t := by
    have hrecords := decompose_records (Host.methodName s.host) data t
    refine ⟨hrecords.recorded, fun e he hfatal => ?_⟩
    obtain ⟨first, rest, rfl, hformat, rfl⟩ := hrecords.caused e he hfatal
    exact ⟨first, rest, t.host, hbytes, hformat, rfl⟩
  refine .before hsame hbody fun body => .bind (log_quiet _ rfl) fun _ => of_ite ?_ ?_
  · exact .bind (.pure _) fun _ => hrest _ _ rfl _
  · exact .bind (ask_quiet (hmild.signatureOf _)) fun blob =>
      .bind (.ofExcept (LocalsSignature.ofBytes_mildly blob)) fun _ => hrest _ _ rfl _

end Setting

/-- A session that can not start has its fatal error recorded under the name of the method. -/
theorem Session.refused_records {σ : Type} [Host σ] (hmild : Host.Mild σ) {config : Config}
    {setting behind : Setting σ} {e : Error}
    (h : Session.start config setting = .error (e, behind)) :
    behind.shared.errors = setting.shared.errors ++
        fatalRecord (Host.methodName setting.host) (.error e : Except Error Unit) ∧
      (e.isFatal = true → Host.StoresUnknownFormat setting.host e) := by
  have hrecords := Setting.readMethod_records hmild config setting
  have hrecorded := hrecords.recorded
  unfold Session.start at h
  split at h
  · cases h
  · next hread =>
    cases h
    replace hread : (Setting.readMethod config).run setting = .error e behind := hread
    rw [after_of_error hread, outcome_of_error hread] at hrecorded
    exact ⟨hrecorded, hrecords.caused e (outcome_of_error hread)⟩

/-- A session that starts has nothing recorded. -/
theorem Session.started_records {σ : Type} [Host σ] (hmild : Host.Mild σ) {config : Config}
    {setting : Setting σ} {s : Session σ} (h : Session.start config setting = .ok s) :
    s.shared.errors = setting.shared.errors := by
  have hrecorded := (Setting.readMethod_records hmild config setting).recorded
  unfold Session.start at h
  split at h
  · next hread =>
    cases h
    replace hread : (Setting.readMethod config).run setting = .ok _ _ := hread
    rw [after_of_ok hread, outcome_of_ok hread] at hrecorded
    exact hrecorded.trans (List.append_nil _)
  · cases h

/-! Calls. -/

/-- The records of errors in the common log. -/
def Session.errors {σ : Type} (s : Session σ) : List LogRecord := s.shared.errors

/-- What quiet steps of a session leave alone: target and locals, and the records of errors. -/
def Session.lasting {σ : Type} (s : Session σ) : Target × LocalsSignature × List LogRecord :=
  (s.target, s.locals, s.errors)

/-- A local was to be added where there can be no more of them. -/
def Session.OverflowsLocals {σ : Type} (s : Session σ) (e : Error) : Prop :=
  0xFFFE ≤ s.locals.count ∧ e = .fatal (.localCountOverflow s.locals.count)

namespace Instrument

variable {σ α : Type}

theorem errors_of_lasting {s t : Session σ} (h : t.lasting = s.lasting) : t.errors = s.errors :=
  congrArg (·.2.2) h

theorem emit_quiet {x : Emit σ α} (h : Mild x) : Quiet Session.lasting (emit x) := by
  refine .lifted Session.emission (fun s emission => { s with emission }) (fun s => ?_)
    (fun _ _ => rfl) h
  cases hrun : x.run s.emission <;> rw [run_emit, hrun]

theorem withCache_quiet {step : Step (MethodCache MethodLookup) α} (h : Mild step) :
    Quiet Session.lasting (withCache step : Instrument σ α) := by
  refine .lifted (·.shared.cache) (fun s cache => { s with shared := { s.shared with cache } })
    (fun s => ?_) (fun _ _ => rfl) h
  cases hrun : step.run s.shared.cache <;> rw [run_withCache, hrun]

theorem log_quiet {event : Event} (h : (event.level == .error) = false) :
    Quiet Session.lasting (log event : Instrument σ Unit) :=
  .modify fun s => congrArg (s.target, s.locals, ·) (s.shared.errors_record s.target.name h)

theorem quiet_closed :
    Closed (fun ⦃_⦄ (x : Emit σ _) => Mild x) fun ⦃_⦄ (x : Instrument σ _) =>
      Quiet Session.lasting x where
  emit := emit_quiet
  register := fun key wanted => withCache_quiet (by
    intro cache e t h
    rw [MethodCache.run_getOrResolve_pure] at h
    cases h)
  log := log_quiet
  get := .get
  pure := .pure
  bind := .bind

/-- A local that is refused for their number is recorded. -/
theorem addLocal_records (type : List UInt8) (s : Session σ) :
    Records Session.errors s.target.name s.OverflowsLocals (addLocal type) s := by
  have hrun := run_addLocal type s
  rw [LocalsSignature.run_append] at hrun
  by_cases hempty : type.isEmpty = true
  · rw [if_pos hempty] at hrun
    exact .of_error hrun (s.shared.errors_recordFatal _ _) fun h => nomatch h
  rw [if_neg hempty] at hrun
  by_cases hlimit : LocalsSignature.countLimit ≤ s.locals.count
  · rw [if_pos hlimit] at hrun
    exact .of_error hrun (s.shared.errors_recordFatal _ _) fun _ => ⟨hlimit, rfl⟩
  · rw [if_neg hlimit] at hrun
    exact .of_ok hrun (s.shared.errors_record _ rfl)

end Instrument

namespace Call

open Instrument Emit

variable {σ : Type}

/-- Neither the code that is handed over with the call nor what others do to the cache in the
meantime makes up a fatal error of its own. -/
structure Mild (c : Call σ) : Prop where
  blocks : ∀ block ∈ c.blocks, Step.Mild block.step
  interludes : ∀ step ∈ c.interludes, Step.Mild step

/-- A call with a fatal error was to add a local where there can be no more of them. -/
def LacksRoom (c : Call σ) (s : Session σ) (e : Error) : Prop :=
  c.addsLocal = true ∧ s.OverflowsLocals e

variable [Resolver σ]

theorem perform_records (hnames : Resolver.Mild σ) {c : Call σ} (hc : c.Mild) (s : Session σ) :
    Records Session.errors s.target.name (c.LacksRoom s) c.perform s := by
  by_cases hlocal : c.addsLocal = true
  · have hadd : ∀ type (t : Session σ), t.lasting = s.lasting →
        Records Session.errors s.target.name s.OverflowsLocals (Instrument.addLocal type) t := by
      intro type t ht
      have htarget : t.target = s.target := congrArg (·.1) ht
      have hlocals : t.locals = s.locals := congrArg (·.2.1) ht
      have hrecords := addLocal_records type t
      unfold Session.OverflowsLocals at hrecords ⊢
      rw [htarget, hlocals] at hrecords
      exact hrecords
    have hreturn : ∀ {x : Instrument σ Nat} {t : Session σ},
        Records Session.errors s.target.name s.OverflowsLocals x t →
        Records Session.errors s.target.name s.OverflowsLocals (do return some (← x)) t :=
      fun h => h.before errors_of_lasting fun index => .pure (some index)
    have hadds : Records Session.errors s.target.name s.OverflowsLocals c.perform s := by
      cases c with
      | addLocal type => exact hreturn (hadd type s rfl)
      | addLocalOfType name =>
        exact hreturn (.behind errors_of_lasting (emit_quiet (ask_mild (hnames.typeSignature name)))
          fun type t _ ht => hadd type t ht)
      | addResultLocal =>
        refine .behind errors_of_lasting (target_closed quiet_closed) fun target t _ ht => ?_
        exact of_ite (p := fun x => Records _ _ _ x t)
          ((Quiet.pure none).records errors_of_lasting _ _ t) (hreturn (hadd _ t ht))
      | _ => cases hlocal
    exact ⟨hadds.recorded, fun e he hfatal => ⟨hlocal, hadds.caused e he hfatal⟩⟩
  · obtain ⟨x, hx, hperform⟩ := perform_closed (Emit.mild_closed hnames) quiet_closed
      (Bool.not_eq_true _ ▸ hlocal) hc.blocks fun step hstep =>
        withCache_quiet (hc.interludes step hstep)
    rw [hperform]
    exact (hx.bind fun _ => .pure none).records errors_of_lasting _ _ s

end Call

/-! The final step. -/

/-- The host refused the body, as it was or after it kept the signature of the locals. -/
def Session.BodyRefused {σ : Type} [Host σ] (s : Session σ) (e : Error) : Prop :=
  ∃ (body : List UInt8) (refusal : Error) (host behind : σ),
    (host = s.host ∨ ∃ token, (Host.internSignature s.locals.toBytes).run s.host = .ok token host) ∧
      (Host.writeMethod body).run host = .error refusal behind ∧
      e = .fatal (.writeBack refusal.message)

namespace Instrument

variable {σ : Type} [Host σ]

theorem writeBack_records (body : List UInt8) {s u : Session σ} (htarget : u.target = s.target)
    (hhost : u.host = s.host ∨
      ∃ token, (Host.internSignature s.locals.toBytes).run s.host = .ok token u.host) :
    Records Session.errors s.target.name s.BodyRefused (writeBack body) u := by
  have hrun := run_writeBack body u
  have hwriting : (u.shared.record u.target.name (.writing body.length)).errors = u.shared.errors :=
    u.shared.errors_record _ rfl
  cases hwrite : (Host.writeMethod body).run u.host with
  | ok _ host =>
    rw [hwrite] at hrun
    exact .of_ok hrun hwriting
  | error refusal host =>
    rw [hwrite] at hrun
    refine .of_error hrun ?_ fun _ => ⟨body, refusal, u.host, host, hhost, hwrite, rfl⟩
    rw [← htarget, ← show (u.shared.record u.target.name (.writing body.length)).errors = u.errors
      from hwriting]
    exact Shared.errors_recordFatal _ _ _

theorem writeFat_records (hmild : ∀ blob, Mild (Host.internSignature blob : Ask σ Token))
    (code sections : List UInt8) (s : Session σ) :
    Records Session.errors s.target.name s.BodyRefused (writeFat code sections) s := by
  cases hmodified : s.locals.isModified with
  | false =>
    exact (writeBack_records _ rfl (.inl rfl)).of_run (run_writeFat (run_localsToken hmodified)) rfl
  | true =>
    have htoken := run_localsToken_grown hmodified
    cases hintern : (Host.internSignature s.locals.toBytes).run s.host with
    | ok token host =>
      rw [hintern] at htoken
      refine .of_run ?_ (run_writeFat htoken) (s.shared.errors_record _ rfl)
      exact writeBack_records _ rfl (.inr ⟨token, hintern⟩)
    | error e host =>
      rw [hintern] at htoken
      have hfatal : e.isFatal = false := hmild _ _ _ _ hintern
      refine .of_error (run_writeFat_error htoken) ?_ fun h => ?_
      · rw [hfatal]
        exact (List.append_nil _).symm
      · rw [hfatal] at h
        cases h

theorem finish_records (hmild : Host.Mild σ) (format : HeaderFormat) (s : Session σ) :
    Records Session.errors s.target.name s.BodyRefused (finish format) s := by
  -- a body that can not be put together is no fatal matter
  have hfaulty : ∀ {x : Instrument σ Unit} {e : Error} {format : HeaderFormat},
      x.run s = .error e (s.logged (.assembling format)) → e.isBodyFault = true →
        Records Session.errors s.target.name s.BodyRefused x s := by
    intro x e format hrun hfault
    have hfatal := Error.not_isFatal_of_isBodyFault hfault
    refine .of_error hrun ?_ fun h => ?_
    · rw [hfatal]
      exact (s.shared.errors_record _ rfl).trans (List.append_nil _).symm
    · rw [hfatal] at h
      cases h
  cases format with
  | fat =>
    have hrun := run_finishFat s
    cases hparts : s.fatParts with
    | error e =>
      rw [hparts] at hrun
      exact hfaulty hrun (s.fatParts_fault e hparts)
    | ok parts =>
      rw [hparts] at hrun
      exact (writeFat_records hmild.internSignature parts.1 parts.2
        (s.logged (.assembling .fat))).of_run hrun (s.shared.errors_record _ rfl)
  | tiny =>
    have hrun := run_finishTiny s
    cases hbody : s.tinyBody with
    | error e =>
      rw [hbody] at hrun
      exact hfaulty hrun (s.tinyBody_fault e hbody)
    | ok body =>
      rw [hbody] at hrun
      exact (writeBack_records (u := s.logged (.assembling .tiny)) body rfl (.inl rfl)).of_run hrun
        (s.shared.errors_record _ rfl)

end Instrument

/-! Rows of rewrites. -/

/-- What a row of calls leaves is recorded: the fatal errors that the calls gave. -/
theorem Call.run_records {σ : Type} [Resolver σ] (hnames : Resolver.Mild σ) {calls : List (Call σ)}
    (hcalls : ∀ c ∈ calls, c.Mild) (s : Session σ) :
    (run calls s).errors = s.errors ++ (results calls s).flatMap (fatalRecord s.target.name) := by
  induction calls generalizing s with
  | nil => exact (List.append_nil _).symm
  | cons c rest ih =>
    obtain ⟨hc, hrest⟩ := List.forall_mem_cons.mp hcalls
    have htarget : (c.perform.after s).target = s.target := (perform_adds c s).target
    have hfirst := (perform_records hnames hc s).recorded
    rw [run, results, ih hrest, hfirst, htarget, List.flatMap_cons, List.append_assoc]

/-- What the calls of a rewrite gave, in their order: the start, the calls of the session, and
the final step. -/
def Rewrite.given {σ : Type} (r : Rewrite σ) : List (Except Error Unit) :=
  match r.results with
  | .error e => [.error e]
  | .ok (calls, finished) => .ok () :: calls.map (·.map fun _ => ()) ++ [finished]

/-- The rewrite of one method. -/
structure Job (σ : Type) where
  config : Config
  host : σ
  calls : List (Call σ)
  format : HeaderFormat

namespace Job

variable {σ : Type} [Host σ]

def method (j : Job σ) : String := Host.methodName j.host

def start (j : Job σ) (found : Shared) : Except (Error × Setting σ) (Session σ) :=
  Session.start j.config ⟨j.host, found⟩

def rewrite (j : Job σ) (found : Shared) : Rewrite σ :=
  Session.rewrite j.config ⟨j.host, found⟩ j.calls j.format

/-- One rewrite after the other, each with cache and log as the one before it left them. -/
def rewrites : List (Job σ) → Shared → List (Job σ × Rewrite σ)
  | [], _ => []
  | j :: rest, found => (j, j.rewrite found) :: rewrites rest (j.rewrite found).shared

/-- Cache and log behind a row of rewrites. -/
def behind : List (Job σ) → Shared → Shared
  | [], found => found
  | j :: rest, found => behind rest (j.rewrite found).shared

/-- Every single call of the rewrite leaves the record of the fatal error that it gives, under the
name of the method, and no other record of an error. The start gives one for nothing but the
first byte of the body, a call for nothing but the number of locals, and the final step for
nothing but the host's refusal of the body. -/
structure RecordsEach (j : Job σ) (found : Shared) : Prop where
  refused : ∀ {e setting}, j.start found = .error (e, setting) →
    setting.shared.errors = found.errors ++ fatalRecord j.method (.error e : Except Error Unit) ∧
      (e.isFatal = true → Host.StoresUnknownFormat j.host e)
  started : ∀ {s}, j.start found = .ok s → s.shared.errors = found.errors
  call : ∀ {s front c rest}, j.start found = .ok s → j.calls = front ++ c :: rest →
    Records Session.errors j.method (c.LacksRoom (Call.run front s)) c.perform (Call.run front s)
  finish : ∀ {s}, j.start found = .ok s →
    Records Session.errors j.method (Call.run j.calls s).BodyRefused (Instrument.finish j.format)
      (Call.run j.calls s)

variable (hmild : Host.Mild σ)
include hmild

theorem recordsEach {j : Job σ} (hcalls : ∀ c ∈ j.calls, c.Mild) (found : Shared) :
    j.RecordsEach found where
  refused := fun h => Session.refused_records hmild h
  started := fun h => Session.started_records hmild h
  call := by
    intro s front c rest hstart hsplit
    have hc : c.Mild := hcalls c (by simp [hsplit])
    have hname : (Call.run front s).target.name = j.method := by
      rw [(Call.follows_run front s).target]
      exact (Session.target_of_start hstart).2
    rw [← hname]
    exact Call.perform_records hmild.names hc _
  finish := by
    intro s hstart
    have hname : (Call.run j.calls s).target.name = j.method := by
      rw [(Call.follows_run j.calls s).target]
      exact (Session.target_of_start hstart).2
    rw [← hname]
    exact Instrument.finish_records hmild j.format _

/-- One rewrite. -/
theorem rewrite_records {j : Job σ} (hcalls : ∀ c ∈ j.calls, c.Mild) (found : Shared) :
    (j.rewrite found).shared.errors =
      found.errors ++ (j.rewrite found).given.flatMap (fatalRecord j.method) := by
  have heach := recordsEach hmild hcalls found
  unfold rewrite Session.rewrite
  cases hstart : Session.start j.config ⟨j.host, found⟩ with
  | error failure =>
    obtain ⟨e, setting⟩ := failure
    exact (heach.refused hstart).1.trans (congrArg _ (List.append_nil _).symm)
  | ok s =>
    have hname : s.target.name = j.method := (Session.target_of_start hstart).2
    have hfinish := (heach.finish hstart).recorded
    have hrun := Call.run_records hmild.names hcalls s
    rw [hname] at hrun
    have hresults : ∀ results : List (Except Error (Option Nat)),
        (results.map (·.map fun _ => ())).flatMap (fatalRecord j.method) =
          results.flatMap (fatalRecord j.method) := by
      intro results
      simp only [List.flatMap_map, fatalRecord_map]
    show ((Instrument.finish j.format).after (Call.run j.calls s)).errors = _
    rw [hfinish, hrun, show s.errors = found.errors from heach.started hstart]
    simp only [Rewrite.given, List.cons_append, List.flatMap_cons, List.flatMap_append, hresults,
      List.flatMap_nil, List.append_nil, List.append_assoc, fatalRecord, List.nil_append]

/-- Fatal errors are recorded once. Behind a row of rewrites the records of errors are those that
were there before, and one for each call that gave a fatal error, in the order of the calls,
each with the name of the method and the error; and every single call leaves its own. -/
theorem fatal_errors_recorded {jobs : List (Job σ)}
    (hcalls : ∀ j ∈ jobs, ∀ c ∈ j.calls, c.Mild) (found : Shared) :
    (behind jobs found).errors = found.errors ++ (rewrites jobs found).flatMap (fun (j, r) =>
        r.given.flatMap (fatalRecord j.method)) ∧
      ∀ {before j rest}, jobs = before ++ j :: rest → j.RecordsEach (behind before found) := by
  constructor
  · induction jobs generalizing found with
    | nil => exact (List.append_nil _).symm
    | cons j rest ih =>
      obtain ⟨hj, hrest⟩ := List.forall_mem_cons.mp hcalls
      rw [behind, rewrites, ih hrest, rewrite_records hmild hj, List.flatMap_cons,
        List.append_assoc]
  · intro before j rest hsplit
    exact recordsEach hmild (hcalls j (by simp [hsplit])) _

end Job

namespace StoredMethod

/-- Its body has a first byte of no format. -/
def broken : StoredMethod := ⟨"Broken", [0x00, 0x00, 0x01], [0x00, 0x2A], []⟩

/-- It has as many locals as there can be. -/
def full : StoredMethod where
  name := "Full"
  signature := [0x00, 0x00, 0x01]
  body := [0x13, 0x30, 0x08, 0x00, 0x01, 0x00, 0x00, 0x00, 0x01, 0x00, 0x00, 0x11, 0x2A]
  signatures := [[0x07, 0xC0, 0x00, 0xFF, 0xFE]]

theorem mild : Host.Mild StoredMethod where
  names := {
    stringToken := fun _ => .pure _
    typeToken := fun _ => .pure _
    memberToken := fun _ => .pure _
    typeSpecToken := fun _ => .pure _
    typeSignature := fun _ => .pure _ }
  methodBytes := .bind .get fun _ => .pure _
  signatureOf := by
    intro token
    refine .bind .get fun m => ?_
    cases m.signatures[token.row - 1]? with
    | some blob => exact .pure blob
    | none => exact .throw rfl
  internSignature := by
    intro blob s e t h
    cases h

end StoredMethod

/-- A method of no known format, and one that takes no more locals: it is asked for two of them,
with some code in between that the stack refuses. -/
def lostJobs : List (Job StoredMethod) := [
  ⟨.default, .broken, [], .fat⟩,
  ⟨.default, .full, [.addLocal [0x08], .emit (Action.plain .pop).block, .addLocalOfType "object"], .fat⟩]

theorem Job.fatal_errors_recorded_lostJobs :
    (behind lostJobs .empty).errors = [
      ⟨"Broken", .failed (.fatal (.unknownHeaderFormat 0x00))⟩,
      ⟨"Full", .failed (.fatal (.localCountOverflow 0xFFFE))⟩,
      ⟨"Full", .failed (.fatal (.localCountOverflow 0xFFFE))⟩] := by
  have hcalls : ∀ j ∈ lostJobs, ∀ c ∈ j.calls, c.Mild := by
    have hpop : Step.Mild (Action.plain .pop : Action StoredMethod).block.step :=
      @Action.perform_mild _ _ StoredMethod.mild.names (.plain .pop) rfl
    simp only [lostJobs, List.forall_mem_cons, List.not_mem_nil, false_implies, implies_true,
      and_true, true_and]
    refine ⟨⟨?_, ?_⟩, ⟨?_, ?_⟩, ⟨?_, ?_⟩⟩ <;> simp [Call.blocks, Call.interludes, hpop]
  rw [(fatal_errors_recorded StoredMethod.mild hcalls .empty).1]
  decide +kernel

/-- The caller's own error, which is none of a body that was written. -/
def callersError : Error := .fatal (.writeBack "lost")

/-- An entry of the cache that can not be resolved. -/
def failingResolution : Step (MethodCache MethodLookup) MethodLookup :=
  MethodCache.getOrResolve (.ofMethod "C" "M" 1) (throw callersError)

/-- The error is thrown in the code of an array's element, and by a resolution. -/
def throwingJob : Job StoredMethod where
  config := .default
  host := .empty
  calls := [.emitObjects [⟨throw callersError, .throw _⟩], .others (discard failingResolution)]
  format := .fat

/-- What is thrown in code that is handed over comes back as it is, and without a record. -/
theorem Job.fatal_errors_unrecorded :
    Host.Mild StoredMethod ∧
    (throwingJob.rewrite .empty).given =
      [.ok (), .error callersError, .error callersError, .ok ()] ∧
    (behind [throwingJob] .empty).errors = [] ∧
    (rewrites [throwingJob] .empty).flatMap (fun (j, r) => r.given.flatMap (fatalRecord j.method)) =
      [⟨"M", .failed callersError⟩, ⟨"M", .failed callersError⟩] := by
  refine ⟨StoredMethod.mild, ?_, ?_, ?_⟩ <;> decide +kernel

end CilInstrument
