import CilInstrument.Proofs.FinalStep
import CilInstrument.Proofs.RecordedHost

/- What a session asks its host to keep. Calls ask for nothing, so all is asked by the final
   step, and that ends in one of four ways (`Session.Ends`): the body can not be put together, the
   signature of the locals is not kept, the body is refused, or it is accepted. Written out
   for a recorded host this is the discipline of `Session.Disciplined`: one body at most, as the
   last thing, and nothing that fails behind it (`finish_disciplined`). -/
namespace CilInstrument

open Step

/-- The final step needs a new token for the locals, and gets as far as asking for it. -/
def Session.Interns {σ : Type} (s : Session σ) (format : HeaderFormat) : Prop :=
  format = .fat ∧ s.locals.isModified = true ∧ ∃ parts, s.fatParts = .ok parts

/-- The signatures that the host kept before it was asked to take the body. -/
def Session.Kept {σ : Type} (s : Session σ) (format : HeaderFormat) (kept : List Request) : Prop :=
  ¬s.Interns format ∧ kept = [] ∨ s.Interns format ∧ kept = [.signature s.locals.toBytes none]

/-- What asking the host to take the body comes to. -/
def writeResult : Option Error → Except Error Unit
  | none => .ok ()
  | some e => .error (.fatal (.writeBack e.message))

/-- The ways in which a final step ends, with what it comes to and the host behind it. -/
inductive Session.Ends {σ : Type} [Host σ] (s : Session (Recording σ)) (format : HeaderFormat) :
    Except Error Unit → Recording σ → Prop
  /-- The body can not be put together. -/
  | faulty {e : Error} (hinterns : ¬s.Interns format) (hfault : e.isBodyFault = true) :
    Ends s format (.error e) s.host
  /-- The host does not keep the signature of the locals. -/
  | unkept {e : Error} {host : σ} (hinterns : s.Interns format)
    (hrefused : (Host.internSignature s.locals.toBytes).run s.host.host = .error e host) :
    Ends s format (.error e) ⟨host, s.requests ++ [.signature s.locals.toBytes (some e)]⟩
  /-- The host is asked to take the body. -/
  | written {kept : List Request} {bytes : List UInt8} {refusal : Option Error} {host : σ}
    (hkept : s.Kept format kept) :
    Ends s format (writeResult refusal) ⟨host, s.requests ++ kept ++ [.body bytes refusal]⟩

/-- No body is kept, and a signature exactly if the step gets as far as asking. -/
theorem Session.Kept.facts {σ : Type} {s : Session σ} {format : HeaderFormat}
    {kept : List Request} (h : s.Kept format kept) :
    (∀ request ∈ kept, request.isBody = false) ∧ kept.length ≤ 1 ∧
      (kept ≠ [] ↔ s.Interns format) := by
  rcases h with ⟨hnot, rfl⟩ | ⟨hinterns, rfl⟩
  · simp [hnot]
  · simp [hinterns]

namespace Instrument

variable {σ : Type} [Host σ]

omit [Host σ] in
theorem run_ask {α : Type} (question : Ask σ α) (s : Session σ) :
    (ask question).run s =
      match question.run s.host with
      | .ok a host => .ok a { s with emission := ⟨host, s.builder⟩ }
      | .error e host => .error e { s with emission := ⟨host, s.builder⟩ } := by
  unfold ask Session.host
  rw [run_emit, Emit.run_ask]
  cases question.run s.emission.host <;> rfl

/-- A grown signature is handed to the host, whose answer is the token. -/
theorem run_localsToken_grown {s : Session σ} (h : s.locals.isModified = true) :
    localsToken.run s =
      match (Host.internSignature s.locals.toBytes).run s.host with
      | .ok token host => .ok token { s with
          emission := ⟨host, s.builder⟩
          shared := s.shared.record s.target.name
            (.localsReplaced s.target.header.localsToken token) }
      | .error e host => .error e { s with emission := ⟨host, s.builder⟩ } := by
  unfold localsToken
  simp only [EStateM.run_bind, EStateM.run_get, h, Bool.not_true, Bool.false_eq_true, if_false,
    run_ask]
  cases (Host.internSignature s.locals.toBytes).run s.host <;> rfl

/-- The last thing that is asked of a recorded host is to take the body. -/
theorem ends_of_writeBack {x : Instrument (Recording σ) Unit} {s u : Session (Recording σ)}
    {format : HeaderFormat} {kept : List Request} {bytes : List UInt8}
    (hx : x.run s = (writeBack bytes).run u) (hrequests : u.requests = s.requests ++ kept)
    (hkept : s.Kept format kept) : s.Ends format (x.outcome s) (x.after s).host := by
  have hrun := run_writeBack bytes u
  have hwrite : (Host.writeMethod bytes : Ask (Recording σ) Unit).run u.host = _ :=
    Recording.run_note (.body bytes) (Host.writeMethod bytes) u.host
  rw [← hx] at hrun
  cases hhost : (Host.writeMethod bytes).run u.host.host with
  | ok _ host =>
    rw [hhost] at hwrite
    rw [hwrite] at hrun
    rw [outcome_of_ok hrun, after_of_ok hrun]
    show s.Ends format (writeResult none) ⟨host, u.requests ++ _⟩
    rw [hrequests]
    exact .written hkept
  | error e host =>
    rw [hhost] at hwrite
    rw [hwrite] at hrun
    rw [outcome_of_error hrun, after_of_error hrun]
    show s.Ends format (writeResult (some e)) ⟨host, u.requests ++ _⟩
    rw [hrequests]
    exact .written hkept

theorem finishFat_ends (s : Session (Recording σ)) :
    s.Ends .fat (finishFat.outcome s) (finishFat.after s).host := by
  have hrun := run_finishFat s
  cases hparts : s.fatParts with
  | error e =>
    rw [hparts] at hrun
    rw [outcome_of_error hrun, after_of_error hrun]
    refine .faulty (fun h => ?_) (s.fatParts_fault e hparts)
    obtain ⟨-, -, parts, hok⟩ := h
    rw [hparts] at hok
    cases hok
  | ok parts =>
    rw [hparts] at hrun
    cases hmodified : s.locals.isModified with
    | false =>
      have hsame := run_localsToken (s := s.logged (.assembling .fat)) hmodified
      refine ends_of_writeBack (hrun.trans (run_writeFat hsame)) (List.append_nil _).symm ?_
      refine .inl ⟨fun h => ?_, rfl⟩
      have hgrown := h.2.1
      rw [hmodified] at hgrown
      cases hgrown
    | true =>
      have hinterns : s.Interns .fat := ⟨rfl, hmodified, parts, hparts⟩
      have htoken := run_localsToken_grown (s := s.logged (.assembling .fat)) hmodified
      rw [Session.locals_logged, Session.host_logged] at htoken
      have hintern : (Host.internSignature s.locals.toBytes : Ask (Recording σ) Token).run s.host = _ :=
        Recording.run_note (.signature s.locals.toBytes) (Host.internSignature s.locals.toBytes) s.host
      cases hhost : (Host.internSignature s.locals.toBytes).run s.host.host with
      | ok token host =>
        rw [hhost] at hintern
        rw [hintern] at htoken
        exact ends_of_writeBack (hrun.trans (run_writeFat htoken)) rfl (.inr ⟨hinterns, rfl⟩)
      | error e host =>
        rw [hhost] at hintern
        rw [hintern] at htoken
        have herror := hrun.trans (run_writeFat_error htoken)
        rw [outcome_of_error herror, after_of_error herror]
        exact .unkept hinterns hhost

theorem finishTiny_ends (s : Session (Recording σ)) :
    s.Ends .tiny (finishTiny.outcome s) (finishTiny.after s).host := by
  -- a tiny header has no place for a token
  have hinterns : ¬s.Interns .tiny := by
    intro h
    cases h.1
  have hrun := run_finishTiny s
  cases hbody : s.tinyBody with
  | error e =>
    rw [hbody] at hrun
    rw [outcome_of_error hrun, after_of_error hrun]
    exact .faulty hinterns (s.tinyBody_fault e hbody)
  | ok body =>
    rw [hbody] at hrun
    exact ends_of_writeBack hrun (List.append_nil _).symm (.inl ⟨hinterns, rfl⟩)

theorem finish_ends (format : HeaderFormat) (s : Session (Recording σ)) :
    s.Ends format ((finish format).outcome s) ((finish format).after s).host := by
  cases format with
  | fat => exact finishFat_ends s
  | tiny => exact finishTiny_ends s

end Instrument

/-! The discipline. -/

/-- How a host is dealt with. `added` are the locals that were added to the session, `result`
is what the final step came to, `recording` is the host behind it. -/
structure Session.Disciplined {σ : Type} (s : Session (Recording σ)) (added : List Nat)
    (format : HeaderFormat) (result : Except Error Unit) (recording : Recording σ) : Prop where
  /-- The host is asked to take a body at most once. -/
  bodyOnce : (recording.requests.filter (·.isBody)).length ≤ 1
  /-- It is asked exactly if the step goes through or reports that the body was refused. -/
  body_iff : (∃ request ∈ recording.requests, request.isBody = true) ↔
    result = .ok () ∨ ∃ cause, result = .error (.fatal (.writeBack cause))
  /-- That is reported exactly if the body was refused. -/
  refused_iff : ∀ cause, result = .error (.fatal (.writeBack cause)) ↔
    ∃ bytes e, Request.body bytes (some e) ∈ recording.requests ∧ cause = e.message
  /-- With any other error the host is as it was, unless it is the host's own: then it was
  asked to keep a signature, and for nothing else. -/
  untouched : ∀ e, result = .error e → (∀ cause, e ≠ .fatal (.writeBack cause)) →
    e.isBodyFault = true ∧ recording = s.host ∨
      recording.requests = [.signature s.locals.toBytes (some e)] ∧ s.Interns format
  /-- The host is asked to keep a signature at most once. -/
  signatureOnce : (recording.requests.filter (!·.isBody)).length ≤ 1
  /-- It is asked exactly for a fat header, if a local was added and code and section were
  encoded. -/
  signature_iff : (∃ request ∈ recording.requests, request.isBody = false) ↔
    format = .fat ∧ added ≠ [] ∧ ∃ code sections, s.builder.bytes = .ok code ∧
      s.builder.sectionBytes = .ok sections ∧ code.length < 0x100000000

/-- The host reports no error of its own as fatal when it refuses a signature. -/
def Host.RefusesMildly (σ : Type) [Host σ] : Prop :=
  ∀ blob e (host host' : σ), (Host.internSignature blob).run host = .error e host' →
    e.isFatal = false

section
variable {σ : Type} [Host σ]

/-- Every way to end is disciplined, if nothing was asked before. -/
theorem Session.Ends.disciplined {s : Session (Recording σ)} {added : List Nat}
    {format : HeaderFormat} {result : Except Error Unit} {recording : Recording σ}
    (h : s.Ends format result recording) (hmild : Host.RefusesMildly σ) (hnone : s.requests = [])
    (hinterns : s.Interns format ↔ format = .fat ∧ added ≠ [] ∧ ∃ code sections,
      s.builder.bytes = .ok code ∧ s.builder.sectionBytes = .ok sections ∧
        code.length < 0x100000000) :
    s.Disciplined added format result recording := by
  have hhost : s.host.requests = [] := hnone
  have hother : ∀ {e : Error}, e.isFatal = false → ∀ cause, e ≠ .fatal (.writeBack cause) := by
    intro e he cause heq
    rw [heq] at he
    cases he
  cases h with
  | @faulty e hnot hfault =>
    have hne := hother (Error.not_isFatal_of_isBodyFault hfault)
    refine ⟨?_, ?_, ?_, ?_, ?_, ?_⟩
    · simp [hhost]
    · simp [hhost, hne]
    · simp [hhost, hne]
    · intro e' he' _
      cases he'
      exact .inl ⟨hfault, rfl⟩
    · simp [hhost]
    · rw [← hinterns]
      simp [hhost, hnot]
  | @unkept e host hinterned hrefused =>
    have hne := hother (hmild _ _ _ _ hrefused)
    refine ⟨?_, ?_, ?_, ?_, ?_, ?_⟩
    · simp [hnone]
    · simp [hnone, Request.isBody, hne]
    · simp [hnone, hne]
    · intro e' he' _
      cases he'
      exact .inr ⟨by rw [hnone, List.nil_append], hinterned⟩
    · simp [hnone]
    · rw [← hinterns]
      simp [hnone, Request.isBody, hinterned]
  | @written kept bytes refusal host hkept =>
    obtain ⟨hall, hlength, hsome⟩ := hkept.facts
    have hbodies : kept.filter (·.isBody) = [] := by simpa using hall
    have hsignatures : kept.filter (!·.isBody) = kept := by simpa using hall
    refine ⟨?_, ?_, ?_, ?_, ?_, ?_⟩
    · rw [hnone, List.nil_append, List.filter_append, hbodies]
      exact Nat.le_refl 1
    · have hbody : ∃ request ∈ s.requests ++ kept ++ [.body bytes refusal],
          request.isBody = true := ⟨_, List.mem_append_right _ (List.mem_singleton_self _), rfl⟩
      refine iff_of_true hbody ?_
      cases refusal <;> simp [writeResult]
    · intro cause
      have hnobody : ∀ bytes refusal, Request.body bytes refusal ∉ kept :=
        fun _ _ hmem => Bool.false_ne_true (hall _ hmem).symm
      cases refusal <;> simp [hnone, hnobody, writeResult, eq_comm]
    · intro e he hne
      cases refusal with
      | none => cases he
      | some e' =>
        cases he
        exact absurd rfl (hne _)
    · simp [hnone, hsignatures, hlength]
    · rw [← hinterns, ← hsome, hnone, List.nil_append]
      constructor
      · intro h hnil
        obtain ⟨request, hmem, hsignature⟩ := h
        rw [hnil] at hmem
        rw [List.mem_singleton.mp hmem] at hsignature
        cases hsignature
      · intro hne
        obtain ⟨request, hmem⟩ := List.exists_mem_of_ne_nil kept hne
        exact ⟨request, List.mem_append_left _ hmem, hall request hmem⟩

/-- Whatever was called in between: everything that a session asks its host to keep is asked
by the final step, and in a disciplined way. -/
theorem Instrument.finish_disciplined {config : Config} {setting : Setting σ}
    {s₀ : Session (Recording σ)} (hmild : Host.RefusesMildly σ)
    (hstart : Session.start config setting.recorded = .ok s₀) (calls : List (Call σ))
    (format : HeaderFormat) :
    let s := Call.run (calls.map Call.recorded) s₀
    s.Disciplined (Call.appended (calls.map Call.recorded) s₀) format
      ((finish format).outcome s) ((finish format).after s).host := by
  intro s
  obtain ⟨-, -, -, -, -, -, -, hgrown⟩ :=
    Session.exists_continues hstart (calls.map Call.recorded)
  refine (finish_ends format s).disciplined hmild ?_ ?_
  · rw [Call.requests_run]
    exact Session.requests_start hstart
  -- the locals are modified exactly if one was added
  · unfold Session.Interns
    rw [hgrown]
    simp only [Prod.exists, Session.fatParts_ok]

end

/-- A local was added to the guarded method, so its signature is kept and then the body. -/
theorem Instrument.finish_disciplined_guarded :
    ∃ s₀, Session.start .default (Setting.recorded ⟨StoredMethod.guarded, .empty⟩) = .ok s₀ ∧
      let s := Call.run (guardedCalls.map Call.recorded) s₀
      let t := (finish .fat).after s
      t.requests.map (·.isBody) = [false, true] ∧
        s.Disciplined (Call.appended (guardedCalls.map Call.recorded) s₀) .fat (.ok ()) t.host := by
  have hruns : (Session.start .default (Setting.recorded ⟨StoredMethod.guarded, .empty⟩)).toOption.map
      (fun s₀ =>
        let s := Call.run (guardedCalls.map Call.recorded) s₀
        (finish .fat).succeeds s &&
          ((finish .fat).after s).requests.map (·.isBody) == [false, true]) = some true := by
    decide +kernel
  have hmild : Host.RefusesMildly StoredMethod := by
    intro blob e host host' h
    cases h
  obtain ⟨s₀, hstart, hchecks⟩ := exists_ok_of_map hruns
  obtain ⟨hsucceeds, hrequests⟩ := (Bool.and_eq_true _ _).mp hchecks
  obtain ⟨_, hrun⟩ := exists_ok_of_succeeds hsucceeds
  have hdisciplined := finish_disciplined hmild hstart guardedCalls .fat
  simp only [outcome_of_ok hrun] at hdisciplined
  exact ⟨s₀, hstart, eq_of_beq hrequests, hdisciplined⟩

end CilInstrument
