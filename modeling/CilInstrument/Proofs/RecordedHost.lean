import CilInstrument.Proofs.WrittenBody

/- A host that notes what it is asked to keep. `Recording` puts a list of requests beside
   any host: a signature that is interned and a body that is written are noted with what
   the host made of them, all other questions are passed on. Whatever is called between the
   start of a session and its final step, nothing is noted (`Call.requests_run`), so what is
   noted in the end is what the final step asked for. -/
namespace CilInstrument

open Step

/-- What a host was asked to keep, and why it refused, if it did. -/
inductive Request where
  | signature (blob : List UInt8) (refusal : Option Error)
  | body (bytes : List UInt8) (refusal : Option Error)
  deriving Repr, DecidableEq

namespace Request

def isBody : Request → Bool
  | body _ _ => true
  | signature _ _ => false

@[simp] theorem isBody_body (bytes : List UInt8) (refusal : Option Error) :
    (body bytes refusal).isBody = true := rfl

@[simp] theorem isBody_signature (blob : List UInt8) (refusal : Option Error) :
    (signature blob refusal).isBody = false := rfl

end Request

/-- A host, and what it was asked to keep so far. -/
structure Recording (σ : Type) where
  host : σ
  requests : List Request
  deriving Repr, DecidableEq

namespace Recording

variable {σ α : Type}

/-- A question that is passed on. -/
def pass (question : Ask σ α) : Ask (Recording σ) α := fun r =>
  match question r.host with
  | .ok a host => .ok a { r with host }
  | .error e host => .error e { r with host }

/-- A question that is passed on and noted, with the answer. -/
def note (request : Option Error → Request) (question : Ask σ α) : Ask (Recording σ) α := fun r =>
  match question r.host with
  | .ok a host => .ok a ⟨host, r.requests ++ [request none]⟩
  | .error e host => .error e ⟨host, r.requests ++ [request (some e)]⟩

instance [Resolver σ] : Resolver (Recording σ) where
  stringToken value := pass (Resolver.stringToken value)
  typeToken name := pass (Resolver.typeToken name)
  memberToken member := pass (Resolver.memberToken member)
  typeSpecToken blob := pass (Resolver.typeSpecToken blob)
  typeSignature name := pass (Resolver.typeSignature name)

instance [Host σ] : Host (Recording σ) where
  toResolver := inferInstance
  methodName r := Host.methodName r.host
  methodSignature r := Host.methodSignature r.host
  methodBytes := pass Host.methodBytes
  signatureOf token := pass (Host.signatureOf token)
  internSignature blob := note (.signature blob) (Host.internSignature blob)
  writeMethod bytes := note (.body bytes) (Host.writeMethod bytes)

end Recording

/-! What is noted, seen from where the host is. -/

section
variable {σ : Type}

def Emission.requests (s : Emission (Recording σ)) : List Request := s.host.requests

def Session.requests (s : Session (Recording σ)) : List Request := s.host.requests

def Setting.requests (s : Setting (Recording σ)) : List Request := s.host.requests

end

namespace Recording

variable {σ α : Type}

theorem run_pass (question : Ask σ α) (r : Recording σ) :
    (pass question).run r =
      match question.run r.host with
      | .ok a host => .ok a { r with host }
      | .error e host => .error e { r with host } := rfl

theorem run_note (request : Option Error → Request) (question : Ask σ α) (r : Recording σ) :
    (note request question).run r =
      match question.run r.host with
      | .ok a host => .ok a ⟨host, r.requests ++ [request none]⟩
      | .error e host => .error e ⟨host, r.requests ++ [request (some e)]⟩ := rfl

theorem pass_ok {question : Ask σ α} {r t : Recording σ} {a : α}
    (h : (pass question).run r = .ok a t) : question.run r.host = .ok a t.host := by
  rw [run_pass] at h
  cases hrun : question.run r.host with
  | ok b host =>
    rw [hrun] at h
    cases h
    rfl
  | error e host =>
    rw [hrun] at h
    cases h

end Recording

/-! Code that the host knows of, emitted for its recording. -/

namespace Emit

variable {σ α β : Type}

/-- The step, with its questions passed on. -/
def recorded (x : Emit σ α) : Emit (Recording σ) α := fun s =>
  match x ⟨s.host.host, s.builder⟩ with
  | .ok a t => .ok a ⟨{ s.host with host := t.host }, t.builder⟩
  | .error e t => .error e ⟨{ s.host with host := t.host }, t.builder⟩

theorem run_recorded (x : Emit σ α) (s : Emission (Recording σ)) :
    x.recorded.run s =
      match x.run ⟨s.host.host, s.builder⟩ with
      | .ok a t => .ok a ⟨{ s.host with host := t.host }, t.builder⟩
      | .error e t => .error e ⟨{ s.host with host := t.host }, t.builder⟩ := rfl

theorem recorded_build (x : Build α) : (build x : Emit σ α).recorded = build x := by
  funext s
  show (build x : Emit σ α).recorded.run s = (build x).run s
  rw [run_recorded, run_build, run_build]
  cases x.run s.builder <;> rfl

theorem recorded_ask (question : Ask σ α) :
    (ask question).recorded = ask (Recording.pass question) := by
  funext s
  show (ask question).recorded.run s = (ask (Recording.pass question)).run s
  rw [run_recorded, run_ask, run_ask, Recording.run_pass]
  cases question.run s.host.host <;> rfl

theorem recorded_get :
    (get : Emit σ (Emission σ)).recorded = get >>= fun s => pure ⟨s.host.host, s.builder⟩ := rfl

theorem recorded_bind (x : Emit σ α) (f : α → Emit σ β) :
    (x >>= f).recorded = x.recorded >>= fun a => (f a).recorded := by
  funext s
  show (x >>= f).recorded.run s = (x.recorded >>= fun a => (f a).recorded).run s
  rw [run_recorded, EStateM.run_bind, EStateM.run_bind, run_recorded]
  cases x.run ⟨s.host.host, s.builder⟩ <;> rfl

/-- Elementary steps stay elementary. -/
theorem Elementary.recorded {x : Emit σ α} (h : Elementary x) : Elementary x.recorded := by
  cases h with
  | appending h =>
    cases h with
    | ask question =>
      rw [recorded_ask]
      exact .appending (.ask _)
    | emit haffords hkind =>
      rw [recorded_build]
      exact .appending (.emit haffords hkind)
  | marking h =>
    cases h with
    | ask question =>
      rw [recorded_ask]
      exact .marking (.ask _)
    | startTry => exact recorded_build (σ := σ) _ ▸ .marking .startTry
    | endTry => exact recorded_build (σ := σ) _ ▸ .marking .endTry
    | startHandler => exact recorded_build (σ := σ) _ ▸ .marking .startHandler
    | checkHandlerEnd => exact recorded_build (σ := σ) _ ▸ .marking .checkHandlerEnd
    | endHandler token => exact recorded_build (σ := σ) _ ▸ .marking (.endHandler token)
  | createLabel => exact recorded_build (σ := σ) _ ▸ .createLabel
  | jumpTo op label => exact recorded_build (σ := σ) _ ▸ .jumpTo op label
  | placeLabel label => exact recorded_build (σ := σ) _ ▸ .placeLabel label
  | splice ownCode => exact recorded_build (σ := σ) _ ▸ .splice ownCode

theorem recorded_madeOf {x : Emit σ α} (h : MadeOf Elementary x) :
    MadeOf Elementary x.recorded := by
  induction h with
  | base hx => exact .base hx.recorded
  | pure a => exact .pure a
  | throw e => exact .throw e
  | get =>
    rw [recorded_get]
    exact .bind .get fun _ => .pure _
  | bind _ _ ihx ihf =>
    rw [recorded_bind]
    exact .bind ihx ihf

theorem recorded_keeps (x : Emit σ α) : Keeps Emission.requests x.recorded := by
  intro s
  unfold Step.after
  rw [run_recorded]
  cases x.run ⟨s.host.host, s.builder⟩ <;> rfl

theorem build_keeps (x : Build α) : Keeps Emission.requests (build x : Emit (Recording σ) α) := by
  intro s
  rw [after_build]
  rfl

theorem pass_keeps (question : Ask σ α) :
    Keeps Emission.requests (ask (Recording.pass question)) := by
  rw [← recorded_ask]
  exact recorded_keeps _

/-! What is emitted without a question of the caller's own. -/

theorem withToken_keeps (op : OpCode) (question : Ask σ Token) :
    MadeOf (Keeps Emission.requests)
      (do build (Build.withToken op (← ask (Recording.pass question)))) :=
  .bind (.base (pass_keeps question)) fun _ => .base (build_keeps _)

variable [Resolver σ]

theorem call_keeps (op : OpCode) (member : String) :
    MadeOf (Keeps Emission.requests) (call op member : Emit (Recording σ) Unit) := by
  have hcall : MadeOf (Keeps Emission.requests) (do
      let effect ← Step.ofExcept (op.callEffect member)
      let token ← ask (Resolver.memberToken member)
      build (Build.emit op effect (.token token)) : Emit (Recording σ) Unit) :=
    .bind (.ofExcept _) fun _ => .bind (.base (pass_keeps _)) fun _ => .base (build_keeps _)
  exact .ite (.throw _) hcall

theorem loadArgumentAsObject_keeps (index : UInt16) (param : ParamSig) :
    MadeOf (Keeps Emission.requests)
      (loadArgumentAsObject index param : Emit (Recording σ) Unit) := by
  unfold loadArgumentAsObject
  refine .bind (.base (build_keeps _)) fun _ => .ite ?_ (.ite (.base (build_keeps _)) (.pure _))
  refine .bind (.base (pass_keeps _)) fun token => ?_
  have hbox : MadeOf (Keeps Emission.requests)
      (build (Build.withToken .box token) : Emit (Recording σ) Unit) := .base (build_keeps _)
  exact .ite (.bind (.base (build_keeps _)) fun _ => hbox) hbox

/-- The single actions keep what is noted, unless a caller asks. -/
theorem covers_keeps : Covers (Keeps (Emission.requests (σ := σ))) where
  perform := by
    intro a ha
    cases a with
    | ask question => cases ha
    | withType op name => exact withToken_keeps op _
    | loadString value => exact withToken_keeps .ldstr _
    | call op member => exact call_keeps op member
    | loadArgumentAsObject index param => exact loadArgumentAsObject_keeps index param
    | loadTypeOf param =>
      refine .bind (.base (pass_keeps _)) fun token => ?_
      exact .bind (.base (build_keeps _)) fun _ => call_keeps _ _
    | endHandler =>
      refine .bind (.base (build_keeps _)) fun _ => ?_
      exact .bind (.base (pass_keeps _)) fun _ => .base (build_keeps _)
    | createLabel => exact MadeOf.discard (.base (build_keeps _))
    | jump op => exact MadeOf.discard (.base (build_keeps _))
    | _ => exact .base (build_keeps _)
  jump op := .base (build_keeps _)

end Emit

/-- The code, emitted for the recording of its host. -/
def Block.recorded {σ : Type} (block : Block σ) : Block (Recording σ) :=
  ⟨block.step.recorded, Emit.recorded_madeOf block.made⟩

/-! Calls. -/

namespace Instrument

variable {σ α : Type}

theorem Coding.keeps {x : Instrument (Recording σ) α} (h : Coding (Keeps Emission.requests) x) :
    Keeps Session.requests x := by
  intro s
  cases h with
  | @emit _ x hx =>
    rw [after_emit]
    exact hx.keeps s.emission
  | withCache step =>
    rw [after_withCache]
    rfl
  | log event => rfl

theorem addLocal_keeps (type : List UInt8) :
    Keeps Session.requests (addLocal type : Instrument (Recording σ) Nat) := by
  intro s
  unfold Step.after
  rw [run_addLocal]
  cases (LocalsSignature.append type).run s.locals <;> rfl

theorem addLocalOfType_keeps [Resolver σ] (name : String) :
    Keeps Session.requests (addLocalOfType name : Instrument (Recording σ) Nat) := by
  have hask : Keeps Session.requests
      (ask (Resolver.typeSignature name) : Instrument (Recording σ) (List UInt8)) :=
    Coding.keeps (.emit (.base (Emit.pass_keeps _)))
  exact MadeOf.keeps (.bind (.base hask) fun type => .base (addLocal_keeps type))

theorem addResultLocal_keeps :
    Keeps Session.requests (addResultLocal : Instrument (Recording σ) (Option Nat)) := by
  have htarget : MadeOf (Keeps Session.requests) (target : Instrument (Recording σ) Target) :=
    .bind .get fun s => .pure s.target
  refine MadeOf.keeps (.bind htarget fun target => .ite (.pure none) ?_)
  exact .bind (.base (addLocal_keeps _)) fun index => .pure (some index)

end Instrument

namespace Call

open Instrument

variable {σ : Type}

/-- The same request to a session whose host is recorded. -/
def recorded : Call σ → Call (Recording σ)
  | addLocal type => addLocal type
  | addLocalOfType name => addLocalOfType name
  | addResultLocal => addResultLocal
  | others step => others step
  | emit block => emit block.recorded
  | placeOwnCode => placeOwnCode
  | emitParameterTypes => emitParameterTypes
  | emitArguments => emitArguments
  | emitObjects elements => emitObjects (elements.map Block.recorded)
  | writeLine message => writeLine message
  | loadType assemblyPath typeName => loadType assemblyPath typeName
  | loadMethodOfType methodName argumentTypes =>
    loadMethodOfType methodName (argumentTypes.map Block.recorded)
  | invokeMethod => invokeMethod
  | loadMethod wanted functionId argumentTypes useCache =>
    loadMethod wanted functionId (argumentTypes.map Block.recorded) useCache
  | tryCatch body handler rethrow => tryCatch body.recorded handler.recorded rethrow
  | emitReturn resultLocal => emitReturn resultLocal

theorem blocks_recorded (c : Call σ) : c.recorded.blocks = c.blocks.map Block.recorded := by
  cases c with
  | loadMethodOfType _ argumentTypes => cases argumentTypes <;> rfl
  | loadMethod _ _ argumentTypes _ => cases argumentTypes <;> rfl
  | _ => rfl

variable [Resolver σ]

/-- No call asks the host to keep anything. -/
theorem recorded_keeps (c : Call σ) : Keeps Session.requests c.recorded.perform := by
  by_cases hlocal : c.recorded.addsLocal = true
  · cases c with
    | addLocal type =>
      exact MadeOf.keeps (.bind (.base (addLocal_keeps type)) fun index => .pure (some index))
    | addLocalOfType name =>
      exact MadeOf.keeps (.bind (.base (addLocalOfType_keeps name)) fun index => .pure (some index))
    | addResultLocal => exact addResultLocal_keeps
    | _ => cases hlocal
  · have hblocks : ∀ block ∈ c.recorded.blocks, MadeOf (Keeps Emission.requests) block.step := by
      intro block hblock
      rw [blocks_recorded] at hblock
      obtain ⟨block, -, rfl⟩ := List.mem_map.mp hblock
      exact .base (Emit.recorded_keeps block.step)
    obtain ⟨x, hx, hperform⟩ :=
      perform_coding Emit.covers_keeps (Bool.not_eq_true _ ▸ hlocal) hblocks
    rw [hperform]
    exact MadeOf.keeps (.bind (hx.mono fun _ _ hx => hx.keeps) fun _ => .pure none)

/-- Whatever is called, in whatever order. -/
theorem requests_run (calls : List (Call σ)) (s : Session (Recording σ)) :
    (run (calls.map recorded) s).requests = s.requests := by
  induction calls generalizing s with
  | nil => rfl
  | cons c rest ih => exact (ih _).trans (c.recorded_keeps s)

end Call

/-! The start. -/

namespace Setting

variable {σ α : Type}

/-- The setting with a recording of its host that has noted nothing. -/
def recorded (s : Setting σ) : Setting (Recording σ) := ⟨⟨s.host, []⟩, s.shared⟩

theorem pass_keeps (question : Ask σ α) :
    Keeps Setting.requests (Setting.ask (Recording.pass question)) := by
  intro s
  unfold Step.after
  rw [run_ask, Recording.run_pass]
  cases question.run s.host.host <;> rfl

theorem log_keeps (method : String) (event : Event) :
    Keeps Setting.requests (Setting.log method event : Step (Setting (Recording σ)) Unit) :=
  fun _ => rfl

theorem decompose_keeps (method : String) (data : List UInt8) :
    Keeps Setting.requests
      (Setting.decompose method data : Step (Setting (Recording σ)) MethodBody) := by
  intro s
  unfold Setting.decompose
  cases MethodBody.decompose data <;> rfl

theorem readMethod_keeps [Host σ] (config : Config) :
    MadeOf (Keeps Setting.requests)
      (Setting.readMethod config : Step (Setting (Recording σ)) _) := by
  refine .bind .get fun _ => .bind (.base (log_keeps _ _)) fun _ => ?_
  refine .bind (.base (pass_keeps _)) fun data => .bind (.base (decompose_keeps _ _)) fun body => ?_
  refine .bind (.base (log_keeps _ _)) fun _ => ?_
  -- what is done with the locals, wherever they come from
  have hrest : ∀ (name : String) (event : Event)
      (result : MethodSig → Target × LocalsSignature × Builder),
      MadeOf (Keeps Setting.requests) (do
        let signature ← Step.ofExcept (MethodSig.ofBytes (Host.methodSignature (← get).host))
        Setting.log name event
        return result signature : Step (Setting (Recording σ)) _) := by
    intro name event result
    refine .bind .get fun _ => .bind (.ofExcept _) fun signature => ?_
    exact .bind (.base (log_keeps _ _)) fun _ => .pure _
  refine .ite ?_ ?_
  · exact .bind (.pure _) fun locals => hrest _ _ _
  · exact .bind (.base (pass_keeps _)) fun blob => .bind (.ofExcept _) fun locals => hrest _ _ _

end Setting

/-- A session starts without a request to keep anything. -/
theorem Session.requests_start {σ : Type} [Host σ] {config : Config} {setting : Setting σ}
    {s : Session (Recording σ)} (h : Session.start config setting.recorded = .ok s) :
    s.requests = [] := by
  unfold Session.start at h
  split at h
  · next target locals builder host shared hread =>
    cases h
    replace hread : (Setting.readMethod config).run setting.recorded =
      .ok (target, locals, builder) ⟨host, shared⟩ := hread
    have hkeeps := (Setting.readMethod_keeps config).keeps setting.recorded
    rw [after_of_ok hread] at hkeeps
    exact hkeeps
  · cases h

end CilInstrument
