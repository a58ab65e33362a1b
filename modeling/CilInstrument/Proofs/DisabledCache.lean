import CilInstrument.Proofs.FinalStep

/- A cache that is switched off has no say. A step `Overlooks` a part of the state if it
   gives the same with any other value there, and leaves the value alone; that is so of
   every step of a session but the cached lookup, with the cache as the part. With the
   cache switched off a lookup never gets to the cache, whatever the caller asks for, so
   two rewrites that differ in nothing but the cache and what is asked of it give the same
   throughout (`Session.rewrite_eq_of_disabled`). -/
namespace CilInstrument

namespace Step

variable {σ κ α β : Type}

/-- The result, with another state behind it. -/
def onState (f : σ → σ) : EStateM.Result Error σ α → EStateM.Result Error σ α
  | .ok a s => .ok a (f s)
  | .error e s => .error e (f s)

/-- The step neither looks at what `put` writes nor touches it. -/
def Overlooks (put : κ → σ → σ) ⦃α : Type⦄ (x : Step σ α) : Prop :=
  ∀ k s, x.run (put k s) = onState (put k) (x.run s)

namespace Overlooks

variable {put : κ → σ → σ} {x : Step σ α}

theorem pure (a : α) : Overlooks put (Pure.pure a : Step σ α) := fun _ _ => rfl

theorem throw (e : Error) : Overlooks put (throw e : Step σ α) := fun _ _ => rfl

theorem ofExcept (r : Except Error α) : Overlooks put (Step.ofExcept r : Step σ α) := by
  cases r with
  | ok a => exact .pure a
  | error e => exact .throw e

theorem bind {f : α → Step σ β} (hx : Overlooks put x) (hf : ∀ a, Overlooks put (f a)) :
    Overlooks put (x >>= f) := by
  intro k s
  rw [EStateM.run_bind, EStateM.run_bind, hx k s]
  cases x.run s with
  | ok a t => exact hf a k t
  | error e t => rfl

/-- What is read of the state may be anything that `put` does not write. -/
theorem get {f : σ → Step σ β} (hsame : ∀ k s, f (put k s) = f s)
    (hf : ∀ s, Overlooks put (f s)) : Overlooks put (MonadState.get >>= f) := by
  intro k s
  rw [EStateM.run_bind, EStateM.run_bind]
  show (f (put k s)).run (put k s) = onState (put k) ((f s).run s)
  rw [hsame, hf s k s]

theorem modify {f : σ → σ} (hf : ∀ k s, f (put k s) = put k (f s)) :
    Overlooks put (modify f : Step σ PUnit) := by
  intro k s
  rw [EStateM.run_modify, EStateM.run_modify, hf]
  rfl

theorem ite {c : Prop} [Decidable c] {y : Step σ α} (hx : Overlooks put x)
    (hy : Overlooks put y) : Overlooks put (if c then x else y) := by
  split
  · exact hx
  · exact hy

/-- The step gives the same whatever is written, -/
theorem outcome (h : Overlooks put x) (k : κ) (s : σ) : x.outcome (put k s) = x.outcome s := by
  have hrun := h k s
  cases hx : x.run s with
  | ok a t =>
    rw [hx] at hrun
    rw [outcome_of_ok hx, outcome_of_ok hrun]
  | error e t =>
    rw [hx] at hrun
    rw [outcome_of_error hx, outcome_of_error hrun]

/-- and leaves the same, with what was written still there. -/
theorem after (h : Overlooks put x) (k : κ) (s : σ) : x.after (put k s) = put k (x.after s) := by
  have hrun := h k s
  cases hx : x.run s with
  | ok a t =>
    rw [hx] at hrun
    rw [after_of_ok hx, after_of_ok hrun]
  | error e t =>
    rw [hx] at hrun
    rw [after_of_error hx, after_of_error hrun]

end Overlooks

end Step

open Step

/-! The cache, as a part of the state. -/

namespace Shared

def putCache (c : MethodCache MethodLookup) (s : Shared) : Shared := { s with cache := c }

theorem recordFatal_putCache (c : MethodCache MethodLookup) (s : Shared) (method : String)
    (e : Error) : (s.putCache c).recordFatal method e = (s.recordFatal method e).putCache c := by
  unfold recordFatal
  split <;> rfl

end Shared

def Setting.putCache {σ : Type} (c : MethodCache MethodLookup) (s : Setting σ) : Setting σ :=
  { s with shared := s.shared.putCache c }

def Session.putCache {σ : Type} (c : MethodCache MethodLookup) (s : Session σ) : Session σ :=
  { s with shared := s.shared.putCache c }

namespace Setting

variable {σ α : Type}

theorem ask_overlooks (question : Ask σ α) : Overlooks putCache (Setting.ask question) := by
  intro c s
  rw [run_ask, run_ask, show (s.putCache c).host = s.host from rfl]
  cases question.run s.host <;> rfl

theorem log_overlooks (method : String) (event : Event) :
    Overlooks putCache (Setting.log method event : Step (Setting σ) Unit) :=
  .modify fun _ _ => rfl

theorem decompose_overlooks (method : String) (data : List UInt8) :
    Overlooks putCache (Setting.decompose method data : Step (Setting σ) MethodBody) := by
  unfold Setting.decompose
  cases MethodBody.decompose data with
  | ok body => exact .pure body
  | error e =>
    refine .bind (.modify fun c s => ?_) fun _ => .throw e
    show Setting.mk _ _ = Setting.mk _ _
    rw [← Shared.recordFatal_putCache]
    rfl

theorem readMethod_overlooks [Host σ] (config : Config) :
    Overlooks putCache (Setting.readMethod config : Step (Setting σ) _) := by
  refine .get (fun _ _ => rfl) fun _ => .bind (log_overlooks _ _) fun _ => ?_
  refine .bind (ask_overlooks _) fun data => .bind (decompose_overlooks _ _) fun body => ?_
  refine .bind (log_overlooks _ _) fun _ => ?_
  -- what is done with the locals, wherever they come from
  have hrest : ∀ (name : String) (event : Event)
      (result : MethodSig → Target × LocalsSignature × Builder),
      Overlooks putCache (do
        let signature ← Step.ofExcept (MethodSig.ofBytes (Host.methodSignature (← get).host))
        Setting.log name event
        return result signature : Step (Setting σ) _) := by
    intro name event result
    refine .get (fun _ _ => rfl) fun _ => .bind (.ofExcept _) fun signature => ?_
    exact .bind (log_overlooks _ _) fun _ => .pure _
  refine .ite ?_ ?_
  · exact .bind (.pure _) fun locals => hrest _ _ _
  · exact .bind (ask_overlooks _) fun blob => .bind (.ofExcept _) fun locals => hrest _ _ _

end Setting

/-- Whether there can be a session, and what it is like, does not hang on the cache. -/
theorem Session.start_putCache {σ : Type} [Host σ] (config : Config) (c : MethodCache MethodLookup)
    (setting : Setting σ) :
    Session.start config (setting.putCache c) =
      match Session.start config setting with
      | .ok s => .ok (s.putCache c)
      | .error (e, setting) => .error (e, setting.putCache c) := by
  have hread : Setting.readMethod config (setting.putCache c) =
      onState (Setting.putCache c) (Setting.readMethod config setting) :=
    Setting.readMethod_overlooks config c setting
  unfold Session.start
  rw [hread]
  cases Setting.readMethod config setting <;> rfl

/-! Steps of a session. -/

namespace Instrument

variable {σ α : Type}

theorem emit_overlooks (x : Emit σ α) : Overlooks Session.putCache (emit x) := by
  intro c s
  rw [run_emit, run_emit, show (s.putCache c).emission = s.emission from rfl]
  cases x.run s.emission <;> rfl

theorem log_overlooks (event : Event) :
    Overlooks Session.putCache (log event : Instrument σ Unit) :=
  .modify fun _ _ => rfl

/-- A step that hangs on the target. -/
theorem forTarget_overlooks {f : Target → Instrument σ α}
    (hf : ∀ target, Overlooks Session.putCache (f target)) :
    Overlooks Session.putCache (target >>= f) := fun c s => hf s.target c s

theorem addLocal_overlooks (type : List UInt8) :
    Overlooks Session.putCache (addLocal type : Instrument σ Nat) := by
  intro c s
  rw [run_addLocal, run_addLocal, show (s.putCache c).locals = s.locals from rfl]
  cases (LocalsSignature.append type).run s.locals with
  | ok index locals => rfl
  | error e locals =>
    show EStateM.Result.error e (Session.mk _ _ _ _) = EStateM.Result.error e (Session.mk _ _ _ _)
    rw [← Shared.recordFatal_putCache]
    rfl

theorem addResultLocal_overlooks :
    Overlooks Session.putCache (addResultLocal : Instrument σ (Option Nat)) :=
  forTarget_overlooks fun _ =>
    .ite (.pure none) (.bind (addLocal_overlooks _) fun index => .pure (some index))

variable [Resolver σ]

theorem uncached_overlooks (wanted : MethodLookup) (functionId : Nat)
    (argumentTypes : Option (Emit σ Unit)) :
    Overlooks Session.putCache (loadMethod wanted functionId argumentTypes false) := by
  unfold loadMethod
  refine forTarget_overlooks fun target => ?_
  rw [if_pos (show (!false || target.config.disableCache) = true from rfl)]
  refine .bind (log_overlooks _) fun _ => ?_
  exact .bind (forTarget_overlooks fun _ => emit_overlooks _) fun _ =>
    forTarget_overlooks fun _ => emit_overlooks _

/-- With the cache switched off, it is all one whether a caller wants it. -/
theorem run_loadMethod_of_disabled {s : Session σ} (h : s.target.config.disableCache = true)
    (wanted : MethodLookup) (functionId : Nat) (argumentTypes : Option (Emit σ Unit))
    (useCache : Bool) :
    (loadMethod wanted functionId argumentTypes useCache).run s =
      (loadMethod wanted functionId argumentTypes false).run s := by
  unfold loadMethod
  simp only [EStateM.run_bind, run_target, h, Bool.or_true, if_true]

end Instrument

namespace Instrument

variable {σ : Type} [Host σ]

theorem writeBack_overlooks (body : List UInt8) :
    Overlooks Session.putCache (writeBack body : Instrument σ Unit) := by
  intro c s
  rw [run_writeBack, run_writeBack, show (s.putCache c).host = s.host from rfl]
  cases (Host.writeMethod body).run s.host with
  | ok _ host => rfl
  | error e host =>
    show EStateM.Result.error _ (Session.mk _ _ _ _) = EStateM.Result.error _ (Session.mk _ _ _ _)
    rw [← Shared.recordFatal_putCache]
    rfl

theorem localsToken_overlooks :
    Overlooks Session.putCache (localsToken : Instrument σ Token) := by
  refine .get (fun _ _ => rfl) fun s => .ite (.pure _) ?_
  exact .bind (emit_overlooks _) fun token => .bind (log_overlooks _) fun _ => .pure token

theorem finish_overlooks (format : HeaderFormat) :
    Overlooks Session.putCache (finish format : Instrument σ Unit) := by
  cases format with
  | fat =>
    refine .bind (log_overlooks _) fun _ => .get (fun _ _ => rfl) fun s => ?_
    refine .bind (.ofExcept _) fun code => .bind (.ofExcept _) fun sections => ?_
    refine .bind (.ofExcept _) fun size => forTarget_overlooks fun target => ?_
    exact .bind localsToken_overlooks fun token => writeBack_overlooks _
  | tiny =>
    refine .bind (log_overlooks _) fun _ => .get (fun _ _ => rfl) fun s => ?_
    have hbody : Overlooks Session.putCache (do
        let code ← Step.ofExcept (← get).builder.bytes
        let first ← Step.ofExcept (MethodHeader.tinyByte code.length)
        writeBack (first :: code) : Instrument σ Unit) :=
      .get (fun _ _ => rfl) fun s => .bind (.ofExcept _) fun code =>
        .bind (.ofExcept _) fun first => writeBack_overlooks _
    cases tinyObstacle? s with
    | some obstacle => exact .bind (.throw _) fun _ => hbody
    | none => exact hbody

end Instrument

/-! Calls. -/

namespace Call

open Instrument

variable {σ : Type}

/-- The call of a session itself, and not what others do in the meantime. -/
def isOwn : Call σ → Bool
  | others _ => false
  | _ => true

/-- The same call, without the wish for a cached lookup. -/
def uncached : Call σ → Call σ
  | loadMethod wanted functionId argumentTypes _ => loadMethod wanted functionId argumentTypes false
  | c => c

variable [Resolver σ]

theorem uncached_overlooks {c : Call σ} (h : c.isOwn = true) :
    Overlooks Session.putCache c.uncached.perform := by
  have hunit : ∀ {x : Instrument σ Unit}, Overlooks Session.putCache x →
      Overlooks Session.putCache (do x; return none : Instrument σ (Option Nat)) :=
    fun hx => .bind hx fun _ => .pure none
  cases c with
  | addLocal type => exact .bind (addLocal_overlooks type) fun index => .pure (some index)
  | addLocalOfType name =>
    refine .bind ?_ fun index => .pure (some index)
    exact .bind (emit_overlooks _) fun type => addLocal_overlooks type
  | addResultLocal => exact addResultLocal_overlooks
  | others step => cases h
  | placeOwnCode =>
    refine hunit (.get (fun _ _ => rfl) fun s => .bind (log_overlooks _) fun _ => ?_)
    exact forTarget_overlooks fun target => emit_overlooks _
  | emitParameterTypes =>
    refine hunit (.bind (forTarget_overlooks fun target => .pure _) fun types => ?_)
    exact emit_overlooks types
  | loadMethod wanted functionId argumentTypes useCache =>
    exact hunit (Instrument.uncached_overlooks wanted functionId _)
  | emitArguments | loadType _ _ | loadMethodOfType _ _ | emitReturn _ =>
    exact hunit (forTarget_overlooks fun target => emit_overlooks _)
  | emit _ | emitObjects _ | writeLine _ | invokeMethod | tryCatch _ _ _ =>
    exact hunit (emit_overlooks _)

theorem run_uncached {s : Session σ} (h : s.target.config.disableCache = true) (c : Call σ) :
    c.perform.run s = c.uncached.perform.run s := by
  cases c with
  | loadMethod wanted functionId argumentTypes useCache =>
    show (do Instrument.loadMethod wanted functionId _ useCache; return none).run s =
      (do Instrument.loadMethod wanted functionId _ false; return none).run s
    rw [EStateM.run_bind, EStateM.run_bind, run_loadMethod_of_disabled h]
  | _ => rfl

/-- What a row of calls gives, call by call. -/
def results : List (Call σ) → Session σ → List (Except Error (Option Nat))
  | [], _ => []
  | c :: rest, s => c.perform.outcome s :: results rest (c.perform.after s)

/-- Two rows of calls that differ only in their wishes for cached lookups, in sessions that
differ only in the cache, go on side by side. -/
theorem side_by_side {calls calls' : List (Call σ)}
    (hcalls : calls.map uncached = calls'.map uncached) (hown : ∀ c ∈ calls, c.isOwn = true)
    {s : Session σ} (hdisabled : s.target.config.disableCache = true)
    (cache : MethodCache MethodLookup) :
    results calls' (s.putCache cache) = results calls s ∧
      run calls' (s.putCache cache) = (run calls s).putCache cache := by
  induction calls generalizing calls' s with
  | nil =>
    rw [List.map_eq_nil_iff.mp hcalls.symm]
    exact ⟨rfl, rfl⟩
  | cons c rest ih =>
    obtain ⟨c', rest', rfl, hc, hrest⟩ := List.map_eq_cons_iff.mp hcalls.symm
    have hrun := run_uncached hdisabled c
    have hrun' : c'.perform.run (s.putCache cache) = c.uncached.perform.run (s.putCache cache) := by
      rw [← hc]
      exact run_uncached (s := s.putCache cache) hdisabled c'
    have hoverlooks := uncached_overlooks (hown c List.mem_cons_self)
    have houtcome : c'.perform.outcome (s.putCache cache) = c.perform.outcome s := by
      calc c'.perform.outcome (s.putCache cache)
          = c.uncached.perform.outcome (s.putCache cache) := by
            unfold Step.outcome
            rw [show c'.perform (s.putCache cache) = _ from hrun']
            rfl
        _ = c.uncached.perform.outcome s := hoverlooks.outcome cache s
        _ = c.perform.outcome s := by
            unfold Step.outcome
            rw [show c.perform s = _ from hrun]
            rfl
    have hafter : c'.perform.after (s.putCache cache) = (c.perform.after s).putCache cache := by
      unfold Step.after
      rw [hrun', hrun]
      exact hoverlooks.after cache s
    have htarget : (c.perform.after s).target = s.target := (perform_adds c s).target
    obtain ⟨hresults, hsession⟩ := ih hrest.symm (fun d hd => hown d (List.mem_cons_of_mem _ hd))
      (s := c.perform.after s) (htarget ▸ hdisabled)
    refine ⟨?_, ?_⟩
    · rw [results, results, houtcome, hafter, hresults]
    · rw [run, run, hafter, hsession]

end Call

/-! Whole rewrites. -/

/-- What a whole rewrite comes to. -/
structure Rewrite (σ : Type) where
  /-- Why there is no session, or what each call and the final step gave. -/
  results : Except Error (List (Except Error (Option Nat)) × Except Error Unit)
  /-- The host behind the rewrite, with whatever it keeps of what it was asked for and given. -/
  host : σ
  shared : Shared

def Rewrite.putCache {σ : Type} (c : MethodCache MethodLookup) (r : Rewrite σ) : Rewrite σ :=
  { r with shared := r.shared.putCache c }

namespace Session

variable {σ : Type} [Host σ]

/-- Starts a session, makes the calls, and takes the final step. -/
def rewrite (config : Config) (setting : Setting σ) (calls : List (Call σ))
    (format : HeaderFormat) : Rewrite σ :=
  match Session.start config setting with
  | .error (e, setting) => ⟨.error e, setting.host, setting.shared⟩
  | .ok s =>
    let behind := Call.run calls s
    let finished := (Instrument.finish format).after behind
    ⟨.ok (Call.results calls s, (Instrument.finish format).outcome behind), finished.host,
      finished.shared⟩

/-- A session goes by the options that it was started with, and by the name of the method. -/
theorem target_of_start {config : Config} {setting : Setting σ} {s : Session σ}
    (h : Session.start config setting = .ok s) :
    s.target.config = config ∧ s.target.name = Host.methodName setting.host := by
  unfold Session.start at h
  split at h
  · next target locals builder host shared hread =>
    cases h
    show target.config = config ∧ target.name = Host.methodName setting.host
    replace hread : (Setting.readMethod config).run setting =
      .ok (target, locals, builder) ⟨host, shared⟩ := hread
    unfold Setting.readMethod at hread
    obtain ⟨_, _, hget, hread⟩ := run_bind_ok.mp hread
    cases hget
    obtain ⟨_, _, -, hread⟩ := run_bind_ok.mp hread
    obtain ⟨_, _, -, hread⟩ := run_bind_ok.mp hread
    obtain ⟨body, _, -, hread⟩ := run_bind_ok.mp hread
    obtain ⟨_, _, -, hread⟩ := run_bind_ok.mp hread
    -- options and name are written down last, wherever the locals come from
    have hlast : ∀ {name : String} {event : Event} {locals' : LocalsSignature} {u t : Setting σ},
        (do
          let signature ← Step.ofExcept (MethodSig.ofBytes (Host.methodSignature (← get).host))
          Setting.log name event
          return ({ config, name, format := body.format, header := body.header,
                    ownCode := body.code, signature },
            locals', Builder.start body.exceptions) : Step (Setting σ) _).run u =
          .ok (target, locals, builder) t → target.config = config ∧ target.name = name := by
      intro name event locals' u t h
      obtain ⟨_, _, -, h⟩ := run_bind_ok.mp h
      obtain ⟨_, _, -, h⟩ := run_bind_ok.mp h
      obtain ⟨_, _, -, h⟩ := run_bind_ok.mp h
      cases h
      exact ⟨rfl, rfl⟩
    simp only at hread
    split at hread
    · obtain ⟨_, _, -, hread⟩ := run_bind_ok.mp hread
      exact hlast hread
    · obtain ⟨_, _, -, hread⟩ := run_bind_ok.mp hread
      obtain ⟨_, _, -, hread⟩ := run_bind_ok.mp hread
      exact hlast hread
  · cases h

theorem rewrite_putCache {config : Config} (hdisabled : config.disableCache = true)
    (setting : Setting σ) (cache : MethodCache MethodLookup) {calls calls' : List (Call σ)}
    (hcalls : calls.map Call.uncached = calls'.map Call.uncached)
    (hown : ∀ c ∈ calls, c.isOwn = true) (format : HeaderFormat) :
    rewrite config (setting.putCache cache) calls' format =
      (rewrite config setting calls format).putCache cache := by
  unfold rewrite
  rw [start_putCache]
  cases hstart : Session.start config setting with
  | error failure => rfl
  | ok s =>
    obtain ⟨hresults, hbehind⟩ := Call.side_by_side hcalls hown
      ((congrArg Config.disableCache (target_of_start hstart).1).trans hdisabled) cache
    simp only [hresults, hbehind]
    rw [(Instrument.finish_overlooks format).outcome, (Instrument.finish_overlooks format).after]
    rfl

end Session

/-- What a host can be asked. -/
inductive Question where
  | string (value : String)
  | type (name : String)
  | member (text : String)
  | typeSpec (blob : List UInt8)
  | typeSignature (name : String)
  | method
  | signature (token : Token)
  | intern (blob : List UInt8)
  | write (body : List UInt8)
  deriving Repr, DecidableEq

/-- A host that keeps a list of all that it was asked. -/
structure Transcript (σ : Type) where
  host : σ
  asked : List Question
  deriving Repr, DecidableEq

namespace Transcript

variable {σ α : Type}

def pose (question : Question) (answer : Ask σ α) : Ask (Transcript σ) α := fun t =>
  match answer t.host with
  | .ok a host => .ok a ⟨host, t.asked ++ [question]⟩
  | .error e host => .error e ⟨host, t.asked ++ [question]⟩

instance [Resolver σ] : Resolver (Transcript σ) where
  stringToken value := pose (.string value) (Resolver.stringToken value)
  typeToken name := pose (.type name) (Resolver.typeToken name)
  memberToken text := pose (.member text) (Resolver.memberToken text)
  typeSpecToken blob := pose (.typeSpec blob) (Resolver.typeSpecToken blob)
  typeSignature name := pose (.typeSignature name) (Resolver.typeSignature name)

instance [Host σ] : Host (Transcript σ) where
  toResolver := inferInstance
  methodName t := Host.methodName t.host
  methodSignature t := Host.methodSignature t.host
  methodBytes := pose .method Host.methodBytes
  signatureOf token := pose (.signature token) (Host.signatureOf token)
  internSignature blob := pose (.intern blob) (Host.internSignature blob)
  writeMethod body := pose (.write body) (Host.writeMethod body)

end Transcript

namespace Session

variable {σ : Type} [Host σ]

/-- With the cache switched off, two rewrites that differ in the cache they find and in the
wishes for cached lookups give the same, call by call, and leave the same host behind: it
was asked for the same tokens, stores the same signatures and has the same body (a
`Transcript` has all of it in a list). Each leaves its own cache as it found it. -/
theorem rewrite_eq_of_disabled {config : Config} (hdisabled : config.disableCache = true)
    (host : σ) (log : Array LogRecord) (cache cache' : MethodCache MethodLookup)
    {calls calls' : List (Call σ)} (hcalls : calls.map Call.uncached = calls'.map Call.uncached)
    (hown : ∀ c ∈ calls, c.isOwn = true) (format : HeaderFormat) :
    let first := rewrite config ⟨host, ⟨cache, log⟩⟩ calls format
    let second := rewrite config ⟨host, ⟨cache', log⟩⟩ calls' format
    first.results = second.results ∧ first.host = second.host ∧
      first.shared.log = second.shared.log ∧
      first.shared.cache = cache ∧ second.shared.cache = cache' := by
  intro first second
  have hfirst : first = first.putCache cache :=
    rewrite_putCache hdisabled ⟨host, ⟨cache, log⟩⟩ cache rfl hown format
  have hsecond : second = first.putCache cache' :=
    rewrite_putCache hdisabled ⟨host, ⟨cache, log⟩⟩ cache' hcalls hown format
  rw [hsecond]
  exact ⟨rfl, rfl, rfl, congrArg (·.shared.cache) hfirst, rfl⟩

/-- A key that leads elsewhere. -/
def strayCache : MethodCache MethodLookup := ⟨[(.ofMethod "C" "M" 1, ⟨"b.dll", "D", "N"⟩)]⟩

/-- A session that asks for a method, and for a local. -/
def lookingUp (useCache : Bool) : List (Call (Transcript StoredMethod)) :=
  [.loadMethod ⟨"a.dll", "C", "M"⟩ 1 none useCache, .addLocal [0x1C]]

theorem rewrite_eq_of_disabled_lookingUp :
    let config : Config := { Config.default with disableCache := true }
    let host : Transcript StoredMethod := ⟨.empty, []⟩
    let first := rewrite config ⟨host, ⟨.empty, #[]⟩⟩ (lookingUp true) .fat
    let second := rewrite config ⟨host, ⟨strayCache, #[]⟩⟩ (lookingUp false) .fat
    first.results.toOption = some ([.ok none, .ok (some 0)], .ok ()) ∧
      .string "a.dll" ∈ first.host.asked ∧ .string "b.dll" ∉ second.host.asked ∧
      first.results = second.results ∧ first.host = second.host ∧
      first.shared.log = second.shared.log ∧
      first.shared.cache = .empty ∧ second.shared.cache = strayCache := by
  intro config host first second
  refine ⟨by decide +kernel, by decide +kernel, by decide +kernel, ?_⟩
  have hcalls : (lookingUp true).map (Call.uncached (σ := Transcript StoredMethod)) =
      (lookingUp false).map Call.uncached := rfl
  refine rewrite_eq_of_disabled rfl host #[] .empty strayCache hcalls (fun c hc => ?_) .fat
  rcases List.mem_cons.mp hc with rfl | hc
  · rfl
  · obtain rfl := List.mem_singleton.mp hc
    rfl

end Session

end CilInstrument
