import Mathlib.Logic.Relation
import CilInstrument.Proofs.Blocks
import CilInstrument.Proofs.Growth
import CilInstrument.Session.Finish

/- Everything that can be asked of a session between its start and its final step, as
   data. A call that fails leaves what it did until then, and the next one goes on from
   there. Whatever the calls are, the target stays as it was, the builder is only changed
   as `Change` says, and the locals only grow (`Call.follows_run`). -/
namespace CilInstrument

open Step

/-- One request to a session. -/
inductive Call (σ : Type) where
  | addLocal (type : List UInt8)
  | addLocalOfType (name : String)
  | addResultLocal
  /-- What other sessions do to the shared cache in the meantime. -/
  | others (step : Step (MethodCache MethodLookup) Unit)
  /-- Code that is emitted directly. -/
  | emit (block : Block σ)
  | placeOwnCode
  | emitParameterTypes
  | emitArguments
  | emitObjects (elements : List (Block σ))
  | writeLine (message : String)
  | loadType (assemblyPath typeName : String)
  | loadMethodOfType (methodName : String) (argumentTypes : Option (Block σ))
  | invokeMethod
  | loadMethod (wanted : MethodLookup) (functionId : Nat) (argumentTypes : Option (Block σ))
    (useCache : Bool)
  | tryCatch (body handler : Block σ) (rethrow : Bool)
  | emitReturn (resultLocal : Option UInt16)

namespace Instrument

variable {σ : Type}

/-- Steps of a session that only concern its code, its log or the shared cache; the code is
made of steps of the kind `base`. -/
inductive Coding (base : ∀ ⦃α : Type⦄, Emit σ α → Prop) : ∀ ⦃α : Type⦄, Instrument σ α → Prop
  | emit {α : Type} {x : Emit σ α} : MadeOf base x → Coding base (emit x)
  | withCache {α : Type} (step : Step (MethodCache MethodLookup) α) : Coding base (withCache step)
  | log (event : Event) : Coding base (log event)

/-- What calls can do to a session. `indices` are those of the locals that were added. -/
structure Follows (s : Session σ) (indices : List Nat) (s' : Session σ) : Prop where
  target : s'.target = s.target
  builder : Relation.ReflTransGen Change s.builder s'.builder
  inOrder : indices = List.range' s.locals.count indices.length
  count : s'.locals.count = s.locals.count + indices.length
  isModified : s'.locals.isModified = (s.locals.isModified || !indices.isEmpty)

namespace Follows

theorem refl (s : Session σ) : Follows s [] s where
  target := rfl
  builder := .refl
  inOrder := rfl
  count := rfl
  isModified := by simp

theorem trans {s t u : Session σ} {first second : List Nat} (h : Follows s first t)
    (h' : Follows t second u) : Follows s (first ++ second) u where
  target := h'.target.trans h.target
  builder := h.builder.trans h'.builder
  inOrder := by
    have hsecond := h'.inOrder
    rw [h.count] at hsecond
    rw [List.length_append, ← List.range'_append_1, ← h.inOrder, ← hsecond]
  count := by
    rw [h'.count, h.count, List.length_append, Nat.add_assoc]
  isModified := by
    rw [h'.isModified, h.isModified]
    cases first <;> simp

/-- Without a new local, it is enough to look at target, builder and locals. -/
theorem of_eq {s s' : Session σ} (htarget : s'.target = s.target)
    (hbuilder : Relation.ReflTransGen Change s.builder s'.builder)
    (hlocals : s'.locals = s.locals) : Follows s [] s' where
  target := htarget
  builder := hbuilder
  inOrder := rfl
  count := by
    rw [hlocals]
    rfl
  isModified := by
    rw [hlocals]
    simp

end Follows

theorem run_emit {α : Type} (x : Emit σ α) (s : Session σ) :
    (emit x).run s =
      match x.run s.emission with
      | .ok a emission => .ok a { s with emission }
      | .error e emission => .error e { s with emission } := rfl

theorem after_emit {α : Type} (x : Emit σ α) (s : Session σ) :
    (emit x).after s = { s with emission := x.after s.emission } := by
  unfold Step.after
  rw [run_emit]
  cases x.run s.emission <;> rfl

theorem run_withCache {α : Type} (step : Step (MethodCache MethodLookup) α) (s : Session σ) :
    (withCache step).run s =
      match step.run s.shared.cache with
      | .ok a cache => .ok a { s with shared := { s.shared with cache } }
      | .error e cache => .error e { s with shared := { s.shared with cache } } := rfl

theorem after_withCache {α : Type} (step : Step (MethodCache MethodLookup) α) (s : Session σ) :
    (withCache step).after s =
      { s with shared := { s.shared with cache := step.after s.shared.cache } } := by
  unfold Step.after
  rw [run_withCache]
  cases step.run s.shared.cache <;> rfl

theorem run_target (s : Session σ) : target.run s = .ok s.target s := rfl

theorem run_log (event : Event) (s : Session σ) :
    (log event).run s = .ok () { s with shared := s.shared.record s.target.name event } := rfl

theorem Coding.follows {α : Type} {x : Instrument σ α} (h : Coding Emit.Elementary x)
    (s : Session σ) : Follows s [] (x.after s) := by
  cases h with
  | @emit _ x hx =>
    rw [after_emit]
    refine .of_eq rfl ?_ rfl
    exact hx.after (R := fun s t : Emission σ => Relation.ReflTransGen Change s.builder t.builder)
      (fun _ => .refl) .trans (fun _ _ hx s => .single (hx.change s)) s.emission
  | withCache step =>
    rw [after_withCache]
    exact .of_eq rfl .refl rfl
  | log event => exact .of_eq rfl .refl rfl

theorem Coding.follows_of_madeOf {α : Type} {x : Instrument σ α}
    (h : MadeOf (Coding Emit.Elementary) x) (s : Session σ) : Follows s [] (x.after s) :=
  h.after (R := fun s t : Session σ => Follows s [] t) .refl .trans (fun _ _ hx s => hx.follows s) s

/-! Locals. -/

/-- The index of the local that a step added, if it did. -/
def added : EStateM.Result Error (Session σ) (Option Nat) → List Nat
  | .ok index _ => index.toList
  | .error _ _ => []

/-- The step gives the index of every local that it adds. -/
def Adds (x : Instrument σ (Option Nat)) : Prop :=
  ∀ s, Follows s (added (x.run s)) (x.after s)

namespace Adds

theorem bind {α : Type} {x : Instrument σ α} {f : α → Instrument σ (Option Nat)}
    (hx : MadeOf (Coding Emit.Elementary) x) (hf : ∀ a, Adds (f a)) : Adds (x >>= f) := by
  intro s
  have hfollows := Coding.follows_of_madeOf hx s
  rw [after_bind, EStateM.run_bind]
  -- a failure of the first step adds no local, and the rest is not reached
  cases hrun : x.run s with
  | ok a t =>
    rw [after_of_ok hrun] at hfollows
    exact hfollows.trans (hf a t)
  | error e t =>
    rw [after_of_error hrun] at hfollows
    exact hfollows

theorem pure_none : Adds (pure none : Instrument σ (Option Nat)) := fun s => .refl s

/-- A step that only builds adds no local. -/
theorem of_coding {x : Instrument σ Unit} (hx : MadeOf (Coding Emit.Elementary) x) :
    Adds (do x; return none) := bind hx fun _ => pure_none

end Adds

end Instrument

theorem LocalsSignature.run_append (type : List UInt8) (l : LocalsSignature) :
    (append type).run l =
      if type.isEmpty then .error (.malformed .emptyLocalType) l
      else if countLimit ≤ l.count then .error (.fatal (.localCountOverflow l.count)) l
      else .ok l.count {
        count := l.count + 1
        countBytes := Compressed.encode (l.count + 1)
        types := l.types ++ type.toArray
        isModified := true } := by
  unfold append
  by_cases hempty : type.isEmpty = true
  · simp only [hempty, if_true]
    rfl
  · simp only [hempty, Bool.false_eq_true, if_false]
    by_cases hlimit : countLimit ≤ l.count
    · rw [if_pos hlimit]
      show (if countLimit ≤ l.count then _ else _ : Step LocalsSignature Nat).run l = _
      rw [if_pos hlimit]
      rfl
    · rw [if_neg hlimit]
      show (if countLimit ≤ l.count then _ else _ : Step LocalsSignature Nat).run l = _
      rw [if_neg hlimit]
      rfl

namespace Instrument

variable {σ : Type}

theorem run_addLocal (type : List UInt8) (s : Session σ) :
    (addLocal type).run s =
      match (LocalsSignature.append type).run s.locals with
      | .ok index locals => .ok index {
          s with
          locals
          shared := s.shared.record s.target.name (.localAdded index) }
      | .error e locals => .error e {
          s with
          locals
          shared := s.shared.recordFatal s.target.name e } := by
  cases hrun : (LocalsSignature.append type).run s.locals with
  | ok index locals =>
    replace hrun : LocalsSignature.append type s.locals = .ok index locals := hrun
    simp only [addLocal, EStateM.run, bind, EStateM.bind, hrun]
    rfl
  | error e locals =>
    replace hrun : LocalsSignature.append type s.locals = .error e locals := hrun
    simp only [addLocal, EStateM.run, bind, EStateM.bind, hrun]
    rfl

theorem addLocal_adds (type : List UInt8) :
    Adds (do return some (← addLocal type) : Instrument σ (Option Nat)) := by
  intro s
  rw [after_bind, EStateM.run_bind, run_addLocal, LocalsSignature.run_append]
  -- a refused local leaves the signature as it was
  by_cases hempty : type.isEmpty = true
  · rw [if_pos hempty]
    exact .of_eq rfl .refl rfl
  rw [if_neg hempty]
  by_cases hlimit : LocalsSignature.countLimit ≤ s.locals.count
  · rw [if_pos hlimit]
    exact .of_eq rfl .refl rfl
  rw [if_neg hlimit]
  exact {
    target := rfl
    builder := .refl
    inOrder := rfl
    count := rfl
    isModified := (Bool.or_true _).symm }

theorem target_coding {base : ∀ ⦃α : Type⦄, Emit σ α → Prop} :
    MadeOf (Coding base) (target : Instrument σ Target) :=
  .bind .get fun s => .pure s.target

theorem addLocalOfType_adds [Resolver σ] (name : String) :
    Adds (do return some (← addLocalOfType name) : Instrument σ (Option Nat)) := by
  have hask : MadeOf (Coding Emit.Elementary)
      (ask (Resolver.typeSignature name) : Instrument σ (List UInt8)) :=
    .base (.emit (.base (.appending (.ask _))))
  unfold addLocalOfType
  rw [bind_assoc]
  exact .bind hask addLocal_adds

theorem addResultLocal_adds : Adds (addResultLocal : Instrument σ (Option Nat)) := by
  unfold addResultLocal
  refine .bind target_coding fun target => ?_
  -- a method without a result gets no local for it
  by_cases hvoid : target.signature.returnType.isVoid = true
  · simp only [hvoid, if_true]
    exact .pure_none
  · simp only [hvoid, Bool.false_eq_true, if_false]
    exact addLocal_adds _

/-! Code. -/

section Code

/-- Such a kind of steps of a session has all that concerns code, cache and log alone: building
code of the kind `code`, lookups in the cache, and reports of anything but errors. -/
structure Closed (code : ∀ ⦃α : Type⦄, Emit σ α → Prop)
    (kind : ∀ ⦃α : Type⦄, Instrument σ α → Prop) : Prop where
  emit : ∀ {α : Type} {x : Emit σ α}, code x → kind (emit x)
  register : ∀ (key : CacheKey) (wanted : MethodLookup), kind (register key wanted : Instrument σ _)
  log : ∀ {event : Event}, (event.level == .error) = false → kind (log event : Instrument σ Unit)
  get : kind (get : Instrument σ (Session σ))
  pure : ∀ {α : Type} (a : α), kind (pure a : Instrument σ α)
  bind : ∀ {α β : Type} {x : Instrument σ α} {f : α → Instrument σ β}, kind x →
    (∀ a, kind (f a)) → kind (x >>= f)

theorem coding_closed (base : ∀ ⦃α : Type⦄, Emit σ α → Prop) :
    Closed (fun ⦃_⦄ x => MadeOf base x) fun ⦃_⦄ (x : Instrument σ _) => MadeOf (Coding base) x where
  emit := fun hx => .base (.emit hx)
  register := fun _ _ => .base (.withCache _)
  log := fun _ => .base (.log _)
  get := .get
  pure := .pure
  bind := .bind

variable {code : ∀ ⦃α : Type⦄, Emit σ α → Prop} {kind : ∀ ⦃α : Type⦄, Instrument σ α → Prop}
  (hkind : Closed code kind)
include hkind

theorem target_closed : kind (target : Instrument σ Target) :=
  hkind.bind hkind.get fun s => hkind.pure s.target

/-- A block that hangs on the target. -/
theorem emitFor_closed {α : Type} {x : Target → Emit σ α} (hx : ∀ target, code (x target)) :
    kind (do emit (x (← target))) :=
  hkind.bind (target_closed hkind) fun target => hkind.emit (hx target)

variable [Resolver σ] (hcode : Emit.Closed code)
include hcode

theorem placeOwnCode_closed : kind (placeOwnCode : Instrument σ Unit) :=
  hkind.bind hkind.get fun _ => hkind.bind (hkind.log rfl) fun _ =>
    emitFor_closed hkind fun target => hcode.perform (.splice target.ownCode) rfl

theorem emitParameterTypes_closed : kind (emitParameterTypes : Instrument σ Unit) := by
  unfold emitParameterTypes parameterTypes
  rw [bind_assoc]
  exact emitFor_closed hkind fun target => Emit.typeArray_closed hcode target.signature.params

theorem loadType_closed (assemblyPath typeName : String) :
    kind (loadType assemblyPath typeName : Instrument σ Unit) :=
  emitFor_closed hkind fun target => Emit.loadType_closed hcode target.config.diagnostics _ _

theorem loadMethodOfType_closed (methodName : String) {argumentTypes : Option (Emit σ Unit)}
    (h : ∀ types ∈ argumentTypes, code types) : kind (loadMethodOfType methodName argumentTypes) :=
  emitFor_closed hkind fun target => Emit.methodOfType_closed hcode target.config.diagnostics _ h

theorem loadMethod_closed (wanted : MethodLookup) (functionId : Nat)
    {argumentTypes : Option (Emit σ Unit)} (h : ∀ types ∈ argumentTypes, code types)
    (useCache : Bool) : kind (loadMethod wanted functionId argumentTypes useCache) := by
  unfold loadMethod
  refine hkind.bind (target_closed hkind) fun target => of_ite ?_ ?_
  -- without the cache the method is looked up in place
  · refine hkind.bind (hkind.log rfl) fun _ => ?_
    exact hkind.bind (loadType_closed hkind hcode _ _) fun _ =>
      loadMethodOfType_closed hkind hcode _ h
  · refine hkind.bind (hkind.register _ _) fun found => ?_
    have hcached : kind (do
        log (.cachedLookup (.ofMethod wanted.className wanted.methodName functionId))
        emit (Emit.cachedLookup target.config.cacheHelper
          (.ofMethod wanted.className wanted.methodName functionId) found argumentTypes)) :=
      hkind.bind (hkind.log rfl) fun _ => hkind.emit (Emit.cachedLookup_closed hcode _ _ _ h)
    exact of_ite (hkind.bind (hkind.log rfl) fun _ => hcached) hcached

end Code

end Instrument

namespace Call

open Instrument

variable {σ : Type} [Resolver σ]

/-- What the call does; its result is the index of the local that it added, if it did. -/
def perform : Call σ → Instrument σ (Option Nat)
  | addLocal type => return some (← Instrument.addLocal type)
  | addLocalOfType name => return some (← Instrument.addLocalOfType name)
  | addResultLocal => Instrument.addResultLocal
  | others step => do withCache step; return none
  | emit block => do Instrument.emit block.step; return none
  | placeOwnCode => do Instrument.placeOwnCode; return none
  | emitParameterTypes => do Instrument.emitParameterTypes; return none
  | emitArguments => do Instrument.emitArguments; return none
  | emitObjects elements => do Instrument.emitObjects (elements.map (·.step)); return none
  | writeLine message => do Instrument.emit (Emit.writeLine message); return none
  | loadType assemblyPath typeName => do Instrument.loadType assemblyPath typeName; return none
  | loadMethodOfType methodName argumentTypes => do
    Instrument.loadMethodOfType methodName (argumentTypes.map (·.step))
    return none
  | invokeMethod => do Instrument.emit Emit.invokeMethod; return none
  | loadMethod wanted functionId argumentTypes useCache => do
    Instrument.loadMethod wanted functionId (argumentTypes.map (·.step)) useCache
    return none
  | tryCatch body handler rethrow => do
    Instrument.emit (Emit.tryCatch body.step handler.step rethrow)
    return none
  | emitReturn resultLocal => do Instrument.emitReturn resultLocal; return none

/-- What a row of calls leaves behind. A call that fails leaves what it did until then. -/
def run : List (Call σ) → Session σ → Session σ
  | [], s => s
  | c :: rest, s => run rest (c.perform.after s)

/-- The indices of the locals that a row of calls adds. -/
def appended : List (Call σ) → Session σ → List Nat
  | [], _ => []
  | c :: rest, s => added (c.perform.run s) ++ appended rest (c.perform.after s)

/-- The call is about a local. -/
def addsLocal : Call σ → Bool
  | addLocal _ | addLocalOfType _ | addResultLocal => true
  | _ => false

/-- The code that is handed over with the call. -/
def blocks : Call σ → List (Block σ)
  | emit block => [block]
  | emitObjects elements => elements
  | loadMethodOfType _ argumentTypes | loadMethod _ _ argumentTypes _ => argumentTypes.toList
  | tryCatch body handler _ => [body, handler]
  | _ => []

/-- What others do to the cache in the meantime, if the call is that. -/
def interludes : Call σ → List (Step (MethodCache MethodLookup) Unit)
  | others step => [step]
  | _ => []

/-- Every other call only concerns code, cache and log. -/
theorem perform_closed {code : ∀ ⦃α : Type⦄, Emit σ α → Prop}
    {kind : ∀ ⦃α : Type⦄, Instrument σ α → Prop} (hcode : Emit.Closed code)
    (hkind : Instrument.Closed code kind) {c : Call σ} (hlocal : c.addsLocal = false)
    (hblocks : ∀ block ∈ c.blocks, code block.step)
    (hothers : ∀ step ∈ c.interludes, kind (withCache step)) :
    ∃ x : Instrument σ Unit, kind x ∧ c.perform = do x; return none := by
  have htypes : ∀ {types : Option (Block σ)}, (∀ block ∈ types.toList, code block.step) →
      ∀ x ∈ types.map (·.step), code x := by
    intro types h x hx
    obtain ⟨block, hblock, rfl⟩ := Option.map_eq_some_iff.mp hx
    exact h block (Option.mem_toList.mpr hblock)
  cases c with
  | others step => exact ⟨_, hothers step List.mem_cons_self, rfl⟩
  | emit block => exact ⟨_, hkind.emit (hblocks block List.mem_cons_self), rfl⟩
  | placeOwnCode => exact ⟨_, placeOwnCode_closed hkind hcode, rfl⟩
  | emitParameterTypes => exact ⟨_, emitParameterTypes_closed hkind hcode, rfl⟩
  | emitArguments =>
    exact ⟨_, emitFor_closed hkind fun target => Emit.argumentArray_closed hcode target.signature,
      rfl⟩
  | emitObjects elements =>
    refine ⟨_, hkind.emit (Emit.array_closed hcode _ fun x hx => ?_), rfl⟩
    obtain ⟨block, hblock, rfl⟩ := List.mem_map.mp hx
    exact hblocks block hblock
  | writeLine message => exact ⟨_, hkind.emit (Emit.writeLine_closed hcode message), rfl⟩
  | loadType assemblyPath typeName =>
    exact ⟨_, loadType_closed hkind hcode assemblyPath typeName, rfl⟩
  | loadMethodOfType methodName argumentTypes =>
    exact ⟨_, loadMethodOfType_closed hkind hcode methodName (htypes hblocks), rfl⟩
  | invokeMethod =>
    exact ⟨_, hkind.emit (hcode.perform (.call .callvirt RuntimeLibrary.invoke) rfl), rfl⟩
  | loadMethod wanted functionId argumentTypes useCache =>
    exact ⟨_, loadMethod_closed hkind hcode wanted functionId (htypes hblocks) useCache, rfl⟩
  | tryCatch body handler rethrow =>
    have hbody := hblocks body List.mem_cons_self
    have hhandler := hblocks handler (List.mem_cons_of_mem _ List.mem_cons_self)
    exact ⟨_, hkind.emit (Emit.tryCatch_closed hcode hbody hhandler rethrow), rfl⟩
  | emitReturn resultLocal =>
    exact ⟨_, emitFor_closed hkind fun target => Emit.returnValue_closed hcode _ resultLocal, rfl⟩
  | addLocal _ | addLocalOfType _ | addResultLocal => cases hlocal

/-- Whatever kind of steps the code is made of, the call is made of steps on code of that kind,
on the cache and on the log. -/
theorem perform_coding {base : ∀ ⦃α : Type⦄, Emit σ α → Prop} (hbase : Emit.Covers base)
    {c : Call σ} (hlocal : c.addsLocal = false) (hblocks : ∀ block ∈ c.blocks, MadeOf base block.step) :
    ∃ x : Instrument σ Unit, MadeOf (Coding base) x ∧ c.perform = do x; return none :=
  perform_closed hbase.closed (coding_closed base) hlocal hblocks fun _ _ => .base (.withCache _)

/-- A single call. -/
theorem perform_adds (c : Call σ) : Adds c.perform := by
  by_cases hlocal : c.addsLocal = true
  · cases c with
    | addLocal type => exact addLocal_adds type
    | addLocalOfType name => exact addLocalOfType_adds name
    | addResultLocal => exact addResultLocal_adds
    | _ => cases hlocal
  · -- blocks that are handed over are elementary by construction
    obtain ⟨x, hx, hperform⟩ := perform_coding Emit.elementary_covers
      (Bool.not_eq_true _ ▸ hlocal) fun block _ => block.made
    rw [hperform]
    exact .of_coding hx

/-- Whatever is called, in whatever order. -/
theorem follows_run (calls : List (Call σ)) (s : Session σ) :
    Follows s (appended calls s) (run calls s) := by
  induction calls generalizing s with
  | nil => exact .refl s
  | cons c rest ih => exact (perform_adds c s).trans (ih (c.perform.after s))

end Call

end CilInstrument
