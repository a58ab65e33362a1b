import CilInstrument.Proofs.Actions
import CilInstrument.Proofs.MildSteps
import CilInstrument.Session.Lookup

/- Blocks of code. A block is a step that does nothing but what actions do, in any order
   and with any decisions in between: it is made of elementary steps. Everything that
   instrumentation emits is a block, if the code that it encloses is one: arrays, messages,
   lookups by reflection and through the cache, protected regions and returns. More than
   that: every kind of steps that has the single actions, and is closed under putting steps
   together, has all this (`Closed`), if it has the enclosed code. The steps that are made of
   one kind are such a kind (`Covers`), so what every change to the builder keeps is kept by
   all of it; and so are the steps that fail mildly. -/
namespace CilInstrument

open Step Emit

/-- Code that is emitted where it is due. -/
structure Block (σ : Type) where
  step : Emit σ Unit
  made : MadeOf Elementary step

/-- The caller's own question to the host. -/
def Action.isQuestion {σ : Type} : Action σ → Bool
  | ask _ => true
  | _ => false

namespace Emit

variable {σ : Type}

/-- Looking at the builder changes nothing. -/
theorem view_madeOf {α : Type} {base : ∀ ⦃α : Type⦄, Emit σ α → Prop} (view : Builder → α) :
    MadeOf base (build (do return view (← get)) : Emit σ α) := by
  show MadeOf base (get >>= fun s : Emission σ => pure (view s.builder))
  exact .bind .get fun s => .pure _

variable [Resolver σ]

/-- The single actions are made of steps of the kind `base`, except for the questions that
a caller asks of the host. -/
structure Covers (base : ∀ ⦃α : Type⦄, Emit σ α → Prop) : Prop where
  perform : ∀ a : Action σ, a.isQuestion = false → MadeOf base a.perform
  jump : ∀ op, MadeOf base (build (Build.jump op) : Emit σ Nat)

theorem elementary_covers : Covers (σ := σ) Elementary where
  perform a _ := a.perform_elementary
  jump op := jump_elementary op

/-- Steps of such a kind are put together from the single actions, without the questions that
a caller asks of the host, and from looks at the builder and refusals that are mild. -/
structure Closed (kind : ∀ ⦃α : Type⦄, Emit σ α → Prop) : Prop where
  perform : ∀ a : Action σ, a.isQuestion = false → kind a.perform
  jump : ∀ op, kind (build (Build.jump op) : Emit σ Nat)
  view : ∀ {α : Type} (view : Builder → α), kind (build (do return view (← get)) : Emit σ α)
  pure : ∀ {α : Type} (a : α), kind (pure a : Emit σ α)
  throw : ∀ {α : Type} {e : Error}, e.isFatal = false → kind (throw e : Emit σ α)
  bind : ∀ {α β : Type} {x : Emit σ α} {f : α → Emit σ β}, kind x → (∀ a, kind (f a)) →
    kind (x >>= f)

theorem Covers.closed {base : ∀ ⦃α : Type⦄, Emit σ α → Prop} (h : Covers base) :
    Closed (σ := σ) fun ⦃_⦄ x => MadeOf base x where
  perform := h.perform
  jump := h.jump
  view := view_madeOf
  pure := .pure
  throw := fun _ => .throw _
  bind := .bind

omit [Resolver σ] in
theorem argumentSlots_mildly (m : MethodSig) : FailsMildly (argumentSlots m) :=
  .mapM (fun _ => .ite (.ok _) (.error rfl)) _

section Closed

variable {kind : ∀ ⦃α : Type⦄, Emit σ α → Prop}

variable (hkind : Closed kind)
include hkind

theorem Closed.ofExcept {α : Type} {x : Except Error α} (hx : FailsMildly x) :
    kind (Step.ofExcept x : Emit σ α) := by
  cases x with
  | ok a => exact hkind.pure a
  | error e => exact hkind.throw (hx e rfl)

theorem storeElements_closed (elements : List (Emit σ Unit))
    (h : ∀ element ∈ elements, kind element) (index : Nat) :
    kind (storeElements index elements) := by
  induction elements generalizing index with
  | nil => exact hkind.pure ()
  | cons element rest ih =>
    have helement := h element List.mem_cons_self
    have hrest := ih (fun e he => h e (List.mem_cons_of_mem _ he)) (index + 1)
    unfold storeElements
    refine hkind.bind (hkind.perform (.plain .dup) rfl) fun _ => ?_
    refine hkind.bind (hkind.perform (.loadInt (Int32.ofNat index)) rfl) fun _ => ?_
    refine hkind.bind (hkind.view Builder.stackDepth) fun before => ?_
    refine hkind.bind helement fun _ => ?_
    refine hkind.bind (hkind.view Builder.stackDepth) fun after => ?_
    refine hkind.bind (hkind.view Builder.reachable) fun reachable => ?_
    refine of_ite (hkind.throw rfl) ?_
    exact hkind.bind (hkind.perform (.plain .stelemRef) rfl) fun _ => hrest

theorem array_closed (elementType : String) {elements : List (Emit σ Unit)}
    (h : ∀ element ∈ elements, kind element) :
    kind (array elementType elements) := by
  unfold array
  refine of_ite (hkind.throw rfl) ?_
  refine hkind.bind (hkind.perform (.loadInt (Int32.ofNat elements.length)) rfl) fun _ => ?_
  refine hkind.bind (hkind.perform (.withType .newarr elementType) rfl) fun _ => ?_
  exact storeElements_closed hkind elements h 0

theorem typeArray_closed (params : List ParamSig) : kind (typeArray params : Emit σ Unit) := by
  refine array_closed hkind _ fun element helement => ?_
  obtain ⟨param, -, rfl⟩ := List.mem_map.mp helement
  exact hkind.perform (.loadTypeOf param) rfl

theorem argumentArray_closed (m : MethodSig) : kind (argumentArray m : Emit σ Unit) := by
  refine hkind.bind (hkind.ofExcept (argumentSlots_mildly m)) fun slots => array_closed hkind _ fun element helement => ?_
  obtain ⟨⟨slot, param⟩, -, rfl⟩ := List.mem_map.mp helement
  exact hkind.perform (.loadArgumentAsObject slot param) rfl

theorem writeLine_closed (message : String) : kind (writeLine message : Emit σ Unit) :=
  hkind.bind (hkind.perform (.loadString message) rfl) fun _ =>
    hkind.perform (.call .call RuntimeLibrary.writeLine) rfl

theorem ifNull_closed {block : Emit σ Unit} (h : kind block) : kind (ifNull block) :=
  hkind.bind (hkind.perform (.plain .dup) rfl) fun _ =>
    hkind.bind (hkind.jump .brtrue) fun notNull =>
      hkind.bind h fun _ => hkind.perform (.placeLabel notNull) rfl

/-- The message that stands behind a lookup, if there is to be one. -/
theorem diagnosed_closed (diagnostics : Bool) (message : String) :
    kind (if diagnostics then ifNull (writeLine message) else pure () : Emit σ Unit) :=
  of_ite (ifNull_closed hkind (writeLine_closed hkind message)) (hkind.pure ())

theorem loadType_closed (diagnostics : Bool) (assemblyPath typeName : String) :
    kind (loadType diagnostics assemblyPath typeName : Emit σ Unit) :=
  hkind.bind (hkind.perform (.loadString assemblyPath) rfl) fun _ =>
    hkind.bind (hkind.perform (.call .call RuntimeLibrary.loadFrom) rfl) fun _ =>
      hkind.bind (hkind.perform (.loadString typeName) rfl) fun _ =>
        hkind.bind (hkind.perform (.call .callvirt RuntimeLibrary.getType) rfl) fun _ =>
          diagnosed_closed hkind diagnostics _

theorem methodOfType_closed (diagnostics : Bool) (methodName : String)
    {argumentTypes : Option (Emit σ Unit)}
    (h : ∀ types ∈ argumentTypes, kind types) :
    kind (methodOfType diagnostics methodName argumentTypes) := by
  unfold methodOfType
  refine hkind.bind (hkind.perform (.loadString methodName) rfl) fun _ => ?_
  cases argumentTypes with
  | some types =>
    refine hkind.bind (h types rfl) fun _ => ?_
    refine hkind.bind (hkind.perform (.call .callvirt _) rfl) fun _ => ?_
    exact diagnosed_closed hkind diagnostics _
  | none =>
    refine hkind.bind (hkind.perform (.call .callvirt _) rfl) fun _ => ?_
    exact diagnosed_closed hkind diagnostics _

theorem tryCatch_closed {body handler : Emit σ Unit} (hbody : kind body) (hhandler : kind handler)
    (rethrow : Bool) : kind (tryCatch body handler rethrow) := by
  unfold tryCatch
  refine hkind.bind (hkind.perform .startTry rfl) fun _ => hkind.bind hbody fun _ => ?_
  refine hkind.bind (hkind.jump .leave) fun exit => ?_
  refine hkind.bind (hkind.perform .endTry rfl) fun _ => ?_
  refine hkind.bind (hkind.perform .startHandler rfl) fun _ => hkind.bind hhandler fun _ => ?_
  have hend : kind (do
      build (Build.jumpTo .leave exit)
      endHandler
      build (Build.placeLabel exit) : Emit σ Unit) :=
    hkind.bind (hkind.perform (.jumpTo .leave exit) rfl) fun _ =>
      hkind.bind (hkind.perform .endHandler rfl) fun _ =>
        hkind.perform (.placeLabel exit) rfl
  exact of_ite (hkind.bind (hkind.perform (.plain .rethrow) rfl) fun _ => hend) hend

theorem returnValue_closed (returnType : ParamSig) (resultLocal : Option UInt16) :
    kind (returnValue returnType resultLocal : Emit σ Unit) := by
  have hret : kind (build (Build.plain .ret) : Emit σ Unit) := hkind.perform (.plain .ret) rfl
  unfold returnValue
  refine of_ite ?_ hret
  cases resultLocal with
  | some index =>
    exact hkind.bind (hkind.perform (.loadLocal index) rfl) fun _ => hret
  | none => exact hkind.throw rfl

theorem cachedLookup_closed (helper : String) (key : CacheKey) (found : MethodLookup)
    {argumentTypes : Option (Emit σ Unit)}
    (h : ∀ types ∈ argumentTypes, kind types) :
    kind (cachedLookup helper key found argumentTypes) := by
  unfold cachedLookup
  refine hkind.bind (hkind.perform (.loadString key.text) rfl) fun _ => ?_
  refine hkind.bind (hkind.perform (.loadString found.assemblyPath) rfl) fun _ => ?_
  refine hkind.bind (hkind.perform (.loadString found.className) rfl) fun _ => ?_
  refine hkind.bind (hkind.perform (.loadString found.methodName) rfl) fun _ => ?_
  have hcall : kind (call .call helper : Emit σ Unit) :=
    hkind.perform (.call .call helper) rfl
  cases argumentTypes with
  | some types => exact hkind.bind (h types rfl) fun _ => hcall
  | none => exact hkind.bind (hkind.perform (.plain .ldnull) rfl) fun _ => hcall

end Closed

end Emit

/-- A single action as a block. -/
def Action.block {σ : Type} [Resolver σ] (a : Action σ) : Block σ :=
  ⟨a.perform, a.perform_elementary⟩

end CilInstrument
