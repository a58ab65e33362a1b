import CilInstrument.Proofs.EnclosedCode
import CilInstrument.Proofs.LookupNames
import CilInstrument.Proofs.StoredMethod

/- What a lookup leaves on the stack. A row of instructions that is entered with `d` values
   and falls through leads to a depth that can be read off its effects (`Emit.Leads`), and
   sets no marks; a check for null comes back to the depth that it found, since the jump
   and the path through it meet with the same depth. A lookup encloses code of the caller,
   which is taken for what it does: with it in the middle, a lookup through the cache and
   one by reflection come to the same depth, one value more (`Instrument.loadMethod_depth`). -/
namespace CilInstrument

open Step

/-! The members that lookups call. -/

theorem OpCode.callEffect_eq {op : OpCode} {member : String} {effect : StackEffect}
    (h : (op.callEffect member).toOption = some effect) : op.callEffect member = .ok effect := by
  cases hrun : op.callEffect member with
  | ok e =>
    rw [hrun] at h
    cases h
    rfl
  | error e =>
    rw [hrun] at h
    cases h

namespace RuntimeLibrary

theorem loadFrom_effect : OpCode.callEffect .call loadFrom = .ok ⟨1, 1⟩ :=
  OpCode.callEffect_eq (by decide +kernel)

theorem getType_effect : OpCode.callEffect .callvirt getType = .ok ⟨2, 1⟩ :=
  OpCode.callEffect_eq (by decide +kernel)

theorem getMethod_effect : OpCode.callEffect .callvirt getMethod = .ok ⟨2, 1⟩ :=
  OpCode.callEffect_eq (by decide +kernel)

theorem getMethodWithTypes_effect :
    OpCode.callEffect .callvirt getMethodWithTypes = .ok ⟨3, 1⟩ :=
  OpCode.callEffect_eq (by decide +kernel)

theorem writeLine_effect : OpCode.callEffect .call writeLine = .ok ⟨1, 0⟩ :=
  OpCode.callEffect_eq (by decide +kernel)

theorem typeFromHandle_effect : OpCode.callEffect .call typeFromHandle = .ok ⟨1, 1⟩ :=
  OpCode.callEffect_eq (by decide +kernel)

end RuntimeLibrary

/-! Labels that jumps create. -/

namespace Build

variable {b b' : Builder} {op : OpCode} {label : Nat}

theorem jump_ok (h : (jump op).run b = .ok label b') :
    label = b.labels.size ∧ (jumpTo op b.labels.size).run b.addLabel = .ok () b' := by
  rw [run_jump] at h
  cases hrun : (jumpTo op b.labels.size).run b.addLabel with
  | ok u b'' =>
    rw [hrun] at h
    cases h
    exact ⟨rfl, rfl⟩
  | error e b'' =>
    rw [hrun] at h
    cases h

theorem labels_size_of_jumpTo (h : (jumpTo op label).run b = .ok () b') :
    b'.labels.size = b.labels.size := by
  obtain ⟨-, -, -, -, -, rfl⟩ := jumpTo_ok.mp h
  exact Builder.size_labels_meet (b.settle (b.landing op)) label

theorem labels_size_of_placeLabel (h : (placeLabel label).run b = .ok () b') :
    b'.labels.size = b.labels.size := by
  obtain ⟨-, -, -, -, rfl⟩ := placeLabel_ok.mp h
  exact Array.size_modify.trans (b.size_labels_resume label)

end Build

/-! Code that leaves no loose ends. -/

/-- From the one builder to the other no region was opened or closed, and every label that
was created was placed. -/
structure Builder.Tidy (b b' : Builder) : Prop where
  regions : b'.regions = b.regions
  exceptions : b'.exceptions = b.exceptions
  labels : b.labels.size ≤ b'.labels.size
  places : ∀ {label p}, b.place label = some p → b'.place label = some p
  placed : ∀ label, b.labels.size ≤ label → label < b'.labels.size → (b'.place label).isSome = true

namespace Builder.Tidy

variable {b b' b'' : Builder}

theorem of_eq (hregions : b'.regions = b.regions) (hexceptions : b'.exceptions = b.exceptions)
    (hlabels : b'.labels = b.labels) : b.Tidy b' where
  regions := hregions
  exceptions := hexceptions
  labels := Nat.le_of_eq (congrArg Array.size hlabels).symm
  places hp := by
    unfold place
    rw [hlabels]
    exact hp
  placed label hle hlt := by
    rw [hlabels] at hlt
    omega

theorem refl (b : Builder) : b.Tidy b := of_eq rfl rfl rfl

theorem isSome_place (h : b.Tidy b') {label : Nat} (hplaced : (b.place label).isSome = true) :
    (b'.place label).isSome = true := by
  obtain ⟨p, hp⟩ := Option.isSome_iff_exists.mp hplaced
  exact Option.isSome_iff_exists.mpr ⟨p, h.places hp⟩

theorem trans (h : b.Tidy b') (h' : b'.Tidy b'') : b.Tidy b'' where
  regions := h'.regions.trans h.regions
  exceptions := h'.exceptions.trans h.exceptions
  labels := Nat.le_trans h.labels h'.labels
  places hp := h'.places (h.places hp)
  placed label hle hlt := by
    by_cases hearly : label < b'.labels.size
    · exact h'.isSome_place (h.placed label hle hearly)
    · exact h'.placed label (Nat.le_of_not_lt hearly) hlt

end Builder.Tidy

namespace Emit

variable {σ α β : Type}

/-- Where it goes through, entered by falling through with `d` values, the code falls through
with `d'` values and leaves no loose ends. -/
def Leads (d d' : Nat) ⦃α : Type⦄ (x : Emit σ α) : Prop :=
  ∀ s a t, x.run s = .ok a t → s.builder.reachable = true → s.builder.depth = d →
    t.builder.reachable = true ∧ t.builder.depth = d' ∧ s.builder.Tidy t.builder

namespace Leads

variable {d d' d'' : Nat}

theorem pure (a : α) : Leads d d (Pure.pure a : Emit σ α) := by
  intro s a' t h hr hd
  cases h
  exact ⟨hr, hd, .refl _⟩

theorem throw (e : Error) : Leads d d' (throw e : Emit σ α) := by
  intro s a t h
  cases h

theorem bind {x : Emit σ α} {f : α → Emit σ β} (hx : Leads d d' x)
    (hf : ∀ a, Leads d' d'' (f a)) : Leads d d'' (x >>= f) := by
  intro s b t h hr hd
  obtain ⟨a, mid, hfirst, hrest⟩ := run_bind_ok.mp h
  obtain ⟨hr', hd', htidy⟩ := hx _ _ _ hfirst hr hd
  obtain ⟨hr'', hd'', htidy'⟩ := hf a _ _ _ hrest hr' hd'
  exact ⟨hr'', hd'', htidy.trans htidy'⟩

theorem ite {c : Prop} [Decidable c] {x y : Emit σ α} (hx : Leads d d' x) (hy : Leads d d' y) :
    Leads d d' (if c then x else y) := by
  split
  · exact hx
  · exact hy

/-- What only looks at the builder and goes on. -/
theorem view (f : Builder → α) : Leads d d (build (do return f (← get)) : Emit σ α) := by
  intro s a t h hr hd
  cases h
  exact ⟨hr, hd, .refl _⟩

theorem ask (question : Ask σ α) : Leads d d (Emit.ask question) := by
  intro s a t h hr hd
  rw [builder_of_ask_ok h]
  exact ⟨hr, hd, .refl _⟩

theorem emit {op : OpCode} (hflow : op.flow.isTerminal = false) (effect : StackEffect)
    (operand : Operand) :
    Leads (d + effect.pops) (d + effect.pushes)
      (build (Build.emit op effect operand) : Emit σ Unit) := by
  intro s a t h hr hd
  obtain ⟨-, hemit⟩ := build_ok.mp h
  obtain ⟨-, -, hbuilder⟩ := Build.emit_ok.mp hemit
  rw [hbuilder]
  refine ⟨?_, ?_, .of_eq rfl rfl rfl⟩
  · show (s.builder.reachable && !op.flow.isTerminal) = true
    rw [hr, hflow]
    rfl
  · show s.builder.depth - effect.pops + effect.pushes = d + effect.pushes
    rw [hd, Nat.add_sub_cancel]

/-- An instruction whose effect hangs on the opcode alone. -/
theorem instruction (op : OpCode) (operand : Operand) (effect : StackEffect)
    (heffect : op.fixedEffect? = some effect) (hflow : op.flow.isTerminal = false) :
    Leads (d + effect.pops) (d + effect.pushes)
      (build (Build.instruction op operand) : Emit σ Unit) := by
  unfold Build.instruction
  rw [build_bind, build_ofExcept]
  intro s a t h hr hd
  obtain ⟨effect', _, hfixed, hemit⟩ := run_bind_ok.mp h
  obtain ⟨hok, rfl⟩ := run_ofExcept_ok.mp hfixed
  obtain rfl : effect = effect' :=
    Option.some.inj (heffect.symm.trans (Build.fixedEffect_ok.mp hok).2)
  exact emit hflow effect operand _ _ _ hemit hr hd

variable [Resolver σ]

theorem loadString (value : String) : Leads d (d + 1) (loadString value : Emit σ Unit) :=
  .bind (.ask _) fun token => instruction _ (.token token) ⟨0, 1⟩ rfl rfl

theorem call {op : OpCode} {member : String} (effect : StackEffect)
    (heffect : op.callEffect member = .ok effect) :
    Leads (d + effect.pops) (d + effect.pushes) (call op member : Emit σ Unit) := by
  intro s a t h hr hd
  unfold Emit.call at h
  by_cases hflow : op.flow = .call
  · simp only [hflow, ne_eq, not_true_eq_false, if_false, heffect] at h
    have hrest : Leads (d + effect.pops) (d + effect.pushes) (do
        let token ← Emit.ask (Resolver.memberToken member)
        build (Build.emit op effect (.token token)) : Emit σ Unit) :=
      .bind (.ask _) fun token => .emit (by rw [hflow]; rfl) effect _
    exact hrest _ _ _ h hr hd
  · simp only [hflow, ne_eq, not_false_eq_true, if_true] at h
    cases h

omit [Resolver σ] in
/-- The path that jumps and the path through the block meet with the same depth. -/
theorem ifNull {block : Emit σ Unit} (hblock : Leads (d + 1) (d + 1) block) :
    Leads (d + 1) (d + 1) (ifNull block) := by
  have hdup : Leads (d + 1) (d + 2) (build (Build.plain .dup) : Emit σ Unit) :=
    instruction _ _ ⟨1, 2⟩ rfl rfl
  refine .bind hdup fun _ => ?_
  intro s a t h hr hd
  obtain ⟨label, jumped, hjump, h⟩ := run_bind_ok.mp h
  obtain ⟨_, behind, hrun, hplace⟩ := run_bind_ok.mp h
  obtain ⟨rfl, hto⟩ := Build.jump_ok (build_ok.mp hjump).2
  have hjumped := Build.jumped_of_ok hto
  have hadding := Build.jumpTo_adding hto
  have hlabels : jumped.builder.labels.size = s.builder.labels.size + 1 := by
    rw [Build.labels_size_of_jumpTo hto]
    exact Array.size_push _
  have hjr : jumped.builder.reachable = true := by
    rw [hjumped.reachable]
    exact (Bool.and_true _).trans hr
  have hjd : jumped.builder.depth = d + 1 := by
    rw [hjumped.depth]
    show s.builder.depth - 1 = d + 1
    rw [hd]
    rfl
  obtain ⟨hbr, hbd, htidy⟩ := hblock _ _ _ hrun hjr hjd
  have hplaced := Build.placed_of_ok (build_ok.mp hplace).2
  have hsame := Build.placeLabel_adding (build_ok.mp hplace).2
  have hlabels' := Build.labels_size_of_placeLabel (build_ok.mp hplace).2
  refine ⟨hplaced.reachable, ?_, ?_⟩
  · rw [hplaced.depth, hbr]
    exact hbd
  · constructor
    · rw [hsame.regions, htidy.regions, hadding.regions]
      rfl
    · rw [hsame.exceptions, htidy.exceptions, hadding.exceptions]
      rfl
    · have hle := htidy.labels
      omega
    · intro k p hp
      have hlt := Builder.lt_of_place hp
      rw [hplaced.place, if_neg (by omega)]
      refine htidy.places ?_
      rw [hjumped.place, Builder.place_addLabel]
      exact hp
    · -- the new label is placed last, the others by the block
      intro k hle hlt
      rw [hplaced.place]
      split
      · rfl
      · exact htidy.placed k (by omega) (by omega)

theorem writeLine (message : String) :
    Leads d d (writeLine message : Emit σ Unit) :=
  .bind (.loadString message) fun _ =>
    call ⟨1, 0⟩ RuntimeLibrary.writeLine_effect

/-- The check behind a lookup, if there is one. -/
theorem diagnosed (diagnostics : Bool) (message : String) :
    Leads (d + 1) (d + 1)
      (if diagnostics then Emit.ifNull (Emit.writeLine message) else Pure.pure () : Emit σ Unit) :=
  .ite (.ifNull (.writeLine message)) (.pure ())

theorem loadType (diagnostics : Bool) (assemblyPath typeName : String) :
    Leads d (d + 1) (loadType diagnostics assemblyPath typeName : Emit σ Unit) := by
  refine .bind (.loadString assemblyPath) fun _ => ?_
  refine .bind (call ⟨1, 1⟩ RuntimeLibrary.loadFrom_effect) fun _ => ?_
  refine .bind (.loadString typeName) fun _ => ?_
  refine .bind (call ⟨2, 1⟩ RuntimeLibrary.getType_effect) fun _ => ?_
  exact .diagnosed diagnostics _

/-! The array of the parameters' types, which tells overloads apart. -/

theorem loadTypeOf (param : ParamSig) : Leads d (d + 1) (loadTypeOf param : Emit σ Unit) := by
  refine .bind (.ask _) fun token => ?_
  refine .bind (instruction _ (.token token) ⟨0, 1⟩ rfl rfl) fun _ => ?_
  exact call ⟨1, 1⟩ RuntimeLibrary.typeFromHandle_effect

omit [Resolver σ] in
theorem storeElements {elements : List (Emit σ Unit)}
    (h : ∀ element ∈ elements, Leads (d + 3) (d + 4) element) (index : Nat) :
    Leads (d + 1) (d + 1) (storeElements index elements) := by
  induction elements generalizing index with
  | nil => exact .pure ()
  | cons element rest ih =>
    have hrest := ih (fun e he => h e (List.mem_cons_of_mem _ he)) (index + 1)
    unfold Emit.storeElements
    refine .bind (instruction .dup _ ⟨1, 2⟩ rfl rfl) fun _ => ?_
    refine .bind (instruction .ldcI4 _ ⟨0, 1⟩ rfl rfl) fun _ => ?_
    refine .bind (.view Builder.stackDepth) fun before => ?_
    refine .bind (h element List.mem_cons_self) fun _ => ?_
    refine .bind (.view Builder.stackDepth) fun after => ?_
    refine .bind (.view Builder.reachable) fun reachable => ?_
    refine .ite (.throw _) ?_
    exact .bind (instruction .stelemRef _ ⟨3, 0⟩ rfl rfl) fun _ => hrest

theorem array (elementType : String) {elements : List (Emit σ Unit)}
    (h : ∀ element ∈ elements, Leads (d + 3) (d + 4) element) :
    Leads d (d + 1) (array elementType elements) := by
  unfold Emit.array
  refine .ite (.throw _) ?_
  refine .bind (instruction .ldcI4 _ ⟨0, 1⟩ rfl rfl) fun _ => ?_
  have htype : Leads (d + 1) (d + 1) (withType .newarr elementType : Emit σ Unit) :=
    .bind (.ask _) fun token => instruction _ (.token token) ⟨1, 1⟩ rfl rfl
  exact .bind htype fun _ => .storeElements h 0

theorem typeArray (params : List ParamSig) : Leads d (d + 1) (typeArray params : Emit σ Unit) := by
  refine array _ fun element helement => ?_
  obtain ⟨param, -, rfl⟩ := List.mem_map.mp helement
  exact loadTypeOf param

end Leads

/-! Lookups around the caller's code. -/

/-- Wherever it is entered by falling through, the code falls through with one value more if
it goes through. -/
def Raises (x : Emit σ Unit) : Prop :=
  ∀ s t, x.run s = .ok () t → s.builder.reachable = true →
    t.builder.reachable = true ∧ t.builder.depth = s.builder.depth + 1

theorem Leads.raises {x : Emit σ Unit} (h : ∀ d, Leads d (d + 1) x) : Raises x := by
  intro s t hrun hr
  obtain ⟨hr', hd', -⟩ := h s.builder.depth s () t hrun hr rfl
  exact ⟨hr', hd'⟩

/-- What the caller's code did, if there is any. -/
def Did (types : Option (Emit σ Unit)) (before behind : Emission σ) : Prop :=
  match types with
  | some x => x.run before = .ok () behind
  | none => behind = before

/-- As `Leads`, with the caller's code run once in the middle, for which nothing is said of
loose ends. -/
def Around (types : Option (Emit σ Unit)) (d d' : Nat) (x : Emit σ Unit) : Prop :=
  ∀ s t, x.run s = .ok () t → s.builder.reachable = true → s.builder.depth = d →
    t.builder.reachable = true ∧ t.builder.depth = d' ∧
      ∃ before behind, s.builder.Tidy before.builder ∧ Did types before behind ∧
        behind.builder.Tidy t.builder

namespace Around

variable {types : Option (Emit σ Unit)} {d d' d'' : Nat}

/-- Without any such code. -/
theorem of_leads {x : Emit σ Unit} (h : Leads d d' x) : Around none d d' x := by
  intro s t hrun hr hd
  obtain ⟨hr', hd', htidy⟩ := h s () t hrun hr hd
  exact ⟨hr', hd', s, s, .refl _, rfl, htidy⟩

theorem enclosed {x y : Emit σ Unit} (hx : Raises x) (hy : Leads (d + 1) d' y) :
    Around (some x) d d' (do x; y) := by
  intro s t hrun hr hd
  obtain ⟨_, mid, hfirst, hrest⟩ := run_bind_ok.mp hrun
  obtain ⟨hr', hd'⟩ := hx s mid hfirst hr
  obtain ⟨hr'', hd'', htidy⟩ := hy mid () t hrest hr' (by rw [hd', hd])
  exact ⟨hr'', hd'', s, mid, .refl _, hfirst, htidy⟩

theorem behind {x : Emit σ α} {f : α → Emit σ Unit} (hx : Leads d d' x)
    (hf : ∀ a, Around types d' d'' (f a)) : Around types d d'' (x >>= f) := by
  intro s t hrun hr hd
  obtain ⟨a, mid, hfirst, hrest⟩ := run_bind_ok.mp hrun
  obtain ⟨hr', hd', htidy⟩ := hx s a mid hfirst hr hd
  obtain ⟨hr'', hd'', before, after, hbefore, hdid, hafter⟩ := hf a mid t hrest hr' hd'
  exact ⟨hr'', hd'', before, after, htidy.trans hbefore, hdid, hafter⟩

variable [Resolver σ]

theorem methodOfType (diagnostics : Bool) (methodName : String)
    (htypes : ∀ x ∈ types, Raises x) :
    Around types (d + 1) (d + 1) (methodOfType diagnostics methodName types) := by
  unfold Emit.methodOfType
  refine .behind (.loadString methodName) fun _ => ?_
  cases types with
  | some x =>
    refine enclosed (htypes x rfl) (.bind ?_ fun _ => .diagnosed diagnostics _)
    exact .call ⟨3, 1⟩ RuntimeLibrary.getMethodWithTypes_effect
  | none =>
    refine of_leads (.bind ?_ fun _ => .diagnosed diagnostics _)
    exact .call ⟨2, 1⟩ RuntimeLibrary.getMethod_effect

theorem cachedLookup {helper : String} (hhelper : OpCode.callEffect .call helper = .ok ⟨5, 1⟩)
    (key : CacheKey) (found : MethodLookup) (htypes : ∀ x ∈ types, Raises x) :
    Around types d (d + 1) (cachedLookup helper key found types) := by
  unfold Emit.cachedLookup
  refine .behind (.loadString key.text) fun _ => ?_
  refine .behind (.loadString found.assemblyPath) fun _ => ?_
  refine .behind (.loadString found.className) fun _ => ?_
  refine .behind (.loadString found.methodName) fun _ => ?_
  have hcall : Leads (d + 5) (d + 1) (call .call helper : Emit σ Unit) :=
    .call ⟨5, 1⟩ hhelper
  cases types with
  | some x => exact enclosed (htypes x rfl) hcall
  | none =>
    exact of_leads (.bind (.instruction .ldnull _ ⟨0, 1⟩ rfl rfl) fun _ => hcall)

end Around

end Emit

namespace Session

variable {σ : Type} [Resolver σ]

/-- The code that looks up a method: in place, or with what the cache has for it. -/
def lookupCode (s : Session σ) (wanted : MethodLookup) (functionId : Nat)
    (argumentTypes : Option (Emit σ Unit)) (useCache : Bool) : Emit σ Unit :=
  let config := s.target.config
  let key := CacheKey.ofMethod wanted.className wanted.methodName functionId
  if !useCache || config.disableCache then do
    Emit.loadType config.diagnostics wanted.assemblyPath wanted.className
    Emit.methodOfType config.diagnostics wanted.methodName argumentTypes
  else
    Emit.cachedLookup config.cacheHelper key (s.shared.cache.insertIfAbsent key wanted).1
      argumentTypes

theorem lookupCode_around {s : Session σ} {wanted : MethodLookup} {functionId : Nat}
    {types : Option (Emit σ Unit)} {useCache : Bool} {d : Nat}
    (hhelper : OpCode.callEffect .call s.target.config.cacheHelper = .ok ⟨5, 1⟩)
    (htypes : ∀ x ∈ types, Emit.Raises x) :
    Emit.Around types d (d + 1) (s.lookupCode wanted functionId types useCache) := by
  unfold lookupCode
  dsimp only
  split
  · exact .behind (.loadType _ _ _) fun _ => .methodOfType _ _ htypes
  · exact .cachedLookup hhelper _ _ htypes

end Session

namespace Instrument

open Emit

variable {σ : Type} [Resolver σ]

/-- Behind what is logged and registered, a lookup is its code. -/
theorem run_loadMethod (wanted : MethodLookup) (functionId : Nat)
    (argumentTypes : Option (Emit σ Unit)) (useCache : Bool) (s : Session σ) :
    ∃ shared, (loadMethod wanted functionId argumentTypes useCache).run s =
      (emit (s.lookupCode wanted functionId argumentTypes useCache)).run { s with shared } := by
  by_cases huncached : (!useCache || s.target.config.disableCache) = true
  · refine ⟨s.shared.record s.target.name (.uncachedLookup wanted.className wanted.methodName), ?_⟩
    unfold loadMethod Session.lookupCode
    simp only [EStateM.run_bind, run_target, huncached, if_true, run_log, loadType,
      loadMethodOfType, run_emit]
    cases (Emit.loadType s.target.config.diagnostics wanted.assemblyPath wanted.className).run
      s.emission <;> rfl
  · let key := CacheKey.ofMethod wanted.className wanted.methodName functionId
    let stored := s.shared.cache.insertIfAbsent key wanted
    have hregister : (register key wanted).run s =
        .ok stored.1 { s with shared := { s.shared with cache := stored.2 } } := by
      rw [register, run_withCache, MethodCache.run_getOrResolve_pure]
    unfold loadMethod Session.lookupCode
    simp only [EStateM.run_bind, run_target, huncached, if_false, Bool.false_eq_true]
    rw [hregister]
    by_cases hpath : stored.1.assemblyPath ≠ wanted.assemblyPath
    · simp only [hpath, ne_eq, not_false_eq_true, if_true, EStateM.run_bind, run_log]
      exact ⟨_, rfl⟩
    · simp only [hpath, if_false, EStateM.run_bind, run_log]
      exact ⟨_, rfl⟩

/-- Where it is entered by falling through, a lookup of a method that goes through falls
through with one value more, with or without the cache and its checks. What the caller's
code did stands in the middle; around it no region was opened or closed, and every label
that was created stands in the code. -/
theorem loadMethod_depth {s t : Session σ} {wanted : MethodLookup} {functionId : Nat}
    {argumentTypes : Option (Emit σ Unit)} {useCache : Bool}
    (hhelper : OpCode.callEffect .call s.target.config.cacheHelper = .ok ⟨5, 1⟩)
    (htypes : ∀ types ∈ argumentTypes, Builds types ∧ Raises types)
    (hreachable : s.builder.reachable = true)
    (h : (loadMethod wanted functionId argumentTypes useCache).run s = .ok () t) :
    t.builder.reachable = true ∧ t.builder.depth = s.builder.depth + 1 ∧
      ∃ before behind, s.builder.Tidy before.builder ∧ Did argumentTypes before behind ∧
        behind.builder.Tidy t.builder ∧
        ∀ label, s.builder.labels.size ≤ label → label < t.builder.labels.size →
          label < before.builder.labels.size ∨ behind.builder.labels.size ≤ label →
          (t.builder.place label).isSome = true := by
  obtain ⟨shared, hrun⟩ := run_loadMethod wanted functionId argumentTypes useCache s
  rw [hrun, run_emit] at h
  have hcode : (s.lookupCode wanted functionId argumentTypes useCache).run s.emission =
      .ok () t.emission := by
    split at h
    · next _ emission hcode =>
      cases h
      exact hcode
    · cases h
  obtain ⟨hr, hd, before, behind, hbefore, hdid, hbehind⟩ :=
    Session.lookupCode_around hhelper (fun x hx => (htypes x hx).2) s.emission t.emission hcode
      hreachable rfl
  refine ⟨hr, hd, before, behind, hbefore, hdid, hbehind, fun label hold hnew hside => ?_⟩
  rcases hside with hearly | hlate
  · -- what was placed before the caller's code stays placed
    refine hbehind.isSome_place ?_
    have hplaced := hbefore.placed label hold hearly
    cases argumentTypes with
    | some x =>
      obtain ⟨p, hp⟩ := Option.isSome_iff_exists.mp hplaced
      exact Option.isSome_iff_exists.mpr ⟨p, ((htypes x rfl).1.grows hdid).places hp⟩
    | none =>
      rw [show behind = before from hdid]
      exact hplaced
  · exact hbehind.placed label hlate hnew

/-- The types of a method that takes a number. -/
def numberTypes : Emit StoredMethod Unit := typeArray [⟨[], false, .int32, [0x08], [0x08]⟩]

theorem loadMethod_depth_numberTypes :
    ∃ s t, Session.start { Config.default with diagnostics := true } ⟨StoredMethod.empty, .empty⟩ =
        .ok s ∧
      (loadMethod ⟨"a.dll", "C", "M"⟩ 1 (some numberTypes) false).run s = .ok () t ∧
      t.builder.reachable = true ∧ t.builder.depth = s.builder.depth + 1 ∧
      t.builder.labels.size = 2 := by
  have hruns : (Session.start { Config.default with diagnostics := true }
      ⟨StoredMethod.empty, .empty⟩).toOption.map (fun s =>
        (loadMethod ⟨"a.dll", "C", "M"⟩ 1 (some numberTypes) false).succeeds s &&
          s.builder.reachable && s.target.config.cacheHelper == defaultCacheHelper &&
          ((loadMethod ⟨"a.dll", "C", "M"⟩ 1 (some numberTypes) false).after s).builder.labels.size
            == 2) = some true := by
    decide +kernel
  obtain ⟨s, hstart, hs⟩ := exists_ok_of_map hruns
  simp only [Bool.and_eq_true, beq_iff_eq] at hs
  obtain ⟨⟨⟨hok, hreachable⟩, hconfig⟩, hlabels⟩ := hs
  obtain ⟨_, hrun⟩ := exists_ok_of_succeeds hok
  have hhelper : OpCode.callEffect .call s.target.config.cacheHelper = .ok ⟨5, 1⟩ := by
    rw [hconfig]
    exact OpCode.callEffect_eq (by decide +kernel)
  have htypes : ∀ types ∈ some numberTypes, Builds types ∧ Raises types := by
    intro types htypes
    cases htypes
    exact ⟨.of_madeOf (typeArray_closed elementary_covers.closed _), Leads.raises fun d => .typeArray _⟩
  obtain ⟨hr, hd, -⟩ := loadMethod_depth hhelper htypes hreachable hrun
  exact ⟨s, _, hstart, hrun, hr, hd, hlabels⟩

end Instrument

end CilInstrument
