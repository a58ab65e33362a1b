import CilInstrument.Proofs.NullChecks

/- What the checks of a lookup change. Where a lookup is entered by falling through, it goes
   through with its checks exactly if it does without them, and comes to the same depth. In
   dead code the label of a check makes control go on with nothing on the stack, which a
   lookup of a method does not survive, since it calls a member of the type behind the first
   of its two checks (`Lookup.perform_diagnosed`). -/
namespace CilInstrument

open Step

/-! Lookups, without the host. -/

namespace TokenTable

variable (names : TokenTable)

def typeItems (assemblyPath typeName : String) : List CodeItem :=
  [.instruction .ldstr (.token (names.string assemblyPath)) ⟨0, 1⟩,
    .instruction .call (.token (names.member RuntimeLibrary.loadFrom)) ⟨1, 1⟩,
    .instruction .ldstr (.token (names.string typeName)) ⟨0, 1⟩,
    .instruction .callvirt (.token (names.member RuntimeLibrary.getType)) ⟨2, 1⟩]

/-- Loads a type object. -/
def typeRow (assemblyPath typeName : String) : Build Unit := do
  Build.emit .ldstr ⟨0, 1⟩ (.token (names.string assemblyPath))
  Build.emit .call ⟨1, 1⟩ (.token (names.member RuntimeLibrary.loadFrom))
  Build.emit .ldstr ⟨0, 1⟩ (.token (names.string typeName))
  Build.emit .callvirt ⟨2, 1⟩ (.token (names.member RuntimeLibrary.getType))

/-- Replaces a type object by that of a method. -/
def methodRow (methodName : String) (types : Option (Build Unit)) : Build Unit := do
  Build.emit .ldstr ⟨0, 1⟩ (.token (names.string methodName))
  match types with
  | some types => do
    types
    Build.emit .callvirt ⟨3, 1⟩ (.token (names.member RuntimeLibrary.getMethodWithTypes))
  | none => Build.emit .callvirt ⟨2, 1⟩ (.token (names.member RuntimeLibrary.getMethod))

variable {names}

/-- It takes no value, so it stands anywhere; with the second name there are two values more. -/
theorem typeRow_ok {assemblyPath typeName : String} {b t : Builder} :
    (names.typeRow assemblyPath typeName).run b = .ok () t ↔
      b.depth + 2 ≤ Builder.depthLimit ∧ t = {
        b with
        code := b.code.pushAll (names.typeItems assemblyPath typeName)
        depth := b.depth + 1
        maxDepth := max b.maxDepth (b.depth + 2) } := by
  have hgoes : b.depth + 2 ≤ Builder.depthLimit →
      (names.typeRow assemblyPath typeName).run b = .ok () {
        b with
        code := b.code.pushAll (names.typeItems assemblyPath typeName)
        depth := b.depth + 1
        maxDepth := max b.maxDepth (b.depth + 2) } := by
    intro hlimit
    unfold typeRow
    rw [EStateM.run_bind, Build.run_emit_through rfl _ (fun _ => Nat.zero_le _) (by
      show b.depth + 1 ≤ _
      omega)]
    dsimp only
    rw [EStateM.run_bind, Build.run_emit_through rfl _ (fun _ => Nat.le_add_left _ _) (by
      show b.depth + 1 ≤ _
      omega)]
    dsimp only
    rw [EStateM.run_bind, Build.run_emit_through rfl _ (fun _ => Nat.zero_le _) (by
      show b.depth + 1 + 1 ≤ _
      omega)]
    dsimp only
    rw [Build.run_emit_through rfl _ (fun _ => Nat.le_add_left _ _) (by
      show b.depth + 1 ≤ _
      omega), EStateM.Result.ok.injEq, Builder.mk.injEq]
    have hmax : max (max (max (max b.maxDepth (b.depth + 1)) (b.depth + 1)) (b.depth + 2))
        (b.depth + 1) = max b.maxDepth (b.depth + 2) := by
      omega
    exact ⟨rfl, rfl, rfl, rfl, rfl, rfl, rfl, hmax, rfl⟩
  constructor
  · intro h
    have hlimit : b.depth + 2 ≤ Builder.depthLimit := by
      obtain ⟨_, _, hfirst, hrest⟩ := run_bind_ok.mp h
      obtain ⟨_, _, hsecond, hrest⟩ := run_bind_ok.mp hrest
      obtain ⟨_, _, hthird, -⟩ := run_bind_ok.mp hrest
      obtain ⟨-, -, rfl⟩ := Build.emit_ok.mp hfirst
      obtain ⟨-, -, rfl⟩ := Build.emit_ok.mp hsecond
      exact (Build.emit_ok.mp hthird).2.1
    rw [hgoes hlimit] at h
    cases h
    exact ⟨hlimit, rfl⟩
  · rintro ⟨hlimit, rfl⟩
    exact hgoes hlimit

theorem typeRow_steady (assemblyPath typeName : String) :
    (names.typeRow assemblyPath typeName).Steady :=
  .bind (.emit _ _ _) fun _ => .bind (.emit _ _ _) fun _ => .bind (.emit _ _ _) fun _ =>
    .emit _ _ _

theorem methodRow_portable (methodName : String) {types : Option (Build Unit)}
    (htypes : ∀ y ∈ types, y.Portable) : (names.methodRow methodName types).Portable := by
  refine .behind ?_ _ _ _
  cases types with
  | some y => exact .before (htypes y rfl) (.emit _ _ _)
  | none => exact (Build.Steady.emit _ _ _).portable

/-- A call that takes two values or more and gives one leaves what a check takes. -/
theorem takesCheck_of_emit {op : OpCode} {effect : StackEffect} {operand : Operand} {b t : Builder}
    (hpops : 2 ≤ effect.pops) (hpushes : effect.pushes = 1) (hd : b.depth ≤ Builder.depthLimit)
    (h : (Build.emit op effect operand).run b = .ok () t) : t.TakesCheck := by
  obtain ⟨-, -, rfl⟩ := Build.emit_ok.mp h
  have hlimit : Builder.depthLimit = 0xFFFF := rfl
  constructor
  · show 1 ≤ b.depth - effect.pops + effect.pushes
    omega
  · show b.depth - effect.pops + effect.pushes < _
    omega

theorem methodRow_takesCheck {methodName : String} {types : Option (Build Unit)}
    (htypes : ∀ y ∈ types, y.Portable) {b t : Builder}
    (h : (names.methodRow methodName types).run b = .ok () t) : t.TakesCheck := by
  obtain ⟨_, u, hfirst, hrest⟩ := run_bind_ok.mp h
  have hd : u.depth ≤ Builder.depthLimit := by
    obtain ⟨-, hlimit, rfl⟩ := Build.emit_ok.mp hfirst
    exact hlimit
  cases types with
  | some y =>
    obtain ⟨_, v, htypes', hcall⟩ := run_bind_ok.mp hrest
    exact takesCheck_of_emit (by decide) rfl ((htypes y rfl).depth hd htypes') hcall
  | none => exact takesCheck_of_emit (by decide) rfl hd hrest

end TokenTable

/-! With and without checks. -/

/-- Entered at `b`, the second code goes through where the first one does. It is the first one
with checks. Where the first one ends reached, it ends in step; where it does not, the second one
ends reached, with nothing on the stack. -/
structure TokenTable.Diagnosed (names : TokenTable) (y y' : Build Unit) (b : Builder) : Prop where
  back : ∀ {t'}, y'.run b = .ok () t' → ∃ t, y.run b = .ok () t
  forth : ∀ {t}, y.run b = .ok () t → ∃ t', y'.run b = .ok () t' ∧ names.Shows b t t' ∧
    t'.reachable = true ∧ t'.depth = if t.reachable then t.depth else 0

namespace TokenTable

variable {names : TokenTable}

theorem shows_checked {b t : Builder} (h : b.code.items.toList <+: t.code.items.toList)
    (message : String) : names.Shows b t (t.checked names message) := by
  obtain ⟨ρ, more, more', hρ, hold, hmore, hmore', hchecked⟩ := Shows.refl names h
  refine ⟨ρ, more, more' ++ names.checkItems message t.labels.size, hρ, hold, hmore, ?_, ?_⟩
  · show (t.code.pushAll _).items.toList = _
    rw [Code.toList_pushAll, hmore', List.append_assoc]
  · have happend := hchecked.append (.one names ρ message t.labels.size)
    rw [List.append_nil] at happend
    exact happend

/-- One check, at the end. -/
theorem Diagnosed.once {y : Build Unit} {b : Builder} (message : String)
    (hitems : b.code.items.toList <+: (y.after b).code.items.toList)
    (htakes : ∀ t, y.run b = .ok () t → t.TakesCheck)
    (hsize : (y.after b).size + checkSize < 0x100000000) :
    names.Diagnosed y (do y; names.check message) b where
  back hrun := by
    obtain ⟨_, t, hfirst, -⟩ := run_bind_ok.mp hrun
    exact ⟨t, hfirst⟩
  forth {t} hrun := by
    rw [after_of_ok hrun] at hitems hsize
    have hcheck := names.run_check message (htakes t hrun) hsize
    exact ⟨_, run_bind_ok.mpr ⟨_, t, hrun, hcheck⟩, shows_checked hitems message, rfl, rfl⟩

/-- The check behind a type object is all that the code behind it finds changed. -/
theorem ahead_checked {assemblyPath typeName : String} {b u : Builder} (message : String)
    (hr : b.reachable = true) (hrun : (names.typeRow assemblyPath typeName).run b = .ok () u) :
    u.Ahead (u.checked names message) := by
  obtain ⟨-, rfl⟩ := typeRow_ok.mp hrun
  refine ⟨rfl, ⟨_, rfl, rfl⟩, ?_⟩
  unfold Builder.checked
  rw [Builder.mk.injEq]
  refine ⟨rfl, rfl, rfl, rfl, rfl, if_pos hr, ?_, hr.symm⟩
  show max (max b.maxDepth (b.depth + 2)) (b.depth + 1 + 1) = max b.maxDepth (b.depth + 2)
  omega

theorem typeRow_takesCheck {assemblyPath typeName : String} {b u : Builder}
    (hrun : (names.typeRow assemblyPath typeName).run b = .ok () u) : u.TakesCheck := by
  obtain ⟨hlimit, rfl⟩ := typeRow_ok.mp hrun
  exact ⟨Nat.le_add_left _ _, hlimit⟩

theorem size_of_items {b b' : Builder} {more : List CodeItem}
    (h : b'.code.items.toList = b.code.items.toList ++ more) :
    b'.size = b.size + CodeItem.totalSize more := by
  unfold Builder.size
  rw [b'.code.size_eq, b.code.size_eq, h, CodeItem.totalSize_append]

/-- The code of a lookup with both checks, and without them. -/
theorem checked_twice (ρ : Nat → Nat) (assemblyPath typeName message message' : String)
    (label label' : Nat) (more : List CodeItem) :
    names.Checked ρ (names.typeItems assemblyPath typeName ++ more)
      (names.typeItems assemblyPath typeName ++ (names.checkItems message label ++
        (more.map (CodeItem.relabel ρ) ++ names.checkItems message' label'))) := by
  have hfront := Checked.kept names ρ (names.typeItems assemblyPath typeName)
  have hrest := (Checked.kept names ρ more).append (.one names ρ message' label')
  rw [List.append_nil] at hrest
  exact hfront.append (.check message label hrest)

/-- A check behind the type object, and one at the end, around code that does not mind the
first. -/
theorem Diagnosed.twice {z : Build Unit} (hz : z.Portable)
    (htakes : ∀ {b t}, z.run b = .ok () t → t.TakesCheck) (assemblyPath typeName : String)
    (message message' : String) {b : Builder} (hr : b.reachable = true)
    (hsize : ((do names.typeRow assemblyPath typeName; z : Build Unit).after b).size +
      2 * checkSize < 0x100000000) :
    names.Diagnosed (do names.typeRow assemblyPath typeName; z)
      (do names.typeRow assemblyPath typeName; names.check message; z; names.check message') b := by
  have hcheckSize : checkSize = 16 := rfl
  -- behind the type object, the first check goes through and is all that `z` finds changed
  have hbehind : ∀ {u}, (names.typeRow assemblyPath typeName).run b = .ok () u →
      (z.after u).size + 2 * checkSize < 0x100000000 ∧
        (names.check message).run u = .ok () (u.checked names message) ∧
        u.Ahead (u.checked names message) := by
    intro u hrun
    rw [after_bind, hrun] at hsize
    replace hsize : (z.after u).size + 2 * checkSize < 0x100000000 := hsize
    have hle := size_le_of_prefix (hz.items u)
    exact ⟨hsize, names.run_check message (typeRow_takesCheck hrun) (by omega),
      ahead_checked message hr hrun⟩
  constructor
  · intro t' hrun
    obtain ⟨_, u, htype, hrun⟩ := run_bind_ok.mp hrun
    obtain ⟨_, c, hcheck, hrun⟩ := run_bind_ok.mp hrun
    obtain ⟨_, v, hz', -⟩ := run_bind_ok.mp hrun
    obtain ⟨hroom, hcheck', hahead⟩ := hbehind htype
    rw [hcheck'] at hcheck
    cases hcheck
    obtain ⟨t, hrun⟩ := hz.back hahead (by omega) hz'
    exact ⟨t, run_bind_ok.mpr ⟨_, u, htype, hrun⟩⟩
  · intro t hrun
    obtain ⟨_, u, htype, hrun⟩ := run_bind_ok.mp hrun
    obtain ⟨hroom, hcheck, hahead⟩ := hbehind htype
    rw [after_of_ok hrun] at hroom
    obtain ⟨v, more, hrun', hd, hreach, hmore, hmore'⟩ := hz.forth hahead (by omega) hrun
    have hsizes : v.size + checkSize < 0x100000000 := by
      rw [size_of_items hmore] at hroom
      rw [size_of_items hmore', hahead.size, CodeItem.totalSize_relabel]
      omega
    have hcheck' := names.run_check message' (htakes hrun') hsizes
    refine ⟨_, run_bind_ok.mpr ⟨_, u, htype, run_bind_ok.mpr ⟨_, _, hcheck,
      run_bind_ok.mpr ⟨_, v, hrun', hcheck'⟩⟩⟩, ?_, rfl, ?_⟩
    · obtain ⟨-, rfl⟩ := typeRow_ok.mp htype
      refine ⟨skip b.labels.size, _, _, skip_injective _, fun label hlt => if_pos hlt, ?_, ?_,
        checked_twice _ assemblyPath typeName message message' b.labels.size v.labels.size more⟩
      · rw [hmore, Code.toList_pushAll, List.append_assoc]
      · show (v.code.pushAll _).items.toList = _
        rw [Code.toList_pushAll, hmore']
        show ((b.code.pushAll _).pushAll _).items.toList ++ _ ++ _ = _
        rw [Code.toList_pushAll, Code.toList_pushAll]
        simp only [List.append_assoc]
    · show (if v.reachable then v.depth else 0) = _
      rw [hreach, hd]

/-- Where control does not fall through, the label of the first check is reached with nothing
on the stack, and then there is no type object to look at. -/
theorem refused_twice {assemblyPath typeName methodName : String} {types : Option (Build Unit)}
    (hraises : ∀ y ∈ types, ∀ {b t : Builder}, y.run b = .ok () t → b.reachable = true →
      t.reachable = true ∧ t.depth = b.depth + 1)
    (hitems : ∀ b, b.code.items.toList <+:
      ((names.methodRow methodName types).after b).code.items.toList)
    {b : Builder} (hr : b.reachable = false)
    (hsize : ((do
      names.typeRow assemblyPath typeName
      names.methodRow methodName types : Build Unit).after b).size + checkSize < 0x100000000)
    (message message' : String) (t : Builder) :
    (do
      names.typeRow assemblyPath typeName
      names.check message
      names.methodRow methodName types
      names.check message' : Build Unit).run b ≠ .ok () t := by
  intro hrun
  obtain ⟨_, u, htype, hrun⟩ := run_bind_ok.mp hrun
  obtain ⟨_, c, hcheck, hrun⟩ := run_bind_ok.mp hrun
  obtain ⟨_, v, hmethod, -⟩ := run_bind_ok.mp hrun
  rw [after_bind, htype] at hsize
  have hle := size_le_of_prefix (hitems u)
  have hcheck' := names.run_check message (typeRow_takesCheck htype)
    (Nat.lt_of_le_of_lt (Nat.add_le_add_right hle _) hsize)
  rw [hcheck'] at hcheck
  cases hcheck
  have hempty : (u.checked names message).depth = 0 := by
    obtain ⟨-, rfl⟩ := typeRow_ok.mp htype
    exact if_neg (by rw [hr]; exact Bool.false_ne_true)
  -- the code behind the check puts down the name and the types, the call wants one value more
  obtain ⟨_, w, hname, hmethod⟩ := run_bind_ok.mp hmethod
  obtain ⟨-, -, rfl⟩ := Build.emit_ok.mp hname
  cases types with
  | some y =>
    obtain ⟨_, x, htypes, hcall⟩ := run_bind_ok.mp hmethod
    obtain ⟨hxr, hxd⟩ := hraises y rfl htypes rfl
    have hpops : 3 ≤ x.depth := (Build.emit_ok.mp hcall).1 hxr
    have hdepth : x.depth = (u.checked names message).depth - 0 + 1 + 1 := hxd
    omega
  | none =>
    have hpops : 2 ≤ (u.checked names message).depth - 0 + 1 := (Build.emit_ok.mp hmethod).1 rfl
    omega

end TokenTable

/-! With the host. -/

namespace Emit.Acts

variable {σ : Type} [Resolver σ] {names : TokenTable} (hnames : names.IsOf σ)
include hnames

theorem check (message : String) :
    Acts (names.check message) (ifNull (writeLine message) : Emit σ Unit) := by
  have hflat : (ifNull (writeLine message) : Emit σ Unit) = (do
      Emit.build (Build.plain .dup)
      let notNull ← Emit.build (Build.jump .brtrue)
      Emit.loadString message
      Emit.call .call RuntimeLibrary.writeLine
      Emit.build (Build.placeLabel notNull)) := by
    unfold ifNull writeLine
    simp only [bind_assoc]
  rw [hflat]
  refine .bind (.build (Build.plain .dup)) fun _ => .bind (.build _) fun notNull => ?_
  refine .bind (.loadString hnames message) fun _ => ?_
  exact .bind (.call hnames rfl RuntimeLibrary.writeLine_effect) fun _ => .build _

/-- A lookup of a type, and the check behind it. -/
theorem loadType (diagnostics : Bool) (assemblyPath typeName : String) :
    Acts (do
        names.typeRow assemblyPath typeName
        if diagnostics then names.check s!"Type {typeName} not found in {assemblyPath}")
      (loadType diagnostics assemblyPath typeName : Emit σ Unit) := by
  unfold TokenTable.typeRow
  simp only [bind_assoc]
  refine .bind (.loadString hnames assemblyPath) fun _ => ?_
  refine .bind (.call hnames rfl RuntimeLibrary.loadFrom_effect) fun _ => ?_
  refine .bind (.loadString hnames typeName) fun _ => ?_
  refine .bind (.call hnames rfl RuntimeLibrary.getType_effect) fun _ => ?_
  exact .ite (.check hnames _) (.pure ())

/-- A lookup of a method, around what the caller's code does. -/
theorem methodOfType (diagnostics : Bool) (methodName : String) {types : Option (Build Unit)}
    {argumentTypes : Option (Emit σ Unit)} (htypes : Option.Rel Acts types argumentTypes) :
    Acts (do
        names.methodRow methodName types
        if diagnostics then names.check s!"Method {methodName} not found")
      (methodOfType diagnostics methodName argumentTypes : Emit σ Unit) := by
  unfold TokenTable.methodRow Emit.methodOfType
  simp only [bind_assoc]
  refine .bind (.loadString hnames methodName) fun _ => ?_
  cases htypes with
  | some h =>
    simp only [bind_assoc]
    refine .bind h fun _ => ?_
    refine .bind (.call hnames rfl RuntimeLibrary.getMethodWithTypes_effect) fun _ => ?_
    exact .ite (.check hnames _) (.pure ())
  | none =>
    refine .bind (.call hnames rfl RuntimeLibrary.getMethod_effect) fun _ => ?_
    exact .ite (.check hnames _) (.pure ())

theorem typeRow (assemblyPath typeName : String) :
    Acts (names.typeRow assemblyPath typeName)
      (Emit.loadType false assemblyPath typeName : Emit σ Unit) := by
  have h := loadType hnames false assemblyPath typeName
  simp only [Bool.false_eq_true, if_false, bind_pure_unit] at h
  exact h

theorem checkedTypeRow (assemblyPath typeName : String) :
    Acts (do
        names.typeRow assemblyPath typeName
        names.check s!"Type {typeName} not found in {assemblyPath}")
      (Emit.loadType true assemblyPath typeName : Emit σ Unit) :=
  loadType hnames true assemblyPath typeName

theorem methodRow (methodName : String) {types : Option (Build Unit)}
    {argumentTypes : Option (Emit σ Unit)} (htypes : Option.Rel Acts types argumentTypes) :
    Acts (names.methodRow methodName types)
      (Emit.methodOfType false methodName argumentTypes : Emit σ Unit) := by
  have h := methodOfType hnames false methodName htypes
  simp only [Bool.false_eq_true, if_false, bind_pure_unit] at h
  exact h

theorem checkedMethodRow (methodName : String) {types : Option (Build Unit)}
    {argumentTypes : Option (Emit σ Unit)} (htypes : Option.Rel Acts types argumentTypes) :
    Acts (do
        names.methodRow methodName types
        names.check s!"Method {methodName} not found")
      (Emit.methodOfType true methodName argumentTypes : Emit σ Unit) :=
  methodOfType hnames true methodName htypes

omit [Resolver σ] hnames in
/-- The caller's code, without the host. -/
theorem exists_portable {argumentTypes : Option (Emit σ Unit)}
    (htypes : ∀ x ∈ argumentTypes, ∃ y, Acts y x ∧ y.Portable) :
    ∃ types, Option.Rel Acts types argumentTypes ∧ ∀ y ∈ types, Build.Portable y := by
  cases argumentTypes with
  | none => exact ⟨none, .none, fun y hy => by cases hy⟩
  | some x =>
    obtain ⟨y, hacts, hy⟩ := htypes x rfl
    exact ⟨some y, .some hacts, fun y' hy' => by cases hy'; exact hy⟩

omit [Resolver σ] hnames in
/-- What raises the depth by one does so without the host. -/
theorem raises {types : Option (Build Unit)} {argumentTypes : Option (Emit σ Unit)}
    (hacts : Option.Rel Acts types argumentTypes) (hraises : ∀ x ∈ argumentTypes, Raises x)
    (host : σ) : ∀ y ∈ types, ∀ {b t : Builder}, y.run b = .ok () t → b.reachable = true →
      t.reachable = true ∧ t.depth = b.depth + 1 := by
  intro y hy b t hrun hr
  cases hacts with
  | none => cases hy
  | some h =>
    cases hy
    obtain ⟨host', hrun'⟩ := h.ok (s := ⟨host, b⟩) hrun
    exact hraises _ rfl _ _ hrun' hr

end Emit.Acts

/-! Lookups through the cache. -/

namespace Emit

variable {σ : Type}

/-- Whatever becomes of it, the step adds to the code only. -/
def Appends ⦃α : Type⦄ (x : Emit σ α) : Prop :=
  ∀ s, s.builder.code.items.toList <+: (x.after s).builder.code.items.toList

namespace Appends

theorem of_madeOf {α : Type} {x : Emit σ α} (h : MadeOf Appends x) : Appends x :=
  h.after
    (R := fun s t : Emission σ => s.builder.code.items.toList <+: t.builder.code.items.toList)
    (fun _ => List.prefix_rfl) .trans fun _ _ hx => hx

theorem of_elementary {α : Type} {x : Emit σ α} (h : MadeOf Elementary x) : Appends x :=
  fun s => (Builder.Grows.of_changes (Builds.of_madeOf h s)).items

theorem of_acts {y : Build Unit} {x : Emit σ Unit} (hacts : Acts y x) (hy : y.Portable) :
    Appends x := by
  intro s
  rw [hacts.after]
  exact hy.items s.builder

variable [Resolver σ]

theorem covers : Covers (σ := σ) Appends where
  perform a _ := .base (of_elementary a.perform_elementary)
  jump op := .base (of_elementary (jump_elementary op))

theorem cachedLookup (helper : String) (key : CacheKey) (found : MethodLookup)
    {argumentTypes : Option (Emit σ Unit)} (h : ∀ x ∈ argumentTypes, Appends x) :
    Appends (cachedLookup helper key found argumentTypes) :=
  of_madeOf (cachedLookup_closed covers.closed helper key found fun x hx => .base (h x hx))

end Appends

end Emit

/-- The tokens that the stored method gives, whatever is asked for. -/
def StoredMethod.names : TokenTable where
  string _ := ⟨0x70000001⟩
  type _ := ⟨0x01000001⟩
  member _ := ⟨0x0A000001⟩
  typeSpec _ := ⟨0x1B000001⟩

theorem StoredMethod.names_isOf : names.IsOf StoredMethod where
  string _ host := ⟨host, rfl⟩
  type _ host := ⟨host, rfl⟩
  member _ host := ⟨host, rfl⟩
  typeSpec _ host := ⟨host, rfl⟩

/-! Lookups of a session. -/

section
variable {σ : Type}

/-- The session, with its checks switched on or off. -/
def Session.withDiagnostics (s : Session σ) (diagnostics : Bool) : Session σ :=
  { s with target := { s.target with config := { s.target.config with diagnostics } } }

/-- A lookup by reflection or through the cache. -/
inductive Lookup (σ : Type) where
  | type (assemblyPath typeName : String)
  | methodOfType (methodName : String) (argumentTypes : Option (Emit σ Unit))
  | method (wanted : MethodLookup) (functionId : Nat) (argumentTypes : Option (Emit σ Unit))
    (useCache : Bool)

namespace Lookup

/-- The code that tells overloads apart. -/
def argumentTypes : Lookup σ → Option (Emit σ Unit)
  | type _ _ => none
  | methodOfType _ argumentTypes | method _ _ argumentTypes _ => argumentTypes

/-- The checks that the lookup makes if they are switched on. -/
def checks (s : Session σ) : Lookup σ → Nat
  | type _ _ | methodOfType _ _ => 1
  | method _ _ _ useCache => if !useCache || s.target.config.disableCache then 2 else 0

variable [Resolver σ]

def perform : Lookup σ → Instrument σ Unit
  | type assemblyPath typeName => Instrument.loadType assemblyPath typeName
  | methodOfType methodName argumentTypes => Instrument.loadMethodOfType methodName argumentTypes
  | method wanted functionId argumentTypes useCache =>
    Instrument.loadMethod wanted functionId argumentTypes useCache

def code (s : Session σ) : Lookup σ → Emit σ Unit
  | type assemblyPath typeName => Emit.loadType s.target.config.diagnostics assemblyPath typeName
  | methodOfType methodName argumentTypes =>
    Emit.methodOfType s.target.config.diagnostics methodName argumentTypes
  | method wanted functionId argumentTypes useCache =>
    s.lookupCode wanted functionId argumentTypes useCache

theorem run_perform (l : Lookup σ) (s : Session σ) :
    ∃ shared, l.perform.run s = (Instrument.emit (l.code s)).run { s with shared } := by
  have htarget : ∀ f : Target → Instrument σ Unit,
      (Instrument.target >>= f).run s = (f s.target).run s := by
    intro f
    rw [EStateM.run_bind, Instrument.run_target]
  cases l with
  | type assemblyPath typeName =>
    exact ⟨s.shared, htarget fun target =>
      Instrument.emit (Emit.loadType target.config.diagnostics assemblyPath typeName)⟩
  | methodOfType methodName argumentTypes =>
    exact ⟨s.shared, htarget fun target =>
      Instrument.emit (Emit.methodOfType target.config.diagnostics methodName argumentTypes)⟩
  | method wanted functionId argumentTypes useCache =>
    exact Instrument.run_loadMethod wanted functionId argumentTypes useCache s

theorem succeeds_perform (l : Lookup σ) (s : Session σ) :
    l.perform.succeeds s = (l.code s).succeeds s.emission := by
  obtain ⟨shared, hrun⟩ := l.run_perform s
  unfold Step.succeeds
  rw [hrun, Instrument.run_emit]
  cases (l.code s).run s.emission <;> rfl

theorem builder_perform (l : Lookup σ) (s : Session σ) :
    (l.perform.after s).builder = ((l.code s).after s.emission).builder := by
  obtain ⟨shared, hrun⟩ := l.run_perform s
  unfold Step.after
  rw [hrun, Instrument.run_emit]
  cases (l.code s).run s.emission <;> rfl

/-- How a lookup of a session fares with its checks on, beside the same lookup with them off. -/
structure InStep (names : TokenTable) (l : Lookup σ) (s : Session σ) : Prop where
  succeeds : l.perform.succeeds (s.withDiagnostics true) =
    l.perform.succeeds (s.withDiagnostics false)
  /-- The code is the same but for the checks. -/
  shows : l.perform.succeeds (s.withDiagnostics false) = true →
    names.Shows s.builder (l.perform.after (s.withDiagnostics false)).builder
      (l.perform.after (s.withDiagnostics true)).builder
  /-- Where control falls through without the checks, it does with them, at the same depth. -/
  reached : l.perform.succeeds (s.withDiagnostics false) = true →
    (l.perform.after (s.withDiagnostics false)).builder.reachable = true →
    (l.perform.after (s.withDiagnostics true)).builder.reachable = true ∧
      (l.perform.after (s.withDiagnostics true)).builder.depth =
        (l.perform.after (s.withDiagnostics false)).builder.depth
  /-- Where it does not, a check makes it go on all the same, with nothing on the stack. -/
  revived : l.checks s ≠ 0 → l.perform.succeeds (s.withDiagnostics false) = true →
    (l.perform.after (s.withDiagnostics false)).builder.reachable = false →
    (l.perform.after (s.withDiagnostics true)).builder.reachable = true ∧
      (l.perform.after (s.withDiagnostics true)).builder.depth = 0

variable {names : TokenTable} {l : Lookup σ} {s : Session σ}

theorem inStep_of_diagnosed {y y' : Build Unit}
    (hoff : Emit.Acts y (l.code (s.withDiagnostics false)))
    (hon : Emit.Acts y' (l.code (s.withDiagnostics true)))
    (h : names.Diagnosed y y' s.builder) : l.InStep names s := by
  have hbehind : y.succeeds s.builder = true → ∃ t', y'.run s.builder = .ok () t' ∧
      names.Shows s.builder (y.after s.builder) t' ∧ t'.reachable = true ∧
      t'.depth = if (y.after s.builder).reachable then (y.after s.builder).depth else 0 := by
    intro hok
    obtain ⟨_, hrun⟩ := exists_ok_of_succeeds hok
    exact h.forth hrun
  have hsoff : l.perform.succeeds (s.withDiagnostics false) = y.succeeds s.builder :=
    (l.succeeds_perform _).trans (hoff.succeeds s.emission)
  have hson : l.perform.succeeds (s.withDiagnostics true) = y'.succeeds s.builder :=
    (l.succeeds_perform _).trans (hon.succeeds s.emission)
  have hboff : (l.perform.after (s.withDiagnostics false)).builder = y.after s.builder :=
    (l.builder_perform _).trans (hoff.after s.emission)
  have hbon : (l.perform.after (s.withDiagnostics true)).builder = y'.after s.builder :=
    (l.builder_perform _).trans (hon.after s.emission)
  constructor
  · rw [hsoff, hson, Bool.eq_iff_iff, succeeds_iff, succeeds_iff]
    constructor
    · rintro ⟨_, t', hrun⟩
      obtain ⟨t, hrun'⟩ := h.back hrun
      exact ⟨_, t, hrun'⟩
    · rintro ⟨_, t, hrun⟩
      obtain ⟨t', hrun', -⟩ := h.forth hrun
      exact ⟨_, t', hrun'⟩
  · rw [hsoff, hboff, hbon]
    intro hok
    obtain ⟨t', hrun', hshows, -⟩ := hbehind hok
    rw [after_of_ok hrun']
    exact hshows
  · rw [hsoff, hboff, hbon]
    intro hok hr
    obtain ⟨t', hrun', -, hr', hd'⟩ := hbehind hok
    rw [after_of_ok hrun']
    rw [hr] at hd'
    exact ⟨hr', hd'⟩
  · rw [hsoff, hboff, hbon]
    intro _ hok hr
    obtain ⟨t', hrun', -, hr', hd'⟩ := hbehind hok
    rw [after_of_ok hrun']
    rw [hr] at hd'
    exact ⟨hr', hd'⟩

/-- A lookup that makes no checks is the same with them on. -/
theorem inStep_of_unchecked
    (hcode : l.code (s.withDiagnostics true) = l.code (s.withDiagnostics false))
    (hitems : s.builder.code.items.toList <+:
      ((l.code (s.withDiagnostics false)).after s.emission).builder.code.items.toList)
    (hchecks : l.checks s = 0) : l.InStep names s := by
  have hbuilder : (l.perform.after (s.withDiagnostics true)).builder =
      (l.perform.after (s.withDiagnostics false)).builder := by
    rw [l.builder_perform, l.builder_perform, hcode]
    rfl
  constructor
  · rw [l.succeeds_perform, l.succeeds_perform, hcode]
    rfl
  · intro _
    rw [hbuilder, l.builder_perform]
    exact .refl names hitems
  · intro _ hr
    rw [hbuilder]
    exact ⟨hr, rfl⟩
  · intro hne
    exact absurd hchecks hne

theorem code_uncached {wanted : MethodLookup} {functionId : Nat}
    {argumentTypes : Option (Emit σ Unit)} {useCache : Bool}
    (h : (!useCache || s.target.config.disableCache) = true) :
    (method wanted functionId argumentTypes useCache).code s = (do
      Emit.loadType s.target.config.diagnostics wanted.assemblyPath wanted.className
      Emit.methodOfType s.target.config.diagnostics wanted.methodName argumentTypes) :=
  if_pos h

theorem code_cached {wanted : MethodLookup} {functionId : Nat}
    {argumentTypes : Option (Emit σ Unit)} {useCache : Bool}
    (h : ¬(!useCache || s.target.config.disableCache) = true) :
    (method wanted functionId argumentTypes useCache).code s =
      Emit.cachedLookup s.target.config.cacheHelper
        (.ofMethod wanted.className wanted.methodName functionId)
        (s.shared.cache.insertIfAbsent
          (.ofMethod wanted.className wanted.methodName functionId) wanted).1 argumentTypes :=
  if_neg h

variable (hnames : names.IsOf σ)
include hnames

theorem inStep_type {assemblyPath typeName : String}
    (hsize : ((type assemblyPath typeName).perform.after (s.withDiagnostics false)).builder.size +
      TokenTable.checkSize < 0x100000000) :
    (type assemblyPath typeName).InStep names s := by
  have hoff : Emit.Acts (names.typeRow assemblyPath typeName)
      ((type assemblyPath typeName).code (s.withDiagnostics false)) := .typeRow hnames _ _
  rw [builder_perform, hoff.after] at hsize
  refine inStep_of_diagnosed hoff (.checkedTypeRow hnames _ _) (.once _ ?_ ?_ hsize)
  · exact (TokenTable.typeRow_steady _ _).items _
  · exact fun _ => TokenTable.typeRow_takesCheck

theorem inStep_methodOfType {methodName : String} {argumentTypes : Option (Emit σ Unit)}
    (htypes : ∀ x ∈ argumentTypes, ∃ y, Emit.Acts y x ∧ y.Portable)
    (hsize : ((methodOfType methodName argumentTypes).perform.after
      (s.withDiagnostics false)).builder.size + TokenTable.checkSize < 0x100000000) :
    (methodOfType methodName argumentTypes).InStep names s := by
  obtain ⟨types, hacts, hportable⟩ := Emit.Acts.exists_portable htypes
  have hoff : Emit.Acts (names.methodRow methodName types)
      ((methodOfType methodName argumentTypes).code (s.withDiagnostics false)) :=
    .methodRow hnames _ hacts
  rw [builder_perform, hoff.after] at hsize
  refine inStep_of_diagnosed hoff (.checkedMethodRow hnames _ hacts) (.once _ ?_ ?_ hsize)
  · exact (TokenTable.methodRow_portable _ hportable).items _
  · exact fun _ => TokenTable.methodRow_takesCheck hportable

section
variable {wanted : MethodLookup} {functionId : Nat} {argumentTypes : Option (Emit σ Unit)}
  {useCache : Bool}

omit hnames in
theorem inStep_cached (huse : ¬(!useCache || s.target.config.disableCache) = true)
    (htypes : ∀ x ∈ argumentTypes, ∃ y, Emit.Acts y x ∧ y.Portable) :
    (method wanted functionId argumentTypes useCache).InStep names s := by
  refine inStep_of_unchecked ?_ ?_ (if_neg huse)
  · rw [code_cached (s := s.withDiagnostics true) huse,
      code_cached (s := s.withDiagnostics false) huse]
    rfl
  · rw [code_cached (s := s.withDiagnostics false) huse]
    refine Emit.Appends.cachedLookup _ _ _ (fun x hx => ?_) s.emission
    obtain ⟨y, hacts, hy⟩ := htypes x hx
    exact .of_acts hacts hy

variable (wanted functionId)

/-- Type and method one after the other, without the host. -/
theorem acts_uncached (huse : (!useCache || s.target.config.disableCache) = true)
    {types : Option (Build Unit)} (hacts : Option.Rel Emit.Acts types argumentTypes) :
    Emit.Acts (do
        names.typeRow wanted.assemblyPath wanted.className
        names.methodRow wanted.methodName types)
      ((method wanted functionId argumentTypes useCache).code (s.withDiagnostics false)) := by
  rw [code_uncached (s := s.withDiagnostics false) huse]
  exact .bind (.typeRow hnames _ _) fun _ => .methodRow hnames _ hacts

theorem acts_uncached_checked (huse : (!useCache || s.target.config.disableCache) = true)
    {types : Option (Build Unit)} (hacts : Option.Rel Emit.Acts types argumentTypes) :
    Emit.Acts (do
        names.typeRow wanted.assemblyPath wanted.className
        names.check s!"Type {wanted.className} not found in {wanted.assemblyPath}"
        names.methodRow wanted.methodName types
        names.check s!"Method {wanted.methodName} not found")
      ((method wanted functionId argumentTypes useCache).code (s.withDiagnostics true)) := by
  have h := (Emit.Acts.checkedTypeRow hnames wanted.assemblyPath wanted.className).bind
    fun _ => Emit.Acts.checkedMethodRow hnames wanted.methodName hacts
  rw [bind_assoc] at h
  rw [code_uncached (s := s.withDiagnostics true) huse]
  exact h

variable {wanted functionId}

theorem inStep_uncached (huse : (!useCache || s.target.config.disableCache) = true)
    (htypes : ∀ x ∈ argumentTypes, ∃ y, Emit.Acts y x ∧ y.Portable)
    (hreachable : s.builder.reachable = true)
    (hsize : ((method wanted functionId argumentTypes useCache).perform.after
      (s.withDiagnostics false)).builder.size + 2 * TokenTable.checkSize < 0x100000000) :
    (method wanted functionId argumentTypes useCache).InStep names s := by
  obtain ⟨types, hacts, hportable⟩ := Emit.Acts.exists_portable htypes
  have hoff := acts_uncached hnames wanted functionId huse hacts
  rw [builder_perform, hoff.after] at hsize
  exact inStep_of_diagnosed hoff (acts_uncached_checked hnames _ _ huse hacts)
    (.twice (TokenTable.methodRow_portable _ hportable)
      (TokenTable.methodRow_takesCheck hportable) _ _ _ _ hreachable hsize)

theorem refused_uncached (huse : (!useCache || s.target.config.disableCache) = true)
    (htypes : ∀ x ∈ argumentTypes, ∃ y, Emit.Acts y x ∧ y.Portable)
    (hraises : ∀ x ∈ argumentTypes, Emit.Raises x) (hreachable : s.builder.reachable = false)
    (hsize : ((method wanted functionId argumentTypes useCache).perform.after
      (s.withDiagnostics false)).builder.size + 2 * TokenTable.checkSize < 0x100000000) :
    (method wanted functionId argumentTypes useCache).perform.succeeds
      (s.withDiagnostics true) = false := by
  obtain ⟨types, hacts, hportable⟩ := Emit.Acts.exists_portable htypes
  have hoff := acts_uncached hnames wanted functionId huse hacts
  rw [builder_perform, hoff.after] at hsize
  have hon := acts_uncached_checked hnames wanted functionId huse hacts
  rw [succeeds_perform, hon.succeeds, Bool.eq_false_iff]
  intro hok
  obtain ⟨_, hrun⟩ := exists_ok_of_succeeds hok
  exact TokenTable.refused_twice (Emit.Acts.raises hacts hraises s.host)
    (TokenTable.methodRow_portable _ hportable).items hreachable
    (Nat.lt_of_le_of_lt (Nat.add_le_add_left (by decide) _) hsize) _ _ _ hrun

end

/-- For a host that knows every name, switching the checks on changes a lookup only by these
checks, wherever it is entered by falling through, and everywhere else if it makes one check at
most. A lookup of a method that makes two is refused where it is not entered so. -/
theorem perform_diagnosed (htypes : ∀ x ∈ l.argumentTypes, ∃ y, Emit.Acts y x ∧ y.Portable)
    (hsize : (l.perform.after (s.withDiagnostics false)).builder.size +
      2 * TokenTable.checkSize < 0x100000000) :
    (l.checks s < 2 ∨ s.builder.reachable = true → l.InStep names s) ∧
      (l.checks s = 2 → s.builder.reachable = false →
        (∀ x ∈ l.argumentTypes, Emit.Raises x) →
        l.perform.succeeds (s.withDiagnostics true) = false) := by
  have hless := Nat.lt_of_le_of_lt (Nat.add_le_add_left
    (show TokenTable.checkSize ≤ 2 * TokenTable.checkSize by decide) _) hsize
  cases l with
  | type assemblyPath typeName =>
    refine ⟨fun _ => inStep_type hnames hless, fun htwice => ?_⟩
    cases htwice
  | methodOfType methodName argumentTypes =>
    refine ⟨fun _ => inStep_methodOfType hnames htypes hless, fun htwice => ?_⟩
    cases htwice
  | method wanted functionId argumentTypes useCache =>
    by_cases huse : (!useCache || s.target.config.disableCache) = true
    · refine ⟨fun hor => ?_, fun _ hreachable hraises =>
        refused_uncached hnames huse htypes hraises hreachable hsize⟩
      have htwo : (method wanted functionId argumentTypes useCache).checks s = 2 := if_pos huse
      rw [htwo] at hor
      exact inStep_uncached hnames huse htypes (hor.resolve_left (Nat.lt_irrefl 2)) hsize
    · refine ⟨fun _ => inStep_cached huse htypes, fun htwice => ?_⟩
      have hnone : (method wanted functionId argumentTypes useCache).checks s = 0 := if_neg huse
      rw [hnone] at htwice
      cases htwice

omit hnames in
theorem perform_diagnosed_numberTypes :
    ∃ s : Session StoredMethod, Session.start .default ⟨.empty, .empty⟩ = .ok s ∧
      let l := method ⟨"a.dll", "C", "M"⟩ 1 (some Instrument.numberTypes) false
      l.perform.succeeds (s.withDiagnostics true) = true ∧ l.InStep StoredMethod.names s := by
  let l := method ⟨"a.dll", "C", "M"⟩ 1 (some Instrument.numberTypes) false
  have hruns : (Session.start .default ⟨StoredMethod.empty, .empty⟩).toOption.map (fun s =>
      (l.perform.succeeds (s.withDiagnostics false) && s.builder.reachable) &&
        decide ((l.perform.after (s.withDiagnostics false)).builder.size +
          2 * TokenTable.checkSize < 0x100000000)) = some true := by
    decide +kernel
  obtain ⟨s, hstart, hs⟩ := exists_ok_of_map hruns
  simp only [Bool.and_eq_true, decide_eq_true_iff] at hs
  obtain ⟨⟨hok, hreachable⟩, hsize⟩ := hs
  have htypes : ∀ x ∈ l.argumentTypes, ∃ y, Emit.Acts y x ∧ y.Portable := by
    intro x hx
    cases hx
    obtain ⟨y, hacts, hy⟩ := Emit.Steady.typeArray StoredMethod.names_isOf _
    exact ⟨y, hacts, hy.portable⟩
  have hstep := (perform_diagnosed StoredMethod.names_isOf htypes hsize).1 (.inr hreachable)
  exact ⟨s, hstart, hstep.succeeds.trans hok, hstep⟩

omit hnames in
/-- Behind the code of the method, which returns, the same lookup goes through without checks and
is refused with them. -/
theorem perform_behind_ownCode :
    ∃ s t : Session StoredMethod, Session.start .default ⟨.empty, .empty⟩ = .ok s ∧
      Instrument.placeOwnCode.run s = .ok () t ∧
      let l : Lookup StoredMethod := method ⟨"a.dll", "C", "M"⟩ 1 none false
      l.perform.succeeds (t.withDiagnostics false) = true ∧
      l.perform.succeeds (t.withDiagnostics true) = false := by
  let l : Lookup StoredMethod := method ⟨"a.dll", "C", "M"⟩ 1 none false
  have hruns : (Session.start .default ⟨StoredMethod.empty, .empty⟩).toOption.map (fun s =>
      let t := Instrument.placeOwnCode.after s
      Instrument.placeOwnCode.succeeds s && (l.perform.succeeds (t.withDiagnostics false) &&
        !l.perform.succeeds (t.withDiagnostics true))) = some true := by
    decide +kernel
  obtain ⟨s, hstart, hs⟩ := exists_ok_of_map hruns
  simp only [Bool.and_eq_true, Bool.not_eq_true'] at hs
  obtain ⟨hok, hrest⟩ := hs
  obtain ⟨_, hrun⟩ := exists_ok_of_succeeds hok
  exact ⟨s, _, hstart, hrun, hrest⟩

end Lookup

end

end CilInstrument
