import CilInstrument.Proofs.LookupDepth

/- Code for a host that knows every name. If each name has one token, whenever it is asked
   for, then a step does to the builder what some step without a host does (`Emit.Acts`), and
   two runs can be compared without their hosts. Most code looks at nothing but whether it
   is reached and at the depth, and appends instructions other than jumps: wherever these two
   are the same it does the same (`Build.Steady`). The array of the parameters' types, which
   tells overloads apart, is such code. -/
namespace CilInstrument

open Step

/-- Tokens by name. -/
structure TokenTable where
  string : String → Token
  type : String → Token
  member : String → Token
  typeSpec : List UInt8 → Token

/-- Whatever its state is, the host gives every name the token of the table. -/
structure TokenTable.IsOf (names : TokenTable) (σ : Type) [Resolver σ] : Prop where
  string : ∀ value (host : σ),
    ∃ host', (Resolver.stringToken value).run host = .ok (names.string value) host'
  type : ∀ name (host : σ),
    ∃ host', (Resolver.typeToken name).run host = .ok (names.type name) host'
  member : ∀ member (host : σ),
    ∃ host', (Resolver.memberToken member).run host = .ok (names.member member) host'
  typeSpec : ∀ blob (host : σ),
    ∃ host', (Resolver.typeSpecToken blob).run host = .ok (names.typeSpec blob) host'

namespace Emit

variable {σ α β : Type}

/-- The step does to the builder what `y` does, whatever becomes of the host. -/
def Acts (y : Build α) (x : Emit σ α) : Prop :=
  ∀ s, ∃ host, x.run s = (build y).run ⟨host, s.builder⟩

namespace Acts

variable {y : Build α} {x : Emit σ α}

theorem build (y : Build α) : Acts y (build y : Emit σ α) := fun s => ⟨s.host, rfl⟩

theorem pure (a : α) : Acts (Pure.pure a) (Pure.pure a : Emit σ α) := fun s => ⟨s.host, rfl⟩

theorem throw (e : Error) : Acts (throw e) (throw e : Emit σ α) := fun s => ⟨s.host, rfl⟩

theorem bind {g : α → Build β} {f : α → Emit σ β} (hx : Acts y x) (hf : ∀ a, Acts (g a) (f a)) :
    Acts (y >>= g) (x >>= f) := by
  intro s
  obtain ⟨host, hrun⟩ := hx s
  rw [run_build] at hrun
  simp only [EStateM.run_bind, run_build, hrun]
  cases hy : y.run s.builder with
  | ok a b =>
    obtain ⟨host', hrun'⟩ := hf a ⟨host, b⟩
    rw [run_build] at hrun'
    exact ⟨host', hrun'⟩
  | error e b => exact ⟨host, rfl⟩

theorem ite {c : Prop} [Decidable c] {y' : Build α} {x' : Emit σ α} (hx : Acts y x)
    (hx' : Acts y' x') : Acts (if c then y else y') (if c then x else x') := by
  split
  · exact hx
  · exact hx'

/-- A question that has one answer. -/
theorem ask {question : Ask σ α} {a : α}
    (h : ∀ host, ∃ host', question.run host = .ok a host') :
    Acts (Pure.pure a) (ask question) := by
  intro s
  obtain ⟨host', hanswer⟩ := h s.host
  exact ⟨host', by rw [run_ask, hanswer]; rfl⟩

theorem succeeds (h : Acts y x) (s : Emission σ) : x.succeeds s = y.succeeds s.builder := by
  obtain ⟨host, hrun⟩ := h s
  unfold Step.succeeds
  rw [hrun, run_build]
  cases y.run s.builder <;> rfl

theorem after (h : Acts y x) (s : Emission σ) : (x.after s).builder = y.after s.builder := by
  obtain ⟨host, hrun⟩ := h s
  unfold Step.after
  rw [hrun, run_build]
  cases y.run s.builder <;> rfl

theorem ok (h : Acts y x) {s : Emission σ} {a : α} {b : Builder}
    (hrun : y.run s.builder = .ok a b) : ∃ host, x.run s = .ok a ⟨host, b⟩ := by
  obtain ⟨host, hx⟩ := h s
  rw [run_build, hrun] at hx
  exact ⟨host, hx⟩

variable [Resolver σ] {names : TokenTable} (hnames : names.IsOf σ)
include hnames

theorem loadString (value : String) :
    Acts (Build.emit .ldstr ⟨0, 1⟩ (.token (names.string value)))
      (loadString value : Emit σ Unit) :=
  .bind (.ask (hnames.string value)) fun token => .build (Build.withToken .ldstr token)

theorem call {op : OpCode} {member : String} {effect : StackEffect} (hflow : op.flow = .call)
    (heffect : op.callEffect member = .ok effect) :
    Acts (Build.emit op effect (.token (names.member member)))
      (call op member : Emit σ Unit) := by
  unfold Emit.call
  simp only [hflow, ne_eq, not_true_eq_false, if_false, heffect]
  exact .bind (.pure effect) fun effect => .bind (.ask (hnames.member member)) fun token =>
    .build (Build.emit op effect (.token token))

end Acts

end Emit

namespace Build

variable {α β : Type}

/-- Code that adds to the code only, one behind the other. -/
theorem items_bind {y : Build α} {g : α → Build β} {b : Builder}
    (hy : b.code.items.toList <+: (y.after b).code.items.toList)
    (hg : ∀ a t, t.code.items.toList <+: ((g a).after t).code.items.toList) :
    (y.after b).code.items.toList <+: ((y >>= g).after b).code.items.toList ∧
      b.code.items.toList <+: ((y >>= g).after b).code.items.toList := by
  have hlast : (y.after b).code.items.toList <+: ((y >>= g).after b).code.items.toList := by
    rw [after_bind]
    cases hrun : y.run b with
    | ok a t =>
      rw [after_of_ok hrun]
      exact hg a t
    | error e t =>
      obtain rfl := after_of_error hrun
      exact List.prefix_rfl
  exact ⟨hlast, hy.trans hlast⟩

/-- Behind code that is entered alike, the code does alike, with the same instructions. It
adds to the code only, and never leaves a depth beyond the limit if it found none. -/
structure Steady (y : Build α) : Prop where
  items : ∀ b, b.code.items.toList <+: (y.after b).code.items.toList
  alike : ∀ {b b' a t}, b'.depth = b.depth → b'.reachable = b.reachable → y.run b = .ok a t →
    ∃ t' more, y.run b' = .ok a t' ∧ t'.depth = t.depth ∧ t'.reachable = t.reachable ∧
      (∀ item ∈ more, ∃ op operand effect, item = CodeItem.instruction op operand effect) ∧
      t.code.items.toList = b.code.items.toList ++ more ∧
      t'.code.items.toList = b'.code.items.toList ++ more
  depth : ∀ {b a t}, b.depth ≤ Builder.depthLimit → y.run b = .ok a t →
    t.depth ≤ Builder.depthLimit

namespace Steady

theorem view {f : Builder → α}
    (hf : ∀ {b b' : Builder}, b'.depth = b.depth → b'.reachable = b.reachable → f b' = f b) :
    Steady (do return f (← get)) where
  items b := List.prefix_rfl
  alike hd hr hrun := by
    cases hrun
    refine ⟨_, [], ?_, hd, hr, fun _ h => absurd h List.not_mem_nil, ?_, ?_⟩
    · rw [← hf hd hr]
      rfl
    · exact (List.append_nil _).symm
    · exact (List.append_nil _).symm
  depth hd hrun := by
    cases hrun
    exact hd

theorem pure (a : α) : Steady (Pure.pure a) := view (f := fun _ => a) fun _ _ => rfl

theorem throw (e : Error) : Steady (throw e : Build α) where
  items b := List.prefix_rfl
  alike _ _ hrun := by cases hrun
  depth _ hrun := by cases hrun

theorem bind {y : Build α} {g : α → Build β} (hy : Steady y) (hg : ∀ a, Steady (g a)) :
    Steady (y >>= g) where
  items b := (items_bind (hy.items b) fun a t => (hg a).items t).2
  alike hd hr hrun := by
    obtain ⟨a, t, hfirst, hrest⟩ := run_bind_ok.mp hrun
    obtain ⟨t', more, hfirst', hd', hr', hmore, hitems, hitems'⟩ := hy.alike hd hr hfirst
    obtain ⟨u', more', hrest', hd'', hr'', hmore', hbehind, hbehind'⟩ :=
      (hg a).alike hd' hr' hrest
    refine ⟨u', more ++ more', run_bind_ok.mpr ⟨a, t', hfirst', hrest'⟩, hd'', hr'', ?_, ?_, ?_⟩
    · intro item hitem
      rcases List.mem_append.mp hitem with hitem | hitem
      · exact hmore item hitem
      · exact hmore' item hitem
    · rw [hbehind, hitems, List.append_assoc]
    · rw [hbehind', hitems', List.append_assoc]
  depth hd hrun := by
    obtain ⟨a, t, hfirst, hrest⟩ := run_bind_ok.mp hrun
    exact (hg a).depth (hy.depth hd hfirst) hrest

theorem ite {c : Prop} [Decidable c] {y y' : Build α} (hy : Steady y) (hy' : Steady y') :
    Steady (if c then y else y') := by
  split
  · exact hy
  · exact hy'

theorem emit (op : OpCode) (effect : StackEffect) (operand : Operand) :
    Steady (emit op effect operand) where
  items b := by
    cases hrun : (Build.emit op effect operand).run b with
    | ok u t =>
      rw [after_of_ok hrun, (emit_ok.mp hrun).2.2]
      exact ⟨[_], Array.toList_push.symm⟩
    | error e t =>
      obtain ⟨-, d, rfl⟩ := emit_error hrun
      exact after_of_error hrun ▸ List.prefix_rfl
  alike hd hr hrun := by
    obtain ⟨hpops, hlimit, rfl⟩ := emit_ok.mp hrun
    rw [← hd, ← hr] at hpops
    refine ⟨_, [.instruction op operand effect], emit_ok.mpr ⟨hpops, by rw [hd]; exact hlimit, rfl⟩,
      ?_, ?_, ?_, Array.toList_push, Array.toList_push⟩
    · exact congrArg (fun d => d - effect.pops + effect.pushes) hd
    · exact congrArg (fun r => r && !op.flow.isTerminal) hr
    · intro item hitem
      exact ⟨op, operand, effect, List.mem_singleton.mp hitem⟩
  depth _ hrun := by
    obtain ⟨-, hlimit, rfl⟩ := emit_ok.mp hrun
    exact hlimit

theorem instruction (op : OpCode) (operand : Operand) : Steady (instruction op operand) := by
  unfold Build.instruction
  cases fixedEffect op operand.kind with
  | ok effect => exact bind (.pure effect) fun effect => .emit op effect operand
  | error e => exact bind (.throw e) fun effect => .emit op effect operand

end Steady

end Build

namespace Emit

variable {σ α β : Type}

/-- Code that does to the builder what steady code does. -/
def Steady (x : Emit σ α) : Prop := ∃ y, Acts y x ∧ y.Steady

namespace Steady

theorem build {y : Build α} (hy : y.Steady) : Steady (build y : Emit σ α) := ⟨y, .build y, hy⟩

theorem pure (a : α) : Steady (Pure.pure a : Emit σ α) := ⟨_, .pure a, .pure a⟩

theorem throw (e : Error) : Steady (throw e : Emit σ α) := ⟨_, .throw e, .throw e⟩

theorem bind {x : Emit σ α} {f : α → Emit σ β} (hx : Steady x) (hf : ∀ a, Steady (f a)) :
    Steady (x >>= f) := by
  obtain ⟨y, hacts, hy⟩ := hx
  choose g hg using hf
  exact ⟨y >>= g, hacts.bind fun a => (hg a).1, hy.bind fun a => (hg a).2⟩

theorem ite {c : Prop} [Decidable c] {x x' : Emit σ α} (hx : Steady x) (hx' : Steady x') :
    Steady (if c then x else x') := by
  split
  · exact hx
  · exact hx'

theorem ask {question : Ask σ α} {a : α}
    (h : ∀ host, ∃ host', question.run host = .ok a host') : Steady (ask question) :=
  ⟨_, .ask h, .pure a⟩

theorem storeElements {elements : List (Emit σ Unit)} (h : ∀ element ∈ elements, Steady element)
    (index : Nat) : Steady (storeElements index elements) := by
  induction elements generalizing index with
  | nil => exact .pure ()
  | cons element rest ih =>
    have hrest := ih (fun e he => h e (List.mem_cons_of_mem _ he)) (index + 1)
    have hdepth : Steady (Emit.build Build.stackDepth : Emit σ Nat) :=
      .build (.view (f := Builder.stackDepth) fun hd _ => congrArg (min · Builder.depthLimit) hd)
    unfold Emit.storeElements
    refine .bind (.build (.instruction _ _)) fun _ => .bind (.build (.instruction _ _)) fun _ => ?_
    refine .bind hdepth fun before => .bind (h element List.mem_cons_self) fun _ => ?_
    refine .bind hdepth fun after => ?_
    refine .bind (.build (.view (f := Builder.reachable) fun _ hr => hr)) fun reachable => ?_
    exact .ite (.throw _) (.bind (.build (.instruction _ _)) fun _ => hrest)

variable [Resolver σ] {names : TokenTable} (hnames : names.IsOf σ)
include hnames

theorem array (elementType : String) {elements : List (Emit σ Unit)}
    (h : ∀ element ∈ elements, Steady element) : Steady (array elementType elements) := by
  unfold Emit.array
  refine .ite (.throw _) (.bind (.build (.instruction _ _)) fun _ => ?_)
  refine .bind (.bind (.ask (hnames.type elementType)) fun token => ?_) fun _ => .storeElements h 0
  exact .build (.instruction _ _)

theorem loadTypeOf (param : ParamSig) : Steady (loadTypeOf param : Emit σ Unit) := by
  refine .bind (.ask (hnames.typeSpec param.typeBlob)) fun token => ?_
  refine .bind (.build (.instruction _ _)) fun _ => ?_
  exact ⟨_, .call hnames rfl RuntimeLibrary.typeFromHandle_effect, .emit _ _ _⟩

theorem typeArray (params : List ParamSig) : Steady (typeArray params : Emit σ Unit) := by
  refine array hnames _ fun element helement => ?_
  obtain ⟨param, -, rfl⟩ := List.mem_map.mp helement
  exact loadTypeOf hnames param

end Steady

end Emit

end CilInstrument
