import CilInstrument.Proofs.ArrayElements
import CilInstrument.Proofs.InstructionStream

/- Arrays of which all the code is known. A plan tells what instructions are to be appended,
   with tokens that the host is asked for on the way. Code that realizes its plan
   (`Emit.Realizes`) is entered at one depth, goes through and comes to another; an array of
   such code realizes a plan again (`Realizes.array`), and what it appends is read back from
   the bytes (`Builder.Adds.reads`). The array of a method's arguments fails only if an
   argument has no slot (`Instrument.emitArguments_layout`). -/
namespace CilInstrument

open Step

/-! Instructions other than jumps. -/

/-- An instruction other than a jump. -/
def Intent.isPlain : Intent → Bool
  | instruction _ _ | access _ _ => true
  | jump _ _ | ownCode _ => false

section
open Linking

variable {place : Nat → Option Nat} {offset : Nat} {intents : List Intent} {items : List CodeItem}

theorem Intent.IsMetBy.of_plain {intent : Intent} {item : CodeItem} (h : intent.IsMetBy item)
    (hplain : intent.isPlain = true) :
    ∃ op operand effect, item = .instruction op operand effect ∧ operand.kind = op.operand := by
  cases h with
  | instruction hkind => exact ⟨_, _, _, rfl, hkind⟩
  | @access kind index _ => exact ⟨_, _, _, rfl, (kind.shortest_names index 0).1⟩
  | jump _ => cases hplain
  | ownCode => cases hplain

/-- Linking changes nothing but jumps. -/
theorem linked_plain (h : List.Forall₂ Intent.IsMetBy intents items)
    (hplain : ∀ intent ∈ intents, intent.isPlain = true) :
    linked place offset items = emitted items ∧ sites offset items = [] ∧
      ∀ item ∈ items, item.IsCoded := by
  induction h generalizing offset with
  | nil => exact ⟨rfl, rfl, fun _ hitem => absurd hitem List.not_mem_nil⟩
  | @cons intent item _ items hfirst _ ih =>
    obtain ⟨op, operand, effect, rfl, hkind⟩ := hfirst.of_plain (hplain intent List.mem_cons_self)
    obtain ⟨hlinked, hsites, hcoded⟩ :=
      @ih (offset + (CodeItem.instruction op operand effect).size)
        fun x hx => hplain x (List.mem_cons_of_mem _ hx)
    refine ⟨?_, hsites, List.forall_mem_cons.mpr ⟨.instruction hkind, hcoded⟩⟩
    rw [linked, hlinked]
    rfl

end

namespace Builder.Adds

open Linking (linked linked_append)

variable {b b' : Builder} {intents : List Intent}

/-- Instructions other than jumps are read back from the bytes that they add, which stay as
they are wherever labels will stand. -/
theorem reads (h : Adds intents b b') (hplain : ∀ intent ∈ intents, intent.isPlain = true) :
    ∃ code, b'.emitted = b.emitted ++ code ∧
      ∀ place, linked place 0 b'.code.items.toList = linked place 0 b.code.items.toList ++ code ∧
        ∃ stream, Stretch place b.size code intents stream := by
  obtain ⟨more, hitems, hmet⟩ := h
  refine ⟨Linking.emitted more, ?_, fun place => ?_⟩
  · unfold emitted Linking.emitted
    rw [hitems, List.flatMap_append]
  obtain ⟨hlinked, hsites, hcoded⟩ := @linked_plain place b.size _ _ hmet hplain
  have hsize : b.size = 0 + CodeItem.totalSize b.code.items.toList := by
    rw [Nat.zero_add]
    exact b.size_eq
  have hunlinked : ∀ j ∈ Linking.sites b.size more, Linking.Linked place j := by
    rw [hsites]
    exact fun _ hj => absurd hj List.not_mem_nil
  obtain ⟨stream, hstream, -⟩ := disassemble_linked hmet hcoded hunlinked
  rw [hlinked] at hstream
  refine ⟨?_, stream, hstream⟩
  rw [hitems, linked_append, ← hsize, hlinked]

end Builder.Adds

/-- Whatever its state is, the host has a token for every name. -/
structure Resolver.Total (σ : Type) [Resolver σ] : Prop where
  string : ∀ value (host : σ), ∃ token host',
    (Resolver.stringToken value).run host = .ok token host'
  type : ∀ name (host : σ), ∃ token host', (Resolver.typeToken name).run host = .ok token host'
  member : ∀ member (host : σ), ∃ token host',
    (Resolver.memberToken member).run host = .ok token host'
  typeSpec : ∀ blob (host : σ), ∃ token host',
    (Resolver.typeSpecToken blob).run host = .ok token host'

theorem StoredMethod.total : Resolver.Total StoredMethod where
  string _ host := ⟨_, host, rfl⟩
  type _ host := ⟨_, host, rfl⟩
  member _ host := ⟨_, host, rfl⟩
  typeSpec _ host := ⟨_, host, rfl⟩

/-! Code with a plan. -/

namespace Emit

open Builder (Adds)

variable {σ : Type} {d d' d'' : Nat} {plan plan' : Ask σ (List Intent)} {x y : Emit σ Unit}

/-! The plans of arrays. -/

/-- The instructions for an element: what selects its place, what loads it, what stores it. -/
def elementIntents (index : Nat) (load : List Intent) : List Intent :=
  .instruction .dup .none :: .instruction .ldcI4 (.int (Int32.ofNat index)) ::
    load ++ [.instruction .stelemRef .none]

/-- The plan for the elements from `index` on. -/
def rowPlan : (index : Nat) → List (Ask σ (List Intent)) → Ask σ (List Intent)
  | _, [] => Pure.pure []
  | index, load :: rest => do return elementIntents index (← load) ++ (← rowPlan (index + 1) rest)

/-- The plan for an array. -/
def arrayPlan [Resolver σ] (elementType : String) (loads : List (Ask σ (List Intent))) :
    Ask σ (List Intent) := do
  let type ← Resolver.typeToken elementType
  return .instruction .ldcI4 (.int (Int32.ofNat loads.length)) ::
    .instruction .newarr (.token type) :: (← rowPlan 0 loads)

/-- The plan for an argument as an object. What is passed by reference is loaded through it,
and values are boxed, both with the token of the type without the marker. -/
def argumentPlan [Resolver σ] (index : UInt16) (param : ParamSig) : Ask σ (List Intent) :=
  match param.isByRef, param.base.needsBoxing with
  | false, false => return [.access .loadArgument index]
  | false, true => do
    let type ← Resolver.typeSpecToken param.typeBlob
    return [.access .loadArgument index, .instruction .box (.token type)]
  | true, true => do
    let type ← Resolver.typeSpecToken param.typeBlob
    return [.access .loadArgument index, .instruction .ldobj (.token type),
      .instruction .box (.token type)]
  | true, false => return [.access .loadArgument index, .instruction .ldindRef .none]

/-- The plan for the array of a method's arguments. -/
def argumentArrayPlan [Resolver σ] (m : MethodSig) : Ask σ (List Intent) :=
  arrayPlan RuntimeLibrary.objectType (m.params.zipIdx.map fun (param, index) =>
    argumentPlan (UInt16.ofNat (m.argumentIndex index)) param)

/-- The code fell through with `d'` values, and has appended these instructions. -/
structure Appended (intents : List Intent) (d' : Nat) (s t : Emission σ) : Prop where
  reachable : t.builder.reachable = true
  depth : t.builder.depth = d'
  adds : Adds intents s.builder t.builder
  plain : ∀ intent ∈ intents, intent.isPlain = true

/-- Entered by falling through with `d` values, the code goes through and falls through with
`d'` values, and appends what was planned with the tokens that the host gave it. -/
def Realizes (plan : Ask σ (List Intent)) (d d' : Nat) (x : Emit σ Unit) : Prop :=
  ∀ s, s.builder.reachable = true → s.builder.depth = d →
    ∃ intents t, x.run s = .ok () t ∧ plan.run s.host = .ok intents t.host ∧
      Appended intents d' s t

namespace Realizes

theorem congr (h : Realizes plan d d' x) (heq : ∀ host, plan'.run host = plan.run host) :
    Realizes plan' d d' x := by
  intro s hreachable hdepth
  obtain ⟨intents, t, hrun, hplan, happended⟩ := h s hreachable hdepth
  exact ⟨intents, t, hrun, (heq s.host).trans hplan, happended⟩

theorem pure : Realizes (Pure.pure []) d d (Pure.pure () : Emit σ Unit) := by
  intro s hreachable hdepth
  exact ⟨[], s, rfl, rfl, hreachable, hdepth, .of_code rfl, fun _ h => absurd h List.not_mem_nil⟩

/-- One instruction, in the form that `intent` leaves open. -/
theorem one {op : OpCode} {operand : Operand} {effect : StackEffect} {intent : Intent}
    (hmet : intent.IsMetBy (.instruction op operand effect)) (hplain : intent.isPlain = true)
    (hflow : op.flow.isTerminal = false) (hpops : effect.pops ≤ d)
    (hlimit : d - effect.pops + effect.pushes ≤ Builder.depthLimit) :
    Realizes (Pure.pure [intent]) d (d - effect.pops + effect.pushes)
      (build (Build.emit op effect operand) : Emit σ Unit) := by
  intro s hreachable hdepth
  subst hdepth
  refine ⟨[intent], _, run_emit_through hflow (fun _ => hpops) hlimit, rfl, hreachable, rfl,
    .of_push hmet rfl, ?_⟩
  intro other hother
  rw [List.mem_singleton.mp hother]
  exact hplain

theorem instruction {op : OpCode} {operand : Operand} {effect : StackEffect}
    (hfixed : Build.fixedEffect op operand.kind = .ok effect)
    (hflow : op.flow.isTerminal = false) (hpops : effect.pops ≤ d)
    (hlimit : d - effect.pops + effect.pushes ≤ Builder.depthLimit) :
    Realizes (Pure.pure [.instruction op operand]) d (d - effect.pops + effect.pushes)
      (build (Build.instruction op operand) : Emit σ Unit) := by
  rw [instruction_eq_emit hfixed]
  exact one (.instruction (Build.fixedEffect_ok.mp hfixed).1.symm) rfl hflow hpops hlimit

/-- A variable is loaded, in whichever form. -/
theorem loadArgument (index : UInt16) (hlimit : d + 1 ≤ Builder.depthLimit) :
    Realizes (Pure.pure [.access .loadArgument index]) d (d + 1)
      (build (Build.loadArgument index) : Emit σ Unit) := by
  have hforms : ∀ form ∈ [OpCode.ldarg0, .ldarg1, .ldarg2, .ldarg3, .ldargS, .ldarg],
      form.fixedEffect? = some ⟨0, 1⟩ ∧ form.flow.isTerminal = false := by
    decide
  have hform : (Access.loadArgument.forms.shortest index).1 ∈
      [OpCode.ldarg0, .ldarg1, .ldarg2, .ldarg3, .ldargS, .ldarg] := by
    unfold Build.VariableForms.shortest
    split
    case h_5 => split <;> simp [Access.forms]
    all_goals decide
  obtain ⟨heffect, hflow⟩ := hforms _ hform
  have hkind := (Access.loadArgument.shortest_names index 0).1
  have hfixed : Build.fixedEffect (Access.loadArgument.forms.shortest index).1
      (Access.loadArgument.forms.shortest index).2.kind = .ok ⟨0, 1⟩ :=
    Build.fixedEffect_ok.mpr ⟨hkind.symm, heffect⟩
  have hmet := @Intent.IsMetBy.access .loadArgument index ⟨0, 1⟩
  have hone := @one σ _ _ _ _ _ hmet rfl hflow (Nat.zero_le d) hlimit
  rw [← instruction_eq_emit hfixed] at hone
  exact hone

theorem bind (hx : Realizes plan d d' x) (hy : Realizes plan' d' d'' y) :
    Realizes (do return (← plan) ++ (← plan')) d d'' (x >>= fun _ => y) := by
  intro s hreachable hdepth
  obtain ⟨first, t, hrun, hplan, happended⟩ := hx s hreachable hdepth
  obtain ⟨second, u, hrun', hplan', happended'⟩ := hy t happended.reachable happended.depth
  refine ⟨first ++ second, u, run_bind_ok.mpr ⟨(), t, hrun, hrun'⟩, ?_, happended'.reachable,
    happended'.depth, happended.adds.append happended'.adds, ?_⟩
  · exact run_bind_ok.mpr ⟨first, _, hplan, run_bind_ok.mpr ⟨second, _, hplan', rfl⟩⟩
  · intro intent hintent
    rcases List.mem_append.mp hintent with h | h
    · exact happended.plain intent h
    · exact happended'.plain intent h

/-- A question that has an answer. -/
theorem ask {question : Ask σ Token} {f : Token → Emit σ Unit} {plan : Token → Ask σ (List Intent)}
    (hanswer : ∀ host, ∃ token host', question.run host = .ok token host')
    (hf : ∀ token, Realizes (plan token) d d' (f token)) :
    Realizes (question >>= plan) d d' (ask question >>= f) := by
  intro s hreachable hdepth
  obtain ⟨token, host, htoken⟩ := hanswer s.host
  obtain ⟨intents, t, hrun, hplan, happended⟩ := hf token ⟨host, s.builder⟩ hreachable hdepth
  refine ⟨intents, t, ?_, run_bind_ok.mpr ⟨token, host, htoken, hplan⟩, happended.reachable,
    happended.depth, happended.adds, happended.plain⟩
  refine run_bind_ok.mpr ⟨token, ⟨host, s.builder⟩, ?_, hrun⟩
  rw [run_ask, htoken]

/-- A row of elements, of which each goes through with one value more, is stored. -/
theorem row {loads : List (Ask σ (List Intent))} {elements : List (Emit σ Unit)}
    (hd : 1 ≤ d) (hlimit : d + 3 ≤ Builder.depthLimit)
    (h : List.Forall₂ (fun load element => Realizes load (d + 2) (d + 3) element) loads elements)
    (index : Nat) : Realizes (rowPlan index loads) d d (storeElements index elements) := by
  induction h generalizing index with
  | nil => exact .pure
  | @cons load element loads elements hfirst _ ih =>
    intro s hreachable hdepth
    subst hdepth
    have hready : Ready s := ⟨hreachable, hd, hlimit⟩
    obtain ⟨intents, t, hrun, hplan, happended⟩ :=
      hfirst (entering s index) hreachable hready.depth_entering
    obtain ⟨code, hcode, -⟩ := happended.adds
    have hpushes : Pushes element (entering s index) code t :=
      ⟨hrun, by rw [hready.depth_entering, happended.depth], happended.reachable, hcode⟩
    obtain ⟨more, u, hrest, hplan', happended'⟩ :=
      ih (index + 1) (storing t) happended.reachable (hready.depth_storing hpushes)
    have hdup : Adds [.instruction .dup .none] s.builder
        (s.builder.through .dup .none ⟨1, 2⟩) := .of_push (.instruction rfl) rfl
    have hindex : Adds [.instruction .ldcI4 (.int (Int32.ofNat index))]
        (s.builder.through .dup .none ⟨1, 2⟩) (entering s index).builder :=
      .of_push (.instruction rfl) rfl
    have hbehind : Adds [.instruction .stelemRef .none] t.builder (storing t).builder :=
      .of_push (.instruction rfl) rfl
    refine ⟨elementIntents index intents ++ more, u, ?_, ?_, happended'.reachable,
      happended'.depth, ?_, ?_⟩
    · exact (run_storeElements_pushes hready hpushes).trans hrest
    · exact run_bind_ok.mpr ⟨intents, _, hplan, run_bind_ok.mpr ⟨more, _, hplan', rfl⟩⟩
    · exact (((hdup.append hindex).append happended.adds).append hbehind).append
        happended'.adds
    · intro intent hintent
      simp only [elementIntents, List.cons_append, List.mem_cons, List.mem_append,
        List.not_mem_nil, or_false] at hintent
      rcases hintent with rfl | rfl | (h | rfl) | h
      · rfl
      · rfl
      · exact happended.plain intent h
      · rfl
      · exact happended'.plain intent h

section
variable [Resolver σ]

/-- An array for whose type the host has a token. -/
theorem array {elementType : String} {loads : List (Ask σ (List Intent))}
    {elements : List (Emit σ Unit)} (hlength : elements.length < 0x80000000)
    (hlimit : d + 4 ≤ Builder.depthLimit)
    (htype : ∀ host : σ, ∃ type host', (Resolver.typeToken elementType).run host = .ok type host')
    (h : List.Forall₂ (fun load element => Realizes load (d + 3) (d + 4) element) loads elements) :
    Realizes (arrayPlan elementType loads) d (d + 1) (array elementType elements) := by
  intro s hreachable hdepth
  subst hdepth
  obtain ⟨type, host, htype⟩ := htype s.host
  have hcount : Adds [.instruction .ldcI4 (.int (Int32.ofNat elements.length))] s.builder
      (s.builder.through .ldcI4 (.int (Int32.ofNat elements.length)) ⟨0, 1⟩) :=
    .of_push (.instruction rfl) rfl
  have hnew : Adds [.instruction .newarr (.token type)]
      (s.builder.through .ldcI4 (.int (Int32.ofNat elements.length)) ⟨0, 1⟩)
      (opened s elements.length type host).builder := .of_push (.instruction rfl) rfl
  obtain ⟨intents, t, hrun, hplan, happended⟩ :=
    row (d := s.builder.depth + 1) (Nat.le_add_left _ _) hlimit h 0
      (opened s elements.length type host) hreachable rfl
  refine ⟨_, t, (run_array hlimit hlength htype).trans hrun,
    run_bind_ok.mpr ⟨type, host, htype, run_bind_ok.mpr ⟨intents, _, hplan, rfl⟩⟩,
    happended.reachable, happended.depth, ?_, ?_⟩
  · rw [h.length_eq]
    exact (hcount.append hnew).append happended.adds
  · intro intent hintent
    simp only [List.mem_cons] at hintent
    rcases hintent with rfl | rfl | h
    · rfl
    · rfl
    · exact happended.plain intent h

/-- An argument as an object, with tokens for all blobs. -/
theorem loadArgumentAsObject (index : UInt16) (param : ParamSig)
    (htype : ∀ blob (host : σ),
      ∃ type host', (Resolver.typeSpecToken blob).run host = .ok type host')
    (hlimit : d + 1 ≤ Builder.depthLimit) :
    Realizes (argumentPlan index param) d (d + 1)
      (loadArgumentAsObject index param : Emit σ Unit) := by
  have hload : Realizes (Pure.pure [.access .loadArgument index]) d (d + 1)
      (build (Build.loadArgument index) : Emit σ Unit) := loadArgument index hlimit
  have hkept : ∀ {op operand}, Build.fixedEffect op operand.kind = .ok ⟨1, 1⟩ →
      op.flow.isTerminal = false →
      Realizes (Pure.pure [.instruction op operand]) (d + 1) (d + 1)
        (build (Build.instruction op operand) : Emit σ Unit) := fun hfixed hflow =>
    .instruction hfixed hflow (Nat.le_add_left _ _) hlimit
  have hbox : ∀ type, Realizes (Pure.pure [.instruction .box (.token type)]) (d + 1) (d + 1)
      (build (Build.withToken .box type) : Emit σ Unit) := fun type => hkept rfl rfl
  have hobj : ∀ type, Realizes (Pure.pure [.instruction .ldobj (.token type)]) (d + 1) (d + 1)
      (build (Build.withToken .ldobj type) : Emit σ Unit) := fun type => hkept rfl rfl
  have hind : Realizes (Pure.pure [.instruction .ldindRef .none]) (d + 1) (d + 1)
      (build (Build.plain .ldindRef) : Emit σ Unit) := hkept rfl rfl
  -- the plan of the steps is the plan of the argument, up to how it is put together
  have hasked : ∀ {rest : Token → List Intent}, ∀ host : σ,
      (do
        let type ← Resolver.typeSpecToken param.typeBlob
        return .access .loadArgument index :: rest type : Ask σ (List Intent)).run host =
      (do return (← Pure.pure [.access .loadArgument index]) ++
        (← Resolver.typeSpecToken param.typeBlob >>= fun type => Pure.pure (rest type)) :
          Ask σ (List Intent)).run host := by
    intro rest host
    simp only [EStateM.run_bind, EStateM.run_pure]
    cases (Resolver.typeSpecToken param.typeBlob).run host <;> rfl
  unfold Emit.loadArgumentAsObject argumentPlan
  cases hbyRef : param.isByRef <;> cases hboxed : param.base.needsBoxing <;>
    simp only [if_true, if_false, Bool.false_eq_true]
  · exact hload.bind .pure
  · exact (hload.bind (.ask (htype _) hbox)).congr hasked
  · exact hload.bind hind
  · exact (hload.bind (.ask (htype _) fun type => (hobj type).bind (hbox type))).congr hasked
end

end Realizes

/-! Slots. -/

section
variable {α β : Type} {f : α → Except Error β} {l : List α}

theorem mapM_ok {g : α → β} (h : ∀ a ∈ l, f a = .ok (g a)) : l.mapM f = .ok (l.map g) := by
  induction l with
  | nil => rfl
  | cons a l ih =>
    rw [List.mapM_cons, h a List.mem_cons_self, ih fun b hb => h b (List.mem_cons_of_mem _ hb)]
    rfl

theorem mapM_error {e : Error} (h : l.mapM f = .error e) : ∃ a ∈ l, f a = .error e := by
  induction l with
  | nil => cases h
  | cons a l ih =>
    rw [List.mapM_cons] at h
    rcases except_bind_error.mp h with h | ⟨b, -, h⟩
    · exact ⟨a, List.mem_cons_self, h⟩
    · rcases except_bind_error.mp h with h | ⟨bs, -, h⟩
      · obtain ⟨a', ha', h⟩ := ih h
        exact ⟨a', List.mem_cons_of_mem _ ha', h⟩
      · cases h

theorem exists_error_of_mem {a : α} {e : Error} (hmem : a ∈ l) (h : f a = .error e) :
    ∃ e', l.mapM f = .error e' := by
  induction hmem with
  | head l =>
    refine ⟨e, ?_⟩
    rw [List.mapM_cons, h]
    rfl
  | @tail b l _ ih =>
    obtain ⟨e', ih⟩ := ih
    cases hb : f b with
    | ok c =>
      refine ⟨e', ?_⟩
      rw [List.mapM_cons, hb, ih]
      rfl
    | error e'' =>
      refine ⟨e'', ?_⟩
      rw [List.mapM_cons, hb]
      rfl

end

variable {m : MethodSig}

theorem argumentSlots_ok
    (h : ∀ index < m.params.length, m.argumentIndex index < 0x10000) :
    argumentSlots m = .ok (m.params.zipIdx.map fun (param, index) =>
      (UInt16.ofNat (m.argumentIndex index), param)) := by
  refine mapM_ok fun (param, index) hmem => if_pos (h index ?_)
  have hlt := (List.mem_zipIdx hmem).2.1
  rwa [Nat.zero_add] at hlt

theorem argumentSlots_error {e : Error} (h : argumentSlots m = .error e) :
    ∃ index < m.params.length, e = .malformed (.argumentIndex index) ∧
      ¬m.argumentIndex index < 0x10000 := by
  obtain ⟨⟨param, index⟩, hmem, hslot⟩ := mapM_error h
  have hlt := (List.mem_zipIdx hmem).2.1
  rw [Nat.zero_add] at hlt
  dsimp only at hslot
  split at hslot
  · cases hslot
  · next hbig =>
    cases hslot
    exact ⟨index, hlt, rfl, hbig⟩

theorem exists_argumentSlots_error {index : Nat} (hlt : index < m.params.length)
    (hslot : ¬m.argumentIndex index < 0x10000) : ∃ e, argumentSlots m = .error e :=
  exists_error_of_mem (List.mk_mem_zipIdx_iff_getElem?.mpr (List.getElem?_eq_getElem hlt))
    (if_neg hslot)

/-- With a slot for each of them, the arguments make an array. -/
theorem realizes_argumentArray [Resolver σ] (htotal : Resolver.Total σ)
    (hslots : ∀ index < m.params.length, m.argumentIndex index < 0x10000)
    (hlimit : d + 4 ≤ Builder.depthLimit) :
    Realizes (argumentArrayPlan m) d (d + 1) (argumentArray m : Emit σ Unit) := by
  unfold argumentArray
  rw [argumentSlots_ok hslots]
  -- the slots bound the number of the arguments
  have hlength : m.params.length ≤ 0x10000 := by
    apply Nat.le_of_not_lt
    intro hlong
    have hslot := hslots 0x10000 hlong
    unfold MethodSig.argumentIndex at hslot
    omega
  refine Realizes.array ?_ hlimit (htotal.type _) ?_
  · simp only [List.length_map, List.length_zipIdx]
    omega
  · rw [List.map_map, List.forall₂_map_left_iff, List.forall₂_map_right_iff, List.forall₂_same]
    rintro ⟨param, index⟩ -
    exact .loadArgumentAsObject _ _ htotal.typeSpec hlimit

end Emit

namespace Instrument

open Emit

variable {σ : Type} [Resolver σ]

theorem run_emitArguments (s : Session σ) :
    emitArguments.run s = (emit (argumentArray s.target.signature)).run s := rfl

/-- The array of a method's arguments. With a token for every name and room on the stack, it
is made exactly if every argument has a slot, and the only other outcome is the error that
names an argument without one, with nothing changed. It is one value more, where control
falls through, and the bytes that it adds are read back as planned: the array, and each
argument between what selects its place and what stores it. -/
theorem emitArguments_layout {s : Session σ} (htotal : Resolver.Total σ)
    (hreachable : s.builder.reachable = true)
    (hdepth : s.builder.depth + 4 ≤ Builder.depthLimit) :
    ((∃ t, emitArguments.run s = .ok () t) ↔
      ∀ index < s.target.signature.params.length,
        s.target.signature.argumentIndex index < 0x10000) ∧
    (∀ e t, emitArguments.run s = .error e t → t = s ∧
      ∃ index < s.target.signature.params.length, e = .malformed (.argumentIndex index) ∧
        ¬s.target.signature.argumentIndex index < 0x10000) ∧
    ∀ t, emitArguments.run s = .ok () t →
      t = { s with emission := t.emission } ∧ t.builder.reachable = true ∧
      t.builder.depth = s.builder.depth + 1 ∧
      ∃ intents code, (argumentArrayPlan s.target.signature).run s.host = .ok intents t.host ∧
        t.builder.emitted = s.builder.emitted ++ code ∧
        ∀ place, Linking.linked place 0 t.builder.code.items.toList =
            Linking.linked place 0 s.builder.code.items.toList ++ code ∧
          ∃ stream, Stretch place s.builder.size code intents stream := by
  by_cases hslots : ∀ index < s.target.signature.params.length,
      s.target.signature.argumentIndex index < 0x10000
  · obtain ⟨intents, emission, hrun, hplan, happended⟩ :=
      realizes_argumentArray htotal hslots hdepth s.emission hreachable rfl
    have hok : emitArguments.run s = .ok () { s with emission } := by
      rw [run_emitArguments, run_emit, hrun]
    refine ⟨iff_of_true ⟨_, hok⟩ hslots, fun e t h => ?_, fun t h => ?_⟩
    · rw [hok] at h
      cases h
    · rw [hok] at h
      cases h
      obtain ⟨code, hemitted, hreads⟩ := happended.adds.reads happended.plain
      exact ⟨rfl, happended.reachable, happended.depth, intents, code, hplan, hemitted, hreads⟩
  · obtain ⟨index, hslot⟩ := Classical.not_forall.mp hslots
    obtain ⟨hlt, hbig⟩ := Classical.not_imp.mp hslot
    obtain ⟨e, hnone⟩ := exists_argumentSlots_error hlt hbig
    have herror : emitArguments.run s = .error e s := by
      rw [run_emitArguments, run_emit]
      unfold argumentArray
      rw [hnone]
      rfl
    refine ⟨iff_of_false ?_ hslots, fun e' t h => ?_, fun t h => ?_⟩
    · rintro ⟨t, h⟩
      rw [herror] at h
      cases h
    · rw [herror] at h
      cases h
      exact ⟨rfl, argumentSlots_error hnone⟩
    · rw [herror] at h
      cases h

/-- A method with a receiver that takes a number, a string, and one of each by reference. -/
def mixedMethod : StoredMethod :=
  { StoredMethod.empty with signature := [0x20, 0x04, 0x01, 0x08, 0x0E, 0x10, 0x08, 0x10, 0x0E] }

/-- The code that makes the array of its arguments. -/
def mixedIntents : List Intent :=
  [.instruction .ldcI4 (.int 4), .instruction .newarr (.token ⟨0x01000001⟩)] ++
    elementIntents 0 [.access .loadArgument 1, .instruction .box (.token ⟨0x1B000001⟩)] ++
    elementIntents 1 [.access .loadArgument 2] ++
    elementIntents 2 [.access .loadArgument 3, .instruction .ldobj (.token ⟨0x1B000001⟩),
      .instruction .box (.token ⟨0x1B000001⟩)] ++
    elementIntents 3 [.access .loadArgument 4, .instruction .ldindRef .none]

theorem emitArguments_layout_mixed :
    ∃ s t code stream, Session.start .default ⟨mixedMethod, .empty⟩ = .ok s ∧
      emitArguments.run s = .ok () t ∧ t.builder.reachable = true ∧ t.builder.depth = 1 ∧
      t.builder.emitted = s.builder.emitted ++ code ∧
      Stretch t.builder.place s.builder.size code mixedIntents stream := by
  have hruns : (Session.start .default ⟨mixedMethod, .empty⟩).toOption.map (fun s =>
      (emitArguments : Instrument StoredMethod Unit).succeeds s && s.builder.reachable &&
        s.builder.depth == 0 &&
        ((argumentArrayPlan s.target.signature).outcome s.host).toOption == some mixedIntents) =
      some true := by
    decide +kernel
  obtain ⟨s, hstart, hs⟩ := exists_ok_of_map hruns
  simp only [Bool.and_eq_true, beq_iff_eq] at hs
  obtain ⟨⟨⟨hok, hreachable⟩, hempty⟩, hplanned⟩ := hs
  obtain ⟨_, t, hrun⟩ := succeeds_iff.mp hok
  obtain ⟨-, -, hlayout⟩ := emitArguments_layout StoredMethod.total hreachable
    (by rw [hempty]; decide)
  obtain ⟨-, hr, hd, intents, code, hplan, hemitted, hreads⟩ := hlayout t hrun
  rw [outcome_of_ok hplan] at hplanned
  obtain ⟨-, stream, hstream⟩ := hreads t.builder.place
  rw [Option.some.inj hplanned] at hstream
  exact ⟨s, t, code, stream, hstart, hrun, hr, by rw [hd, hempty], hemitted, hstream⟩

end Instrument

end CilInstrument
