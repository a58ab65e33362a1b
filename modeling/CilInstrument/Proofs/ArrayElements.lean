import CilInstrument.Proofs.Calls
import CilInstrument.Proofs.EnclosedCode
import CilInstrument.Proofs.StoredMethod

/- Arrays. The code of an element is the caller's, and may be anything: it may jump, stop in
   dead code, or swallow errors of its own. The array is told of it by two observations
   alone, the depth and whether control falls through. As long as no depth comes to the
   limit, these two decide (`run_storeElements_cons`): an array is made if each element in
   turn puts one value onto the stack (`Emit.Stores`), and otherwise its making stops at the
   first one that does not (`Emit.Offends`). -/
namespace CilInstrument

open Step

namespace Builder

/-- The builder behind an instruction that falls through. -/
def through (b : Builder) (op : OpCode) (operand : Operand) (effect : StackEffect) : Builder := {
  b with
  code := b.code.push (.instruction op operand effect)
  depth := b.depth - effect.pops + effect.pushes
  maxDepth := max b.maxDepth (b.depth - effect.pops + effect.pushes) }

section
variable (b : Builder) (op : OpCode) (operand : Operand) (effect : StackEffect)

@[simp] theorem depth_through :
    (b.through op operand effect).depth = b.depth - effect.pops + effect.pushes := rfl

@[simp] theorem items_through :
    (b.through op operand effect).code.items.toList =
      b.code.items.toList ++ [.instruction op operand effect] :=
  Array.toList_push

end

/-- The builder with a new array of so many elements on the stack. -/
def opened (b : Builder) (length : Nat) (type : Token) : Builder :=
  (b.through .ldcI4 (.int (Int32.ofNat length)) ⟨0, 1⟩).through .newarr (.token type) ⟨1, 1⟩

/-- The builder at an element, behind the array and the index that it is to be stored at. -/
def entering (b : Builder) (index : Nat) : Builder :=
  (b.through .dup .none ⟨1, 2⟩).through .ldcI4 (.int (Int32.ofNat index)) ⟨0, 1⟩

/-- The builder behind an element that was stored. -/
def storing (b : Builder) : Builder := b.through .stelemRef .none ⟨3, 0⟩

end Builder

/-! The code of an array. -/

/-- An element between what selects its place and what stores it. -/
def elementItems (index : Nat) (code : List CodeItem) : List CodeItem :=
  .instruction .dup .none ⟨1, 2⟩ :: .instruction .ldcI4 (.int (Int32.ofNat index)) ⟨0, 1⟩ ::
    code ++ [.instruction .stelemRef .none ⟨3, 0⟩]

/-- The elements from `index` on. -/
def rowItems (index : Nat) (codes : List (List CodeItem)) : List CodeItem :=
  (codes.zipIdx index).flatMap fun (code, index) => elementItems index code

/-- An array of the elements with the given code. -/
def arrayItems (type : Token) (codes : List (List CodeItem)) : List CodeItem :=
  .instruction .ldcI4 (.int (Int32.ofNat codes.length)) ⟨0, 1⟩ ::
    .instruction .newarr (.token type) ⟨1, 1⟩ :: rowItems 0 codes

theorem rowItems_cons (index : Nat) (code : List CodeItem) (codes : List (List CodeItem)) :
    rowItems index (code :: codes) = elementItems index code ++ rowItems (index + 1) codes := rfl

namespace Emit

variable {σ : Type} {s t u : Emission σ} {element : Emit σ Unit}
  {rest elements : List (Emit σ Unit)} {index : Nat} {e : Error}

/-- The emission with the array for `elements` on the stack. -/
def opened (s : Emission σ) (length : Nat) (type : Token) (host : σ) : Emission σ :=
  ⟨host, s.builder.opened length type⟩

/-- The emission at an element. -/
def entering (s : Emission σ) (index : Nat) : Emission σ :=
  { s with builder := s.builder.entering index }

/-- The emission behind an element. -/
def storing (s : Emission σ) : Emission σ := { s with builder := s.builder.storing }

/-- The element goes through with one value more than before, and control falls through. -/
structure Pushes (element : Emit σ Unit) (s : Emission σ) (code : List CodeItem)
    (t : Emission σ) : Prop where
  run : element.run s = .ok () t
  depth : t.builder.depth = s.builder.depth + 1
  reachable : t.builder.reachable = true
  items : t.builder.code.items.toList = s.builder.code.items.toList ++ code

/-- Each of the elements in turn puts one value onto the stack, which is stored. -/
inductive Stores : (index : Nat) → List (Emit σ Unit) → Emission σ → List (List CodeItem) →
    Emission σ → Prop
  | nil {index : Nat} {s : Emission σ} : Stores index [] s [] s
  | cons {index : Nat} {element : Emit σ Unit} {rest : List (Emit σ Unit)} {s t u : Emission σ}
    {code : List CodeItem} {codes : List (List CodeItem)}
    (hfirst : Pushes element (entering s index) code t)
    (hrest : Stores (index + 1) rest (storing t) codes u) :
    Stores index (element :: rest) s (code :: codes) u

/-- The element fails, or goes through with another number of values or without falling
through; `t` is what it leaves. -/
inductive Offends (element : Emit σ Unit) (index : Nat) (s : Emission σ) :
    Error → Emission σ → Prop
  | fails {e : Error} {t : Emission σ} (h : element.run s = .error e t) :
    Offends element index s e t
  | unbalanced {t : Emission σ} (h : element.run s = .ok () t)
    (hone : ¬(t.builder.depth = s.builder.depth + 1 ∧ t.builder.reachable = true)) :
    Offends element index s (.stackImbalance (.arrayElement index
      ((t.builder.stackDepth : Int) - s.builder.stackDepth))) t

/-- An instruction that falls through, where the stack allows it. -/
theorem run_emit_through {op : OpCode} {operand : Operand} {effect : StackEffect}
    (hflow : op.flow.isTerminal = false)
    (hpops : s.builder.reachable = true → effect.pops ≤ s.builder.depth)
    (hlimit : s.builder.depth - effect.pops + effect.pushes ≤ Builder.depthLimit) :
    (build (Build.emit op effect operand)).run s =
      .ok () { s with builder := s.builder.through op operand effect } := by
  have hrun : (Build.emit op effect operand).run s.builder =
      .ok () (s.builder.through op operand effect) :=
    Build.run_emit_through hflow operand hpops hlimit
  rw [run_build, hrun]

theorem instruction_eq_emit {op : OpCode} {operand : Operand} {effect : StackEffect}
    (hfixed : Build.fixedEffect op operand.kind = .ok effect) :
    Build.instruction op operand = Build.emit op effect operand := by
  unfold Build.instruction
  rw [hfixed]
  rfl

theorem run_instruction_through {op : OpCode} {operand : Operand} {effect : StackEffect}
    (hfixed : Build.fixedEffect op operand.kind = .ok effect)
    (hflow : op.flow.isTerminal = false)
    (hpops : s.builder.reachable = true → effect.pops ≤ s.builder.depth)
    (hlimit : s.builder.depth - effect.pops + effect.pushes ≤ Builder.depthLimit) :
    (build (Build.instruction op operand)).run s =
      .ok () { s with builder := s.builder.through op operand effect } := by
  rw [instruction_eq_emit hfixed]
  exact run_emit_through hflow hpops hlimit

/-- The code leaves no depth beyond the limit if it found none. -/
def Within (x : Emit σ Unit) : Prop :=
  ∀ ⦃s t⦄, s.builder.depth ≤ Builder.depthLimit → x.run s = .ok () t →
    t.builder.depth ≤ Builder.depthLimit

/-- Where the row can go on. The array is on the stack, and there is room for it once more,
an index and a value. -/
structure Ready (s : Emission σ) : Prop where
  reachable : s.builder.reachable = true
  pops : 1 ≤ s.builder.depth
  limit : s.builder.depth + 3 ≤ Builder.depthLimit

namespace Ready

theorem depth_entering (h : Ready s) :
    (entering s index).builder.depth = s.builder.depth + 2 := by
  have hpops := h.pops
  simp only [entering, Builder.entering, Builder.depth_through]
  omega

theorem stackDepth_entering (h : Ready s) :
    (entering s index).builder.stackDepth = s.builder.depth + 2 := by
  have hlimit := h.limit
  rw [Builder.stackDepth, h.depth_entering]
  omega

theorem entering_le (h : Ready s) (index : Nat) :
    (entering s index).builder.depth ≤ Builder.depthLimit := by
  have hlimit := h.limit
  rw [h.depth_entering]
  omega

/-- What is observed of an element is what it did. The limit is observed for every depth
beyond it, so where the value comes up to the limit the element must not. -/
theorem observed (h : Ready s)
    (hfits : s.builder.depth + 3 = Builder.depthLimit → t.builder.depth ≤ Builder.depthLimit) :
    t.builder.stackDepth = ((entering s index).builder.stackDepth + 1) % 0x10000 ↔
      t.builder.depth = (entering s index).builder.depth + 1 := by
  have hlimit := h.limit
  unfold Builder.depthLimit at hlimit hfits
  rw [h.stackDepth_entering, h.depth_entering, Builder.stackDepth, Builder.depthLimit]
  omega

theorem depth_storing (h : Ready s) {code : List CodeItem}
    (hpushes : Pushes element (entering s index) code t) :
    (storing t).builder.depth = s.builder.depth := by
  have hdepth := hpushes.depth
  rw [h.depth_entering] at hdepth
  simp only [Emit.storing, Builder.storing, Builder.depth_through]
  omega

theorem storing (h : Ready s) {code : List CodeItem}
    (hpushes : Pushes element (entering s index) code t) : Ready (storing t) where
  reachable := hpushes.reachable
  pops := by
    rw [h.depth_storing hpushes]
    exact h.pops
  limit := by
    rw [h.depth_storing hpushes]
    exact h.limit

end Ready

theorem run_stackDepth (s : Emission σ) :
    (build Build.stackDepth).run s = .ok s.builder.stackDepth s := rfl

theorem run_isReachable (s : Emission σ) :
    (build Build.isReachable).run s = .ok s.builder.reachable s := rfl

/-- What is done for one element: it is entered, and what it leaves decides. -/
theorem run_storeElements_cons (h : Ready s)
    (hfits : s.builder.depth + 3 = Builder.depthLimit → ∀ t,
      element.run (entering s index) = .ok () t → t.builder.depth ≤ Builder.depthLimit) :
    (storeElements index (element :: rest)).run s =
      match element.run (entering s index) with
      | .error e t => .error e t
      | .ok _ t =>
        if t.builder.depth = (entering s index).builder.depth + 1 ∧ t.builder.reachable = true then
          (storeElements (index + 1) rest).run (storing t)
        else
          .error (.stackImbalance (.arrayElement index
            ((t.builder.stackDepth : Int) - (entering s index).builder.stackDepth))) t := by
  have hpops := h.pops
  have hlimit := h.limit
  have hdup : (build (Build.plain .dup)).run s =
      .ok () { s with builder := s.builder.through .dup .none ⟨1, 2⟩ } :=
    run_instruction_through rfl rfl (fun _ => hpops) (by
      show s.builder.depth - 1 + 2 ≤ _
      omega)
  have hindex : (build (Build.loadInt (Int32.ofNat index))).run
      { s with builder := s.builder.through .dup .none ⟨1, 2⟩ } = .ok () (entering s index) :=
    run_instruction_through rfl rfl (fun _ => Nat.zero_le _) (by
      simp only [Builder.depth_through]
      omega)
  rw [storeElements]
  rw [EStateM.run_bind, hdup]
  dsimp only
  rw [EStateM.run_bind, hindex]
  dsimp only
  rw [EStateM.run_bind, run_stackDepth]
  dsimp only
  rw [EStateM.run_bind]
  cases hrun : element.run (entering s index) with
  | error e t => rfl
  | ok _ t =>
    dsimp only
    rw [EStateM.run_bind, run_stackDepth]
    dsimp only
    rw [EStateM.run_bind, run_isReachable]
    dsimp only
    have hobserved : (t.builder.stackDepth ≠ ((entering s index).builder.stackDepth + 1) % 0x10000 ∨
        (!t.builder.reachable) = true) ↔
        ¬(t.builder.depth = (entering s index).builder.depth + 1 ∧ t.builder.reachable = true) := by
      rw [ne_eq, h.observed fun hfull => hfits hfull t hrun, Bool.not_eq_true',
        ← Bool.not_eq_true, Classical.not_and_iff_not_or_not]
    by_cases hone : t.builder.depth = (entering s index).builder.depth + 1 ∧
        t.builder.reachable = true
    · have hstelem : (build (Build.plain .stelemRef)).run t = .ok () (storing t) := by
        have hdepth := hone.1
        rw [h.depth_entering] at hdepth
        refine run_instruction_through rfl rfl (fun _ => ?_) ?_
        · show 3 ≤ t.builder.depth
          omega
        · show t.builder.depth - 3 + 0 ≤ _
          omega
      rw [if_neg fun hoff => hobserved.mp hoff hone, if_pos hone, EStateM.run_bind, hstelem]
    · rw [if_pos (hobserved.mpr hone), if_neg hone]
      rfl

/-! The two outcomes of an element. -/

theorem run_storeElements_pushes {code : List CodeItem} (h : Ready s)
    (hpushes : Pushes element (entering s index) code t) :
    (storeElements index (element :: rest)).run s =
      (storeElements (index + 1) rest).run (storing t) := by
  have hdepth := hpushes.depth
  rw [h.depth_entering] at hdepth
  rw [run_storeElements_cons h, hpushes.run]
  · exact if_pos ⟨hpushes.depth, hpushes.reachable⟩
  · intro hfull t' hrun
    cases hpushes.run.symm.trans hrun
    exact Nat.le_of_eq (hdepth.trans hfull)

theorem run_storeElements_offends (h : Ready s)
    (hwithin : s.builder.depth + 3 = Builder.depthLimit → Within element)
    (hoffends : Offends element index (entering s index) e t) :
    (storeElements index (element :: rest)).run s = .error e t := by
  rw [run_storeElements_cons h fun hfull _ hrun => hwithin hfull (h.entering_le index) hrun]
  cases hoffends with
  | fails hfail => rw [show element.run (entering s index) = _ from hfail]
  | unbalanced hok hone =>
    rw [show element.run (entering s index) = _ from hok]
    exact if_neg hone

/-- Code that is built goes through as it should or offends. -/
theorem Builds.pushes_or_offends (h : Builds element) (index : Nat) (s : Emission σ) :
    (∃ code t, Pushes element s code t) ∨ ∃ e t, Offends element index s e t := by
  cases hrun : element.run s with
  | error e t => exact .inr ⟨e, t, .fails hrun⟩
  | ok _ t =>
    by_cases hone : t.builder.depth = s.builder.depth + 1 ∧ t.builder.reachable = true
    · obtain ⟨code, hcode⟩ := (h.grows hrun).items
      exact .inl ⟨code, t, hrun, hone.1, hone.2, hcode.symm⟩
    · exact .inr ⟨_, t, .unbalanced hrun hone⟩

/-! Rows. -/

/-- Behind elements that were stored, the row goes on with the next ones. -/
theorem Stores.run {codes : List (List CodeItem)} (h : Ready s)
    (hstores : Stores index elements s codes t) (behind : List (Emit σ Unit)) :
    (storeElements index (elements ++ behind)).run s =
        (storeElements (index + elements.length) behind).run t ∧
      Ready t ∧ t.builder.depth = s.builder.depth := by
  induction hstores with
  | nil => exact ⟨rfl, h, rfl⟩
  | @cons index element rest s t u code codes hpushes _ ih =>
    obtain ⟨hrun, hready, hdepth⟩ := ih (h.storing hpushes)
    refine ⟨?_, hready, hdepth.trans (h.depth_storing hpushes)⟩
    rw [List.cons_append, run_storeElements_pushes h hpushes, hrun, List.length_cons,
      Nat.add_comm rest.length, Nat.add_assoc]

/-- Either all elements of a row are stored in turn, or there is a first one that offends. -/
theorem stores_or_offends (helements : ∀ element ∈ elements, Builds element) (index : Nat)
    (s : Emission σ) :
    (∃ codes t, Stores index elements s codes t) ∨
      ∃ before element behind codes u e t, elements = before ++ element :: behind ∧
        Stores index before s codes u ∧
        Offends element (index + before.length) (entering u (index + before.length)) e t := by
  induction elements generalizing index s with
  | nil => exact .inl ⟨[], s, .nil⟩
  | cons element rest ih =>
    rcases (helements element List.mem_cons_self).pushes_or_offends index (entering s index) with
      ⟨code, t, hpushes⟩ | ⟨e, t, hoffends⟩
    · rcases ih (fun x hx => helements x (List.mem_cons_of_mem _ hx)) (index + 1) (storing t) with
        ⟨codes, u, hstores⟩ | ⟨before, offending, behind, codes, u, e, v, rfl, hstores, hoffends⟩
      · exact .inl ⟨_, u, .cons hpushes hstores⟩
      · refine .inr ⟨element :: before, offending, behind, code :: codes, u, e, v, rfl,
          .cons hpushes hstores, ?_⟩
        rwa [List.length_cons, Nat.add_comm before.length, ← Nat.add_assoc]
    · exact .inr ⟨[], element, rest, [], s, e, t, rfl, .nil, hoffends⟩

section
variable (h : Ready s) (helements : ∀ element ∈ elements, Builds element)
  (hwithin : s.builder.depth + 3 = Builder.depthLimit → ∀ element ∈ elements, Within element)
include h

theorem Stores.run_ok {codes : List (List CodeItem)}
    (hstores : Stores index elements s codes t) :
    (storeElements index elements).run s = .ok () t := by
  obtain ⟨hrun, -⟩ := hstores.run h []
  rwa [List.append_nil] at hrun

include hwithin

/-- A row fails at the first element that offends. -/
theorem Offends.run_error {before behind : List (Emit σ Unit)} {codes : List (List CodeItem)}
    (heq : elements = before ++ element :: behind) (hstores : Stores index before s codes u)
    (hoffends : Offends element (index + before.length)
      (entering u (index + before.length)) e t) :
    (storeElements index elements).run s = .error e t := by
  subst heq
  obtain ⟨hrun, hready, hdepth⟩ := hstores.run h (element :: behind)
  rw [hrun]
  refine run_storeElements_offends hready (fun hfull => ?_) hoffends
  rw [hdepth] at hfull
  exact hwithin hfull element (List.mem_append_right _ List.mem_cons_self)

include helements

/-- A row goes through exactly if each of its elements in turn puts one value onto the
stack. -/
theorem storeElements_ok :
    (storeElements index elements).run s = .ok () t ↔
      ∃ codes, Stores index elements s codes t := by
  constructor
  · intro hrun
    rcases stores_or_offends helements index s with
      ⟨codes, u, hstores⟩ | ⟨_, _, _, _, _, _, _, heq, hstores, hoffends⟩
    · cases hrun.symm.trans (hstores.run_ok h)
      exact ⟨codes, hstores⟩
    · cases hrun.symm.trans (hoffends.run_error h hwithin heq hstores)
  · rintro ⟨_, hstores⟩
    exact hstores.run_ok h

/-- A row fails exactly if each of some elements in turn puts one value onto the stack, and
the next one offends; nothing is done for those behind it. -/
theorem storeElements_error :
    (storeElements index elements).run s = .error e t ↔
      ∃ before element behind codes u, elements = before ++ element :: behind ∧
        Stores index before s codes u ∧
        Offends element (index + before.length) (entering u (index + before.length)) e t := by
  constructor
  · intro hrun
    rcases stores_or_offends helements index s with
      ⟨_, _, hstores⟩ | ⟨before, element, behind, codes, u, _, _, heq, hstores, hoffends⟩
    · cases hrun.symm.trans (hstores.run_ok h)
    · cases hrun.symm.trans (hoffends.run_error h hwithin heq hstores)
      exact ⟨before, element, behind, codes, u, heq, hstores, hoffends⟩
  · rintro ⟨_, _, _, _, _, heq, hstores, hoffends⟩
    exact hoffends.run_error h hwithin heq hstores

end

/-- What the code of a row is. -/
theorem Stores.outcome {codes : List (List CodeItem)}
    (hstores : Stores index elements s codes t) :
    codes.length = elements.length ∧
      t.builder.code.items.toList = s.builder.code.items.toList ++ rowItems index codes := by
  induction hstores with
  | nil => exact ⟨rfl, (List.append_nil _).symm⟩
  | @cons index element rest s t u code codes hpushes _ ih =>
    obtain ⟨hlength, hitems⟩ := ih
    have hentered : (entering s index).builder.code.items.toList =
        s.builder.code.items.toList ++ [.instruction .dup .none ⟨1, 2⟩,
          .instruction .ldcI4 (.int (Int32.ofNat index)) ⟨0, 1⟩] := by
      show (Builder.entering _ _).code.items.toList = _
      simp [Builder.entering]
    have hstored : (Emit.storing t).builder.code.items.toList =
        t.builder.code.items.toList ++ [.instruction .stelemRef .none ⟨3, 0⟩] :=
      Builder.items_through _ _ _ _
    refine ⟨congrArg (· + 1) hlength, ?_⟩
    rw [hitems, hstored, hpushes.items, hentered, rowItems_cons, elementItems]
    simp only [List.append_assoc, List.cons_append, List.nil_append]

/-! Arrays. -/

/-- Behind a new array its elements can be stored. -/
theorem ready_opened (hreachable : s.builder.reachable = true)
    (hdepth : s.builder.depth + 4 ≤ Builder.depthLimit) (length : Nat) (type : Token) (host : σ) :
    Ready (opened s length type host) where
  reachable := hreachable
  pops := Nat.le_add_left _ _
  limit := by
    simp only [opened, Builder.opened, Builder.depth_through]
    omega

/-- An array for whose type there is a token is made, and then its elements are stored. -/
theorem run_array [Resolver σ] {elementType : String} {type : Token} {host : σ}
    (hdepth : s.builder.depth + 4 ≤ Builder.depthLimit) (hlength : elements.length < 0x80000000)
    (htype : (Resolver.typeToken elementType).run s.host = .ok type host) :
    (array elementType elements).run s =
      (storeElements 0 elements).run (opened s elements.length type host) := by
  have hcount : (build (Build.loadInt (Int32.ofNat elements.length))).run s =
      .ok () ⟨s.host, s.builder.through .ldcI4 (.int (Int32.ofNat elements.length)) ⟨0, 1⟩⟩ :=
    run_instruction_through rfl rfl (fun _ => Nat.zero_le _) (by
      show s.builder.depth - 0 + 1 ≤ _
      omega)
  have hnew : (withType .newarr elementType).run
      ⟨s.host, s.builder.through .ldcI4 (.int (Int32.ofNat elements.length)) ⟨0, 1⟩⟩ =
      .ok () (opened s elements.length type host) := by
    unfold withType
    rw [EStateM.run_bind, run_ask, htype]
    exact run_instruction_through rfl rfl (fun _ => Nat.le_add_left _ _) (by
      simp only [Builder.depth_through]
      omega)
  unfold array
  simp only [Nat.not_le_of_lt hlength, if_false]
  rw [EStateM.run_bind, hcount]
  dsimp only
  rw [EStateM.run_bind, hnew]

/-- What the code of an array is, and where the builder stands behind it. -/
theorem Stores.array {codes : List (List CodeItem)} {type : Token} {host : σ}
    (hreachable : s.builder.reachable = true)
    (hdepth : s.builder.depth + 4 ≤ Builder.depthLimit)
    (hstores : Stores 0 elements (opened s elements.length type host) codes t) :
    codes.length = elements.length ∧ t.builder.reachable = true ∧
      t.builder.depth = s.builder.depth + 1 ∧
      t.builder.code.items.toList = s.builder.code.items.toList ++ arrayItems type codes := by
  obtain ⟨-, hready, hdepth'⟩ :=
    hstores.run (ready_opened hreachable hdepth elements.length type host) []
  obtain ⟨hlength, hitems⟩ := hstores.outcome
  have hopened : (opened s elements.length type host).builder.code.items.toList =
      s.builder.code.items.toList ++
        [.instruction .ldcI4 (.int (Int32.ofNat elements.length)) ⟨0, 1⟩,
          .instruction .newarr (.token type) ⟨1, 1⟩] := by
    show (Builder.opened _ _ _).code.items.toList = _
    simp [Builder.opened]
  refine ⟨hlength, hready.reachable, hdepth', ?_⟩
  rw [hitems, hopened, arrayItems, hlength, List.append_assoc]
  rfl

/-- A jump to the place right behind it, and a value. -/
def branchingElement : Emit σ Unit := do
  let next ← build (Build.jump .br)
  build (Build.placeLabel next)
  build (Build.plain .ldnull)

theorem branchingElement_builds : Builds (branchingElement : Emit σ Unit) :=
  .of_madeOf (.bind (jump_elementary .br) fun next =>
    .bind (.base (.placeLabel next)) fun _ =>
      (instruction_appending .ldnull .none).mono fun _ _ h => .appending h)

end Emit

namespace Instrument

open Emit

variable {σ : Type} [Resolver σ]

/-- The array of objects. With a token for the type of the elements, room on the stack and
elements that build code in any way, it is made exactly if each element in turn goes through
and falls through with one value more than it found; then the code is that of the elements,
each between what selects its place and what stores it, behind what makes the array. Otherwise
it fails at the first element that does not, with the element's own error or because the
stack is not balanced, and the state is the one that this element left. -/
theorem emitObjects_elements {s : Session σ} {elements : List (Emit σ Unit)} {type : Token}
    {host : σ} (hreachable : s.builder.reachable = true)
    (hdepth : s.builder.depth + 4 ≤ Builder.depthLimit)
    (hlength : elements.length < 0x80000000)
    (htype : (Resolver.typeToken RuntimeLibrary.objectType).run s.host = .ok type host)
    (helements : ∀ element ∈ elements, Builds element)
    (hwithin : s.builder.depth + 4 = Builder.depthLimit → ∀ element ∈ elements, Within element) :
    (∀ t, (emitObjects elements).run s = .ok () t ↔
      ∃ codes emission, t = { s with emission } ∧
        Stores 0 elements (opened s.emission elements.length type host) codes emission) ∧
    (∀ codes emission,
      Stores 0 elements (opened s.emission elements.length type host) codes emission →
      codes.length = elements.length ∧ emission.builder.reachable = true ∧
        emission.builder.depth = s.builder.depth + 1 ∧
        emission.builder.code.items.toList =
          s.builder.code.items.toList ++ arrayItems type codes) ∧
    ∀ e t, (emitObjects elements).run s = .error e t ↔
      ∃ before element behind codes u emission, elements = before ++ element :: behind ∧
        Stores 0 before (opened s.emission elements.length type host) codes u ∧
        Offends element before.length (entering u before.length) e emission ∧
        t = { s with emission } := by
  have hready : Ready (opened s.emission elements.length type host) :=
    ready_opened hreachable hdepth _ _ _
  have hrun : (array RuntimeLibrary.objectType elements).run s.emission = _ :=
    run_array hdepth hlength htype
  refine ⟨fun t => ?_, fun codes emission hstores => hstores.array hreachable hdepth,
    fun e t => ?_⟩
  · rw [emitObjects, run_emit, hrun]
    constructor
    · intro h
      split at h
      · next hstored =>
        cases h
        obtain ⟨codes, hstores⟩ := (storeElements_ok hready helements hwithin).mp hstored
        exact ⟨codes, _, rfl, hstores⟩
      · cases h
    · rintro ⟨codes, emission, rfl, hstores⟩
      rw [(storeElements_ok hready helements hwithin).mpr ⟨codes, hstores⟩]
  · rw [emitObjects, run_emit, hrun]
    constructor
    · intro h
      split at h
      · cases h
      · next hstored =>
        cases h
        obtain ⟨before, element, behind, codes, u, heq, hstores, hoffends⟩ :=
          (storeElements_error hready helements hwithin).mp hstored
        rw [Nat.zero_add] at hoffends
        exact ⟨before, element, behind, codes, u, _, heq, hstores, hoffends, rfl⟩
    · rintro ⟨before, element, behind, codes, u, emission, heq, hstores, hoffends, rfl⟩
      rw [← Nat.zero_add before.length] at hoffends
      rw [(storeElements_error hready helements hwithin).mpr
        ⟨before, element, behind, codes, u, heq, hstores, hoffends⟩]

/-- An array of two elements that jump. -/
theorem emitObjects_elements_branching :
    ∃ s t codes, Session.start .default ⟨StoredMethod.empty, .empty⟩ = .ok s ∧
      (emitObjects [branchingElement, branchingElement]).run s = .ok () t ∧
      codes.length = 2 ∧ t.builder.reachable = true ∧ t.builder.depth = 1 ∧
      t.builder.code.items.toList =
        s.builder.code.items.toList ++ arrayItems ⟨0x01000001⟩ codes := by
  have hruns : (Session.start .default ⟨StoredMethod.empty, .empty⟩).toOption.map (fun s =>
      (emitObjects [branchingElement, branchingElement]).succeeds s && s.builder.reachable &&
        s.builder.depth == 0) = some true := by
    decide +kernel
  obtain ⟨s, hstart, hs⟩ := exists_ok_of_map hruns
  simp only [Bool.and_eq_true, beq_iff_eq] at hs
  obtain ⟨⟨hok, hreachable⟩, hempty⟩ := hs
  obtain ⟨_, t, hrun⟩ := succeeds_iff.mp hok
  have htype : (Resolver.typeToken RuntimeLibrary.objectType).run s.host =
      .ok ⟨0x01000001⟩ s.host := rfl
  have hbuilds : ∀ element ∈ [branchingElement, branchingElement],
      Builds (σ := StoredMethod) element := by
    intro element helement
    have heq : element = branchingElement := by simpa using helement
    exact heq ▸ branchingElement_builds
  have hfull : s.builder.depth + 4 ≠ Builder.depthLimit := by
    rw [hempty]
    decide
  obtain ⟨hoks, hcodes, -⟩ := emitObjects_elements hreachable
    (by rw [hempty]; decide) (by decide) htype hbuilds fun h => absurd h hfull
  obtain ⟨codes, emission, rfl, hstores⟩ := (hoks _).mp hrun
  obtain ⟨hlength, hr, hd, hitems⟩ := hcodes codes emission hstores
  exact ⟨s, _, codes, hstart, hrun, hlength, hr, by rw [hempty] at hd; exact hd, hitems⟩

end Instrument

end CilInstrument
