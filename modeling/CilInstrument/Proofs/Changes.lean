import CilInstrument.Proofs.Actions

/- What runs do to the builder. `Change` lists all that one elementary step can do to a
   builder, refused or not, with the conditions under which it does it. What every
   change keeps, every run keeps (`Action.run_keeps`), so an invariant of the builder is
   one case split over the changes. The second half says how far the single actions
   reach: which of them leave the labels alone, and which the code. -/
namespace CilInstrument

/-- All that a step on a protected region can do to a builder. -/
inductive RegionChange (b : Builder) : Builder → Prop
  | nothing : RegionChange b b
  | startTry (hempty : b.reachable = true → b.depth = 0) (hsize : b.size < 0x100000000) :
    RegionChange b { b with regions := .inTry b.size :: b.regions }
  | endTry {start : Nat} {outer : List Region} (hregions : b.regions = .inTry start :: outer)
    (hr : b.reachable = false) (hsize : b.size < 0x100000000) :
    RegionChange b { b with regions := .afterTry start b.size :: outer }
  | startHandler {start stop : Nat} {outer : List Region}
    (hregions : b.regions = .afterTry start stop :: outer) (hsize : b.size < 0x100000000) :
    RegionChange b (Builder.settle
      { b with regions := .inHandler start stop b.size :: outer, reachable := true } 1)
  | endHandler {start stop handler : Nat} {outer : List Region} {exceptionClass : Token}
    (hregions : b.regions = .inHandler start stop handler :: outer) (hr : b.reachable = false)
    (hsize : b.size < 0x100000000) :
    RegionChange b {
      b with
      regions := outer
      exceptions := b.exceptions.add
        (Build.regionClause start stop handler b.size exceptionClass) }

/-- All that one elementary step can do to a builder. -/
inductive Change (b : Builder) : Builder → Prop
  | nothing : Change b b
  /-- An instruction or a jump that was refused. -/
  | refused {d m : Nat} (hle : b.maxDepth ≤ m) (hlimit : m ≤ max b.maxDepth Builder.depthLimit) :
    Change b { b with depth := d, maxDepth := m }
  | instruction {op : OpCode} {effect : StackEffect} {operand : Operand}
    (haffords : op.Affords effect) (hkind : operand.kind = op.operand)
    (hpops : b.reachable = true → effect.pops ≤ b.depth)
    (hlimit : b.depth - effect.pops + effect.pushes ≤ Builder.depthLimit) :
    Change b ((b.settle (b.depth - effect.pops + effect.pushes)).append
      (.instruction op operand effect) (!op.flow.isTerminal))
  | createLabel : Change b b.addLabel
  | jump {op : OpCode} {label : Nat} (hop : op.operand = .branchTarget)
    (hlt : label < b.labels.size) (hpops : b.reachable = true → op.branchPops ≤ b.depth)
    (hlimit : b.landing op ≤ Builder.depthLimit) (hjoins : b.Joins label (b.landing op)) :
    Change b (((b.settle (b.landing op)).meet label).append (.jump op label)
      (!op.flow.isTerminal))
  | place {label : Nat} (hlt : label < b.labels.size) (hplace : b.place label = none)
    (hjoins : b.Joins label b.depth) (hsize : b.size < 0x100000000) :
    Change b ((b.resume label).put label b.size)
  /-- A label that was refused because the code is too long. -/
  | resume {label : Nat} (hlt : label < b.labels.size) (hjoins : b.Joins label b.depth)
    (hsize : 0x100000000 ≤ b.size) : Change b (b.resume label)
  | region {b' : Builder} (h : RegionChange b b') : Change b b'
  | splice {ownCode : List UInt8} (hnone : b.spliceOffset = none)
    (hempty : b.reachable = true → b.depth = 0) (hsize : b.size < 0x100000000) :
    Change b {
      b with
      spliceOffset := some b.size
      code := b.code.push (.splice ownCode)
      depth := 0
      reachable := false }

/-- A change that is not about regions leaves regions and clauses alone. -/
theorem Change.regions {b b' : Builder} (h : Change b b') :
    RegionChange b b' ∨ b'.regions = b.regions ∧ b'.exceptions = b.exceptions := by
  cases h with
  | jump _ _ _ _ _ =>
    refine .inr ⟨?_, ?_⟩
    · show Builder.regions (Builder.meet _ _) = _
      rw [Builder.meet_eq]
      rfl
    · show Builder.exceptions (Builder.meet _ _) = _
      rw [Builder.meet_eq]
      rfl
  | place _ _ _ _ =>
    refine .inr ⟨?_, ?_⟩
    · show Builder.regions (Builder.resume _ _) = _
      rw [Builder.resume_eq]
    · show Builder.exceptions (Builder.resume _ _) = _
      rw [Builder.resume_eq]
  | resume _ _ _ =>
    rw [Builder.resume_eq]
    exact .inr ⟨rfl, rfl⟩
  | region h => exact .inl h
  | _ => exact .inr ⟨rfl, rfl⟩

namespace Emit

open Step

variable {σ α : Type}

/-- A step without the host does to the builder what it does if it goes through, or what
it does if it is refused. -/
theorem builder_after_build {R : Builder → Builder → Prop} {x : Build α} {s : Emission σ}
    (hok : ∀ a b', x.run s.builder = .ok a b' → R s.builder b')
    (herror : ∀ e b', x.run s.builder = .error e b' → R s.builder b') :
    R s.builder ((build x).after s).builder := by
  rw [after_build]
  show R s.builder (x.after s.builder)
  cases hrun : x.run s.builder with
  | ok a b' =>
    rw [after_of_ok hrun]
    exact hok a b' hrun
  | error e b' =>
    rw [after_of_error hrun]
    exact herror e b' hrun

theorem Appending.change {x : Emit σ α} (h : Appending x) (s : Emission σ) :
    Change s.builder (x.after s).builder := by
  cases h with
  | ask question =>
    rw [builder_after_ask]
    exact .nothing
  | emit haffords hkind =>
    refine builder_after_build (fun _ b' hrun => ?_) fun e b' hrun => ?_
    · obtain ⟨hpops, hlimit, rfl⟩ := Build.emit_ok.mp hrun
      exact .instruction haffords hkind hpops hlimit
    · obtain ⟨-, d, rfl⟩ := Build.emit_error hrun
      exact .refused (Nat.le_refl _) (Nat.le_max_left _ _)

theorem Marking.change {x : Emit σ α} (h : Marking x) (s : Emission σ) :
    RegionChange s.builder (x.after s).builder := by
  cases h with
  | ask question =>
    rw [builder_after_ask]
    exact .nothing
  | startTry =>
    refine builder_after_build (fun _ b' hrun => ?_) fun e b' hrun => ?_
    · obtain ⟨hempty, hsize, rfl⟩ := Build.startTry_ok.mp hrun
      exact .startTry hempty hsize
    · rw [Build.startTry_error hrun]
      exact .nothing
  | endTry =>
    refine builder_after_build (fun _ b' hrun => ?_) fun e b' hrun => ?_
    · obtain ⟨start, outer, hregions, hr, hsize, rfl⟩ := Build.endTry_ok.mp hrun
      exact .endTry hregions hr hsize
    · rw [Build.endTry_error hrun]
      exact .nothing
  | startHandler =>
    refine builder_after_build (fun _ b' hrun => ?_) fun e b' hrun => ?_
    · obtain ⟨start, stop, outer, hregions, hsize, rfl⟩ := Build.startHandler_ok.mp hrun
      exact .startHandler hregions hsize
    · rw [Build.startHandler_error hrun]
      exact .nothing
  | checkHandlerEnd =>
    rw [after_build]
    show RegionChange s.builder (Build.checkHandlerEnd.after s.builder)
    rw [Build.after_checkHandlerEnd]
    exact .nothing
  | endHandler exceptionClass =>
    refine builder_after_build (fun _ b' hrun => ?_) fun e b' hrun => ?_
    · obtain ⟨start, stop, handler, outer, hregions, hr, hsize, rfl⟩ := Build.endHandler_ok hrun
      exact .endHandler hregions hr hsize
    · rw [Build.endHandler_error hrun]
      exact .nothing

/-- An elementary step does nothing but what `Change` lists. -/
theorem Elementary.change {x : Emit σ α} (h : Elementary x) (s : Emission σ) :
    Change s.builder (x.after s).builder := by
  cases h with
  | appending h => exact h.change s
  | marking h => exact .region (h.change s)
  | createLabel =>
    rw [after_build]
    exact .createLabel
  | jumpTo op label =>
    refine builder_after_build (fun _ b' hrun => ?_) fun e b' hrun => ?_
    · obtain ⟨hop, hlt, hpops, hlimit, hjoins, rfl⟩ := Build.jumpTo_ok.mp hrun
      exact .jump hop hlt hpops hlimit hjoins
    · -- the stack was checked before the label: its depth may be the new one
      obtain ⟨-, d, m, hle, hlimit, rfl⟩ := Build.jumpTo_error hrun
      exact .refused hle hlimit
  | placeLabel label =>
    refine builder_after_build (fun _ b' hrun => ?_) fun e b' hrun => ?_
    · obtain ⟨hlt, hplace, hjoins, hsize, rfl⟩ := Build.placeLabel_ok.mp hrun
      exact .place hlt hplace hjoins hsize
    · rcases Build.placeLabel_error hrun with rfl | ⟨hlt, hsize, hjoins, rfl⟩
      · exact .nothing
      · exact .resume hlt hjoins hsize
  | splice ownCode =>
    refine builder_after_build (fun _ b' hrun => ?_) fun e b' hrun => ?_
    · obtain ⟨hnone, hempty, hsize, rfl⟩ := Build.splice_ok.mp hrun
      exact .splice hnone hempty hsize
    · rw [Build.splice_error hrun]
      exact .nothing

end Emit

namespace Action

open Step Emit

variable {σ : Type} [Resolver σ]

/-- What every change does, every action does. -/
theorem perform_respects {R : Builder → Builder → Prop} (hrefl : ∀ b, R b b)
    (htrans : ∀ {b b' b''}, R b b' → R b' b'' → R b b'') (hchange : ∀ {b b'}, Change b b' → R b b')
    (a : Action σ) (s : Emission σ) : R s.builder (a.perform.after s).builder :=
  (perform_elementary a).after (R := fun s t : Emission σ => R s.builder t.builder)
    (fun s => hrefl s.builder) (fun hst htu => htrans hst htu)
    (fun _ _ hx s => hchange (hx.change s)) s

/-- What every change does, every run does. -/
theorem run_respects {R : Builder → Builder → Prop} (hrefl : ∀ b, R b b)
    (htrans : ∀ {b b' b''}, R b b' → R b' b'' → R b b'') (hchange : ∀ {b b'}, Change b b' → R b b')
    (acts : List (Action σ)) (s : Emission σ) : R s.builder (run acts s).builder := by
  induction acts generalizing s with
  | nil => exact hrefl s.builder
  | cons a rest ih =>
    exact htrans (perform_respects hrefl htrans hchange a s) (ih (a.perform.after s))

/-- What every change keeps, every run keeps. -/
theorem run_keeps {P : Builder → Prop} (hchange : ∀ {b b'}, Change b b' → P b → P b')
    (acts : List (Action σ)) {s : Emission σ} (h : P s.builder) : P (run acts s).builder :=
  run_respects (R := fun b b' => P b → P b') (fun _ h => h) (fun hb hb' h => hb' (hb h)) hchange
    acts s h

end Action

/-! Actions that are not about labels or the method's own code. -/

/-- The code grew by instructions that do not jump; labels and splicing were left alone. -/
structure Extended (b b' : Builder) : Prop where
  items : ∃ more : List CodeItem,
    (∀ item ∈ more, ∃ op operand effect, item = .instruction op operand effect) ∧
    b'.code.items.toList = b.code.items.toList ++ more
  labels : b'.labels = b.labels
  spliceOffset : b'.spliceOffset = b.spliceOffset

namespace Extended

/-- Whatever else changed, code, labels and splicing did not. -/
theorem of_eq {b b' : Builder} (hcode : b'.code = b.code) (hlabels : b'.labels = b.labels)
    (hsplice : b'.spliceOffset = b.spliceOffset) : Extended b b' where
  items := ⟨[], fun _ h => absurd h List.not_mem_nil, by rw [hcode, List.append_nil]⟩
  labels := hlabels
  spliceOffset := hsplice

theorem refl (b : Builder) : Extended b b := of_eq rfl rfl rfl

theorem trans {b b' b'' : Builder} (h : Extended b b') (h' : Extended b' b'') :
    Extended b b'' where
  items := by
    obtain ⟨more, hmore, hitems⟩ := h.items
    obtain ⟨more', hmore', hitems'⟩ := h'.items
    refine ⟨more ++ more', ?_, by rw [hitems', hitems, List.append_assoc]⟩
    intro item hitem
    rcases List.mem_append.mp hitem with hitem | hitem
    · exact hmore item hitem
    · exact hmore' item hitem
  labels := h'.labels.trans h.labels
  spliceOffset := h'.spliceOffset.trans h.spliceOffset

theorem place {b b' : Builder} (h : Extended b b') (label : Nat) :
    b'.place label = b.place label := by
  unfold Builder.place
  rw [h.labels]

theorem expected {b b' : Builder} (h : Extended b b') (label : Nat) :
    b'.expected label = b.expected label := by
  unfold Builder.expected
  rw [h.labels]

end Extended

theorem RegionChange.extended {b b' : Builder} (h : RegionChange b b') : Extended b b' := by
  cases h <;> exact .of_eq rfl rfl rfl

namespace Emit

open Step

variable {σ α : Type}

theorem Appending.extended {x : Emit σ α} (h : Appending x) (s : Emission σ) :
    Extended s.builder (x.after s).builder := by
  cases h with
  | ask question =>
    rw [builder_after_ask]
    exact .refl _
  | @emit op effect operand _ _ =>
    refine builder_after_build (fun _ b' hrun => ?_) fun e b' hrun => ?_
    · obtain ⟨-, -, rfl⟩ := Build.emit_ok.mp hrun
      refine ⟨⟨[.instruction op operand effect], ?_, Array.toList_push⟩, rfl, rfl⟩
      intro item hitem
      exact ⟨op, operand, effect, List.mem_singleton.mp hitem⟩
    · obtain ⟨-, d, rfl⟩ := Build.emit_error hrun
      exact .of_eq rfl rfl rfl

theorem Marking.extended {x : Emit σ α} (h : Marking x) (s : Emission σ) :
    Extended s.builder (x.after s).builder :=
  (h.change s).extended

end Emit

namespace Action

open Step Emit

variable {σ : Type} [Resolver σ]

/-- Actions other than jumps, labels and splicing only add instructions. -/
theorem perform_extended {a : Action σ} (h : a.appends = true ∨ a.marks = true) (s : Emission σ) :
    Extended s.builder (a.perform.after s).builder := by
  rcases h with h | h
  · exact (perform_appending h).after (R := fun s t : Emission σ => Extended s.builder t.builder)
      (fun t => .refl t.builder) .trans (fun _ _ hx t => hx.extended t) s
  · exact (perform_marking h).after (R := fun s t : Emission σ => Extended s.builder t.builder)
      (fun t => .refl t.builder) .trans (fun _ _ hx t => hx.extended t) s

/-- What a single action comes to: whether it goes through, and the builder behind it. -/
inductive Outcome (b : Builder) : Action σ → Bool → Builder → Prop
  | extended {a : Action σ} {ok : Bool} {b' : Builder} (hkind : a.appends = true ∨ a.marks = true)
    (h : Extended b b') : Outcome b a ok b'
  | createLabel : Outcome b .createLabel true b.addLabel
  | jump {op : OpCode} {b' : Builder}
    (h : (Build.jumpTo op b.labels.size).run b.addLabel = .ok () b') : Outcome b (.jump op) true b'
  | jumpRefused {op : OpCode} {d m : Nat} :
    Outcome b (.jump op) false { b.addLabel with depth := d, maxDepth := m }
  | jumpTo {op : OpCode} {label : Nat} {b' : Builder}
    (h : (Build.jumpTo op label).run b = .ok () b') : Outcome b (.jumpTo op label) true b'
  | jumpToRefused {op : OpCode} {label d m : Nat} :
    Outcome b (.jumpTo op label) false { b with depth := d, maxDepth := m }
  | placeLabel {label : Nat} {b' : Builder}
    (h : (Build.placeLabel label).run b = .ok () b') : Outcome b (.placeLabel label) true b'
  | placeRefused {label : Nat} : Outcome b (.placeLabel label) false b
  | placeTooFar {label : Nat} (hlt : label < b.labels.size) (hjoins : b.Joins label b.depth)
    (hsize : 0x100000000 ≤ b.size) : Outcome b (.placeLabel label) false (b.resume label)
  | splice {ownCode : List UInt8} (hnone : b.spliceOffset = none)
    (hempty : b.reachable = true → b.depth = 0) (hsize : b.size < 0x100000000) :
    Outcome b (.splice ownCode) true {
      b with
      spliceOffset := some b.size
      code := b.code.push (.splice ownCode)
      depth := 0
      reachable := false }
  | spliceRefused {ownCode : List UInt8} : Outcome b (.splice ownCode) false b

theorem outcome_of_run {a : Action σ} {x : Build Unit} {s : Emission σ}
    (ha : a.perform = Emit.build x) (hok : ∀ b', x.run s.builder = .ok () b' →
      Outcome s.builder a true b')
    (herror : ∀ e b', x.run s.builder = .error e b' → Outcome s.builder a false b') :
    Outcome s.builder a (a.perform.succeeds s) (a.perform.after s).builder := by
  rw [ha, after_build, Step.succeeds, run_build]
  show Outcome s.builder a _ (x.after s.builder)
  cases hrun : x.run s.builder with
  | ok u b' =>
    rw [after_of_ok hrun]
    exact hok b' hrun
  | error e b' =>
    rw [after_of_error hrun]
    exact herror e b' hrun

theorem outcome (a : Action σ) (s : Emission σ) :
    Outcome s.builder a (a.perform.succeeds s) (a.perform.after s).builder := by
  by_cases hkind : a.appends = true ∨ a.marks = true
  · exact .extended hkind (perform_extended hkind s)
  rw [not_or] at hkind
  cases a with
  | createLabel =>
    show Outcome _ _ ((discard (build Build.createLabel) : Emit σ Unit).succeeds s)
      ((discard (build Build.createLabel) : Emit σ Unit).after s).builder
    rw [succeeds_discard, after_discard, after_build]
    exact .createLabel
  | jump op =>
    show Outcome _ _ ((discard (build (Build.jump op)) : Emit σ Unit).succeeds s)
      ((discard (build (Build.jump op)) : Emit σ Unit).after s).builder
    rw [succeeds_discard, after_discard, after_build, Step.succeeds, run_build, Build.run_jump]
    show Outcome _ _ _ ((Build.jump op).after s.builder)
    unfold Step.after
    rw [Build.run_jump]
    cases hrun : (Build.jumpTo op s.builder.labels.size).run s.builder.addLabel with
    | ok u b' => exact .jump hrun
    | error e b' =>
      obtain ⟨-, d, m, -, -, rfl⟩ := Build.jumpTo_error hrun
      exact .jumpRefused
  | jumpTo op label =>
    refine outcome_of_run rfl (fun b' hrun => .jumpTo hrun) fun e b' hrun => ?_
    obtain ⟨-, d, m, -, -, rfl⟩ := Build.jumpTo_error hrun
    exact .jumpToRefused
  | placeLabel label =>
    refine outcome_of_run rfl (fun b' hrun => .placeLabel hrun) fun e b' hrun => ?_
    rcases Build.placeLabel_error hrun with rfl | ⟨hlt, hsize, hjoins, rfl⟩
    · exact .placeRefused
    · exact .placeTooFar hlt hjoins hsize
  | splice ownCode =>
    refine outcome_of_run rfl (fun b' hrun => ?_) fun e b' hrun => ?_
    · obtain ⟨hnone, hempty, hsize, rfl⟩ := Build.splice_ok.mp hrun
      exact .splice hnone hempty hsize
    · rw [Build.splice_error hrun]
      exact .spliceRefused
  | startTry | endTry | startHandler | endHandler => exact absurd rfl hkind.2
  | _ => exact absurd rfl hkind.1

end Action

end CilInstrument
