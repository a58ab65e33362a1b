import CilInstrument.Proofs.ClauseNesting
import CilInstrument.Proofs.StackDepth

/- Which handlers control can only enter through an exception. The builder's flag says
   whether anything comes to the end of the code, and errs on one side only: what is not
   flagged is not live (`Guarded.dead`), where live is what the first entry, a handler, a
   label or a live entry in front leads to. So nothing falls through at the end of a try
   block or of a handler, since both are refused in flagged code, and nothing falls into a
   handler that was opened in code that is not flagged. The step that opens a handler does
   not look at the flag (`startHandler_succeeds_iff`); a handler that is opened in flagged
   code is recorded as any other, also where a label stands that is jumped to. -/
namespace CilInstrument

/-- What control may come to, whatever the jumps: any label counts. -/
inductive Live (b : Builder) (handlers : List Nat) : Nat → Prop
  | entry : Live b handlers 0
  | handler {p : Nat} : p ∈ handlers → Live b handlers p
  | label {l p : Nat} : b.place l = some p → Live b handlers p
  | fall {p : Nat} {item : CodeItem} : Live b handlers p → b.code.ItemAt p item →
    item.falls = true → Live b handlers (p + item.size)

/-- Control that comes somewhere along a path finds live code there. -/
theorem Reaches.live {b : Builder} {handlers : List Nat} {p : Nat} {depth : Int}
    (h : Reaches b handlers p depth) : Live b handlers p := by
  induction h with
  | entry => exact .entry
  | handler hp => exact .handler hp
  | fall _ hitem hfalls ih => exact .fall ih hitem hfalls
  | jump _ _ hplace _ => exact .label hplace

/-- A live entry that ends at `p` falls through to it. -/
def FallsTo (b : Builder) (handlers : List Nat) (p : Nat) : Prop :=
  ∃ q item, Live b handlers q ∧ b.code.ItemAt q item ∧ item.falls = true ∧ q + item.size = p

/-- What the code of a change leads to: it goes on at the end of the code, it goes on as
before, or there is one more entry. -/
inductive Flows (b b' : Builder) : Prop
  | entered (hcode : b'.code = b.code)
    (hplaces : ∀ l p, b'.place l = some p → b.place l = some p ∨ p = b.size)
    (hreachable : b'.reachable = true)
  | still (hcode : b'.code = b.code) (hplaces : ∀ l, b'.place l = b.place l)
    (hreachable : b'.reachable = b.reachable)
  | grown {item : CodeItem} (hcode : b'.code = b.code.push item)
    (hplaces : ∀ l, b'.place l = b.place l)
    (hreachable : b'.reachable = (b.reachable && item.falls))

theorem RegionChange.flows {b b' : Builder} (h : RegionChange b b') : Flows b b' := by
  cases h with
  | startHandler _ _ => exact .entered rfl (fun _ _ hp => .inl hp) rfl
  | _ => exact .still rfl (fun _ => rfl) rfl

theorem Change.flows {b b' : Builder} (h : Change b b') : Flows b b' := by
  have hplaces := h.places
  have hresume : ∀ label, (b.resume label).reachable = true := by
    intro label
    rw [Builder.resume_eq]
  cases h with
  | instruction _ _ _ _ => exact .grown rfl (fun _ => rfl) rfl
  | createLabel => exact .still rfl b.place_addLabel rfl
  | @jump op label _ _ _ _ _ =>
    have hreachable : ((b.settle (b.landing op)).meet label).reachable = b.reachable := by
      rw [Builder.meet_eq]
      rfl
    have hcode : ((b.settle (b.landing op)).meet label).code = b.code := Builder.code_meet _ _
    refine @Flows.grown _ _ (.jump op label) ?_ ?_ ?_
    · show Code.push (Builder.meet _ _).code _ = _
      rw [hcode]
    · exact fun l => Builder.place_meet (b.settle (b.landing op)) label l
    · show ((Builder.meet _ _).reachable && _) = _
      rw [hreachable]
      rfl
  | place _ _ _ _ =>
    exact .entered (Builder.code_resume _ _) (fun l => (hplaces l).2) (hresume _)
  | resume _ _ _ =>
    exact .entered (Builder.code_resume _ _) (fun l => (hplaces l).2) (hresume _)
  | region h => exact h.flows
  | splice _ _ _ => exact .grown rfl (fun _ => rfl) (Bool.and_false _).symm
  | _ => exact .still rfl (fun _ => rfl) rfl

/-! The flag. -/

namespace Flows

variable {b b' : Builder} {handlers : List Nat}

theorem place_of_lt (h : Flows b b') {l p : Nat} (hl : b'.place l = some p) (hp : p < b.size) :
    b.place l = some p := by
  cases h with
  | entered _ hplaces _ =>
    rcases hplaces l p hl with hl | rfl
    · exact hl
    · exact absurd hp (Nat.lt_irrefl _)
  | still _ hplaces _ | grown _ hplaces _ => rwa [hplaces] at hl

theorem itemAt_of_lt (h : Flows b b') {p : Nat} {item : CodeItem}
    (hitem : b'.code.ItemAt p item) (hp : p < b.size) : b.code.ItemAt p item := by
  cases h with
  | entered hcode _ _ | still hcode _ _ => rwa [hcode] at hitem
  | grown hcode _ _ =>
    rw [hcode] at hitem
    rcases Code.itemAt_push.mp hitem with hitem | ⟨rfl, -⟩
    · exact hitem
    · exact absurd hp (Nat.lt_irrefl _)

theorem size_le (h : Flows b b') : b.size ≤ b'.size := by
  unfold Builder.size
  cases h with
  | entered hcode _ _ | still hcode _ _ => rw [hcode]
  | grown hcode _ _ =>
    rw [hcode]
    exact Nat.le_add_right _ _

/-- Nothing new is live in front of the old end of the code. -/
theorem live_of_lt (h : Flows b b') {p : Nat} (hlive : Live b' handlers p) (hp : p < b.size) :
    Live b handlers p := by
  induction hlive with
  | entry => exact .entry
  | handler hh => exact .handler hh
  | label hl => exact .label (h.place_of_lt hl hp)
  | fall _ hitem hfalls ih =>
    have hq := Nat.lt_of_le_of_lt (Nat.le_add_right _ _) hp
    exact .fall (ih hq) (h.itemAt_of_lt hitem hq) hfalls

/-- Nothing new falls to a position in front of the old end of the code or at it. -/
theorem fallsTo_of_le (h : Flows b b') (hpos : ∀ item ∈ b'.code.items.toList, 0 < item.size)
    {p : Nat} (hfalls : FallsTo b' handlers p) (hp : p ≤ b.size) : FallsTo b handlers p := by
  obtain ⟨q, item, hlive, hitem, hf, rfl⟩ := hfalls
  have hsize := hpos item hitem.mem
  have hq : q < b.size := by omega
  exact ⟨q, item, h.live_of_lt hlive hq, h.itemAt_of_lt hitem hq, hf, rfl⟩

end Flows

/-- What is live is an entry, a handler, a label, or what something falls to. -/
theorem live_iff {b : Builder} {handlers : List Nat} {p : Nat} :
    Live b handlers p ↔
      p = 0 ∨ p ∈ handlers ∨ (∃ l, b.place l = some p) ∨ FallsTo b handlers p := by
  constructor
  · intro h
    cases h with
    | entry => exact .inl rfl
    | handler hh => exact .inr (.inl hh)
    | label hl => exact .inr (.inr (.inl ⟨_, hl⟩))
    | fall hlive hitem hf => exact .inr (.inr (.inr ⟨_, _, hlive, hitem, hf, rfl⟩))
  · rintro (rfl | hh | ⟨l, hl⟩ | ⟨q, item, hlive, hitem, hf, rfl⟩)
    · exact .entry
    · exact .handler hh
    · exact .label hl
    · exact .fall hlive hitem hf

/-- The old end of the code is live only if it was, unless control goes on there. -/
theorem Flows.live_size {b b' : Builder} {handlers : List Nat} (h : Flows b b')
    (hr : b'.reachable = false) (hpos : ∀ item ∈ b'.code.items.toList, 0 < item.size)
    (hlive : Live b' handlers b.size) : Live b handlers b.size := by
  have hplaces : ∀ l, b'.place l = b.place l := by
    cases h with
    | entered _ _ hreachable =>
      rw [hr] at hreachable
      cases hreachable
    | still _ hplaces _ | grown _ hplaces _ => exact hplaces
  rcases live_iff.mp hlive with hzero | hh | ⟨l, hl⟩ | hfalls
  · exact live_iff.mpr (.inl hzero)
  · exact .handler hh
  · rw [hplaces] at hl
    exact .label hl
  · exact live_iff.mpr (.inr (.inr (.inr (h.fallsTo_of_le hpos hfalls (Nat.le_refl _)))))

/-- What is not flagged is not live. -/
structure Guarded (b : Builder) (handlers : List Nat) : Prop where
  size_pos : ∀ item ∈ b.code.items.toList, 0 < item.size
  label_le : ∀ l p, b.place l = some p → p ≤ b.size
  handler_le : ∀ p ∈ handlers, p ≤ b.size
  dead : b.reachable = false → ¬Live b handlers b.size

namespace Guarded

variable {b b' : Builder} {handlers : List Nat}

theorem start (exceptions : ExceptionTable) : Guarded (.start exceptions) [] where
  size_pos := fun _ h => absurd h List.not_mem_nil
  label_le := by
    intro l p h
    cases h
  handler_le := fun _ h => absurd h List.not_mem_nil
  dead := by
    intro h
    cases h

theorem flows (hb : Guarded b handlers) (h : Flows b b')
    (hpos : ∀ item ∈ b'.code.items.toList, 0 < item.size) : Guarded b' handlers := by
  have hsize := h.size_le
  refine ⟨hpos, ?_, fun p hp => Nat.le_trans (hb.handler_le p hp) hsize, ?_⟩
  · intro l p hl
    cases h with
    | entered _ hplaces _ =>
      rcases hplaces l p hl with hl | rfl
      · exact Nat.le_trans (hb.label_le l p hl) hsize
      · exact hsize
    | still _ hplaces _ | grown _ hplaces _ =>
      rw [hplaces] at hl
      exact Nat.le_trans (hb.label_le l p hl) hsize
  · intro hr hlive
    have hold : Live b' handlers b.size → Live b handlers b.size := h.live_size hr hpos
    cases h with
    | entered _ _ hreachable =>
      rw [hr] at hreachable
      cases hreachable
    | still hcode _ hreachable =>
      have hsame : b'.size = b.size := by
        unfold Builder.size
        rw [hcode]
      rw [hsame] at hlive
      exact hb.dead (by rw [← hreachable, hr]) (hold hlive)
    | @grown item hcode hplaces hreachable =>
      have hgrown : b'.size = b.size + item.size := by
        unfold Builder.size
        rw [hcode]
        rfl
      have hitem : b'.code.ItemAt b.size item := by
        rw [hcode]
        exact Code.itemAt_push.mpr (.inr ⟨rfl, rfl⟩)
      have hitempos := hpos item hitem.mem
      -- nothing but the new entry leads to its end
      rcases live_iff.mp hlive with hzero | hh | ⟨l, hl⟩ | ⟨q, item', hlive', hitem', hf, hend⟩
      · omega
      · have := hb.handler_le _ hh
        omega
      · rw [hplaces] at hl
        have := hb.label_le l _ hl
        omega
      · rw [hcode] at hitem'
        rcases Code.itemAt_push.mp hitem' with hitem' | ⟨rfl, rfl⟩
        · have hbound : q + item'.size ≤ b.size := hitem'.bound
          omega
        · rw [hr, hf, Bool.and_true] at hreachable
          exact hb.dead hreachable.symm (hold hlive')

/-- A handler that starts where control goes on changes nothing. -/
theorem addHandler (hb : Guarded b handlers) (hr : b.reachable = true) :
    Guarded b (handlers ++ [b.size]) where
  size_pos := hb.size_pos
  label_le := hb.label_le
  handler_le := by
    intro p hp
    rcases List.mem_append.mp hp with hp | hp
    · exact hb.handler_le p hp
    · rw [List.mem_singleton.mp hp]
  dead := by
    intro h
    rw [hr] at h
    cases h

end Guarded

/-- Nothing live falls through to the position, which lies in the code or at its end. -/
structure Sealed (b : Builder) (handlers : List Nat) (p : Nat) : Prop where
  le : p ≤ b.size
  closed : ¬FallsTo b handlers p

namespace Sealed

variable {b b' : Builder} {handlers : List Nat} {p : Nat}

/-- Nothing falls to the end of code that is not flagged. -/
theorem here (hb : Guarded b handlers) (hr : b.reachable = false) : Sealed b handlers b.size :=
  ⟨Nat.le_refl _, fun hfalls => hb.dead hr (live_iff.mpr (.inr (.inr (.inr hfalls))))⟩

theorem flows (hp : Sealed b handlers p) (h : Flows b b')
    (hpos : ∀ item ∈ b'.code.items.toList, 0 < item.size) : Sealed b' handlers p :=
  ⟨Nat.le_trans hp.le h.size_le, fun hfalls => hp.closed (h.fallsTo_of_le hpos hfalls hp.le)⟩

/-- What a new handler leads to lies behind all that is sealed. -/
theorem addHandler (hp : Sealed b handlers p)
    (hpos : ∀ item ∈ b.code.items.toList, 0 < item.size) :
    Sealed b (handlers ++ [b.size]) p := by
  have hlive : ∀ {q}, Live b (handlers ++ [b.size]) q → q < b.size → Live b handlers q := by
    intro q hlive hq
    induction hlive with
    | entry => exact .entry
    | handler hh =>
      rcases List.mem_append.mp hh with hh | hh
      · exact .handler hh
      · rw [List.mem_singleton.mp hh] at hq
        exact absurd hq (Nat.lt_irrefl _)
    | label hl => exact .label hl
    | fall _ hitem hf ih => exact .fall (ih (Nat.lt_of_le_of_lt (Nat.le_add_right _ _) hq)) hitem hf
  refine ⟨hp.le, ?_⟩
  rintro ⟨q, item, hq, hitem, hf, hend⟩
  have hsize := hpos item hitem.mem
  have hle := hp.le
  exact hp.closed ⟨q, item, hlive hq (by omega), hitem, hf, hend⟩

end Sealed

/-- No path of the code falls through to the position. -/
def Unfallen (b : Builder) (handlers : List Nat) (p : Nat) : Prop :=
  ∀ q depth item, Reaches b handlers q depth → b.code.ItemAt q item → item.falls = true →
    q + item.size ≠ p

/-- Control comes to the position with the exception alone on the stack, or by a jump. -/
def Entered (b : Builder) (handlers : List Nat) (p : Nat) : Prop :=
  ∀ depth, Reaches b handlers p depth → depth = 1 ∨
    ∃ q depth' op label, Reaches b handlers q depth' ∧ b.code.ItemAt q (.jump op label) ∧
      b.place label = some p

namespace Sealed

variable {b : Builder} {handlers : List Nat} {p : Nat}

theorem unfallen (h : Sealed b handlers p) : Unfallen b handlers p :=
  fun q _ item hreaches hitem hfalls hend => h.closed ⟨q, item, hreaches.live, hitem, hfalls, hend⟩

theorem entered (h : Sealed b handlers p) (hne : p ≠ 0) : Entered b handlers p := by
  intro depth hreaches
  generalize hp : p = p' at hreaches
  cases hreaches with
  | entry => exact absurd hp hne
  | handler _ => exact .inl rfl
  | fall hq hitem hfalls => exact absurd hp.symm (h.unfallen _ _ _ hq hitem hfalls)
  | jump hq hitem hplace => exact .inr ⟨_, _, _, _, hq, hitem, hp ▸ hplace⟩

end Sealed

/-! Regions and clauses. -/

/-- Where the try block of a region ended, if it did. -/
def Region.tryEnd? : Region → Option Nat
  | .inTry _ => none
  | .afterTry _ stop | .inHandler _ stop _ => some stop

/-- What holds of the regions and clauses of every builder. -/
structure Recorded (b : Builder) (handlers : List Nat) : Prop where
  guarded : Guarded b handlers
  nested : Nested b
  tryEnd : ∀ r ∈ b.regions, ∀ p, r.tryEnd? = some p → Sealed b handlers p
  clause : ∀ c ∈ b.exceptions.added.toList,
    Sealed b handlers c.tryRange.stop ∧ Sealed b handlers c.handlerRange.stop

namespace Recorded

variable {b b' : Builder} {handlers : List Nat}

theorem start (inherited : List ExceptionClause) :
    Recorded (.start ⟨inherited, #[]⟩) [] where
  guarded := .start _
  nested := .start inherited
  tryEnd := fun _ h => absurd h List.not_mem_nil
  clause := fun _ h => absurd h List.not_mem_nil

/-- The try block that ends was left, and the other ends of try blocks stay. -/
theorem tryEnd_of_change (hb : Recorded b handlers) (h : Change b b')
    (hpos : ∀ item ∈ b'.code.items.toList, 0 < item.size) :
    ∀ r ∈ b'.regions, ∀ p, r.tryEnd? = some p → Sealed b' handlers p := by
  have hkept : ∀ r ∈ b.regions, ∀ p, r.tryEnd? = some p → Sealed b' handlers p :=
    fun r hr p hp => (hb.tryEnd r hr p hp).flows h.flows hpos
  have houter : ∀ {first : Region} {outer}, b.regions = first :: outer → ∀ r ∈ outer, ∀ p,
      r.tryEnd? = some p → Sealed b' handlers p := by
    intro first outer hregions r hr
    exact hkept r (by rw [hregions]; exact List.mem_cons_of_mem _ hr)
  rcases h.regions with hregion | ⟨hsame, -⟩
  · cases hregion with
    | nothing => exact hkept
    | startTry _ _ =>
      intro r hr p hp
      rcases List.mem_cons.mp hr with rfl | hr
      · cases hp
      · exact hkept r hr p hp
    | endTry hregions hreachable _ =>
      intro r hr p hp
      rcases List.mem_cons.mp hr with rfl | hr
      · cases hp
        exact (Sealed.here hb.guarded hreachable).flows h.flows hpos
      · exact houter hregions r hr p hp
    | @startHandler start stop _ hregions _ =>
      have hfirst : .afterTry start stop ∈ b.regions := by
        rw [hregions]
        exact List.mem_cons_self
      intro r hr p hp
      rcases List.mem_cons.mp hr with rfl | hr
      · exact hkept (.afterTry start stop) hfirst p hp
      · exact houter hregions r hr p hp
    | endHandler hregions _ _ => exact houter hregions
  · rw [hsame]
    exact hkept

/-- A clause takes over the end of its try block from its region, and the handler that ends was
left. -/
theorem clause_of_change (hb : Recorded b handlers) (h : Change b b')
    (hpos : ∀ item ∈ b'.code.items.toList, 0 < item.size) :
    ∀ c ∈ b'.exceptions.added.toList,
      Sealed b' handlers c.tryRange.stop ∧ Sealed b' handlers c.handlerRange.stop := by
  have hkept : ∀ {p}, Sealed b handlers p → Sealed b' handlers p :=
    fun hp => hp.flows h.flows hpos
  have hold : ∀ c ∈ b.exceptions.added.toList,
      Sealed b' handlers c.tryRange.stop ∧ Sealed b' handlers c.handlerRange.stop :=
    fun c hc => ⟨hkept (hb.clause c hc).1, hkept (hb.clause c hc).2⟩
  rcases h.regions with hregion | ⟨-, hsame⟩
  · cases hregion with
    | @endHandler start stop handler outer exceptionClass hregions hreachable hsize =>
      have hfirst : .inHandler start stop handler ∈ b.regions := by
        rw [hregions]
        exact List.mem_cons_self
      intro c hc
      rcases List.mem_append.mp (Array.toList_push ▸ hc) with hc | hc
      · exact hold c hc
      · -- the marks of the region are the ends of the ranges
        have hmarks := marks_regionClause exceptionClass (hb.nested.inOrder _ hfirst) hsize
        simp only [ExceptionClause.marks, List.cons.injEq, and_true] at hmarks
        obtain ⟨-, hstop, -, hfinish⟩ := hmarks
        rw [List.mem_singleton.mp hc]
        refine ⟨?_, ?_⟩
        · show Sealed _ _ (_ + _)
          rw [hstop]
          exact hkept (hb.tryEnd (.inHandler start stop handler) hfirst stop rfl)
        · show Sealed _ _ (_ + _)
          rw [hfinish]
          exact hkept (.here hb.guarded hreachable)
    | _ => exact hold
  · rw [hsame]
    exact hold

theorem of_change (hb : Recorded b handlers) (h : Change b b')
    (hpos : ∀ item ∈ b'.code.items.toList, 0 < item.size) : Recorded b' handlers where
  guarded := hb.guarded.flows h.flows hpos
  nested := hb.nested.of_change h
  tryEnd := hb.tryEnd_of_change h hpos
  clause := hb.clause_of_change h hpos

theorem addHandler (hb : Recorded b handlers) (hr : b.reachable = true) :
    Recorded b (handlers ++ [b.size]) where
  guarded := hb.guarded.addHandler hr
  nested := hb.nested
  tryEnd := fun r hr p hp => (hb.tryEnd r hr p hp).addHandler hb.guarded.size_pos
  clause := fun c hc => ⟨(hb.clause c hc).1.addHandler hb.guarded.size_pos,
    (hb.clause c hc).2.addHandler hb.guarded.size_pos⟩

end Recorded

/-! Which handlers there are. -/

/-- The region of a handler that starts at `p` is open, or its clause is recorded. -/
def HandlerAt (b : Builder) (p : Nat) : Prop :=
  (∃ start stop, .inHandler start stop p ∈ b.regions) ∨
    ∃ c ∈ b.exceptions.added.toList, c.handlerOffset.toNat = p

/-- Without new handlers and clauses there is no handler that was not there. -/
theorem HandlerAt.of_regions {b b' : Builder} {p : Nat} (h : HandlerAt b' p)
    (hregions : ∀ start stop, .inHandler start stop p ∈ b'.regions →
      .inHandler start stop p ∈ b.regions)
    (hexceptions : b'.exceptions = b.exceptions) : HandlerAt b p := by
  rcases h with ⟨start, stop, hregion⟩ | hclause
  · exact .inl ⟨start, stop, hregions start stop hregion⟩
  · rw [hexceptions] at hclause
    exact .inr hclause

namespace Emit

open Step

variable {σ α : Type}

theorem Appending.regions {x : Emit σ α} (h : Appending x) (s : Emission σ) :
    (x.after s).builder.regions = s.builder.regions ∧
      (x.after s).builder.exceptions = s.builder.exceptions := by
  cases h with
  | ask question =>
    rw [builder_after_ask]
    exact ⟨rfl, rfl⟩
  | emit _ _ =>
    refine builder_after_build
      (R := fun b b' => b'.regions = b.regions ∧ b'.exceptions = b.exceptions)
      (fun _ b' hrun => ?_) fun e b' hrun => ?_
    · obtain ⟨-, -, rfl⟩ := Build.emit_ok.mp hrun
      exact ⟨rfl, rfl⟩
    · obtain ⟨-, d, rfl⟩ := Build.emit_error hrun
      exact ⟨rfl, rfl⟩

/-- Ending a handler leaves the builder alone until the clause is recorded. -/
theorem builder_after_endHandler [Resolver σ] (s : Emission σ) :
    ((endHandler : Emit σ Unit).after s).builder = s.builder ∨
      ∃ token, (Build.endHandler token).run s.builder =
        .ok () ((endHandler : Emit σ Unit).after s).builder := by
  unfold endHandler
  have hchecked : ((build Build.checkHandlerEnd : Emit σ Unit).after s).builder = s.builder := by
    rw [after_build]
    exact Build.after_checkHandlerEnd _
  rw [after_bind]
  cases hcheck : (build Build.checkHandlerEnd : Emit σ Unit).run s with
  | error e s₁ =>
    rw [after_of_error hcheck] at hchecked
    exact .inl hchecked
  | ok _ s₁ =>
    rw [after_of_ok hcheck] at hchecked
    dsimp only
    rw [after_bind]
    cases hask : (ask (Resolver.typeToken RuntimeLibrary.exceptionType) : Emit σ Token).run s₁ with
    | error e s₂ =>
      have hasked := builder_after_ask (Resolver.typeToken RuntimeLibrary.exceptionType) s₁
      rw [after_of_error hask, hchecked] at hasked
      exact .inl hasked
    | ok token s₂ =>
      have hasked := builder_of_ask_ok hask
      dsimp only
      rw [after_build, ← hchecked, ← hasked]
      show (Build.endHandler token).after s₂.builder = s₂.builder ∨
        ∃ token', (Build.endHandler token').run s₂.builder =
          .ok () ((Build.endHandler token).after s₂.builder)
      cases hend : (Build.endHandler token).run s₂.builder with
      | error e b' =>
        rw [after_of_error hend]
        exact .inl (Build.endHandler_error hend)
      | ok _ b' =>
        rw [after_of_ok hend]
        exact .inr ⟨token, hend⟩

end Emit

/-- Only the own code may have no size. -/
theorem Builder.size_pos_of_mem {b : Builder} (hne : .splice [] ∉ b.code.items.toList) :
    ∀ item ∈ b.code.items.toList, 0 < item.size :=
  fun _ hitem => CodeItem.size_pos fun heq => hne (heq ▸ hitem)

namespace Action

open Step Emit

variable {σ : Type} [Resolver σ]

/-- Actions that do not mark regions leave regions and clauses alone. -/
theorem regions_perform {a : Action σ} (h : a.marks = false) (s : Emission σ) :
    (a.perform.after s).builder.regions = s.builder.regions ∧
      (a.perform.after s).builder.exceptions = s.builder.exceptions := by
  by_cases happends : a.appends = true
  · exact (perform_appending happends).after
      (R := fun s t : Emission σ => t.builder.regions = s.builder.regions ∧
        t.builder.exceptions = s.builder.exceptions)
      (fun _ => ⟨rfl, rfl⟩) (fun hst htu => ⟨htu.1.trans hst.1, htu.2.trans hst.2⟩)
      (fun _ _ hx t => hx.regions t) s
  have houtcome := a.outcome s
  generalize a.perform.succeeds s = ok at houtcome
  generalize (a.perform.after s).builder = b' at houtcome
  have hmeet : ∀ (b : Builder) (label : Nat),
      (b.meet label).regions = b.regions ∧ (b.meet label).exceptions = b.exceptions := by
    intro b label
    rw [Builder.meet_eq]
    exact ⟨rfl, rfl⟩
  have hresume : ∀ (b : Builder) (label : Nat),
      (b.resume label).regions = b.regions ∧ (b.resume label).exceptions = b.exceptions := by
    intro b label
    rw [Builder.resume_eq]
    exact ⟨rfl, rfl⟩
  cases houtcome with
  | extended hkind _ =>
    rcases hkind with hkind | hkind
    · exact absurd hkind happends
    · rw [h] at hkind
      cases hkind
  | jump hjump =>
    obtain ⟨-, -, -, -, -, rfl⟩ := Build.jumpTo_ok.mp hjump
    exact hmeet _ _
  | jumpTo hjump =>
    obtain ⟨-, -, -, -, -, rfl⟩ := Build.jumpTo_ok.mp hjump
    exact hmeet _ _
  | placeLabel hplace =>
    obtain ⟨-, -, -, -, rfl⟩ := Build.placeLabel_ok.mp hplace
    exact hresume _ _
  | placeTooFar _ _ _ => exact hresume _ _
  | _ => exact ⟨rfl, rfl⟩

/-- What is noted of a handler says where it starts, and that control goes on there. -/
theorem handlerStart_of_note {a : Action σ} {s : Emission σ} {p : Nat}
    (h : a.handlerStart? s = some p) :
    a = startHandler ∧ a.perform.succeeds s = true ∧ p = s.builder.size ∧
      (a.perform.after s).builder.size = p ∧ (a.perform.after s).builder.reachable = true := by
  unfold handlerStart? at h
  split at h
  · next hok =>
    split at h
    · cases h
      obtain ⟨_, hrun⟩ := exists_ok_of_succeeds hok
      obtain ⟨_, _, _, -, -, hb'⟩ := Build.startHandler_ok.mp (build_ok.mp hrun).2
      rw [hb']
      exact ⟨rfl, hok, rfl, rfl, rfl⟩
    · cases h
  · cases h

omit [Resolver σ] in
/-- A step without the host that brings no handler if it goes through brings none. -/
theorem handlerAt_of_build {x : Build Unit} {s : Emission σ} {p : Nat}
    (hok : ∀ b', x.run s.builder = .ok () b' → HandlerAt b' p → HandlerAt s.builder p)
    (herror : ∀ e b', x.run s.builder = .error e b' → b' = s.builder)
    (h : HandlerAt ((build x : Emit σ Unit).after s).builder p) : HandlerAt s.builder p :=
  builder_after_build (R := fun b b' => HandlerAt b' p → HandlerAt b p)
    (fun _ b' hrun => hok b' hrun) (fun e b' hrun h => herror e b' hrun ▸ h) h

theorem handlerAt_startHandler {s : Emission σ} {p : Nat}
    (h : HandlerAt ((startHandler : Action σ).perform.after s).builder p) :
    HandlerAt s.builder p ∨ (startHandler : Action σ).handlerStart? s = some p := by
  by_cases hok : (startHandler : Action σ).perform.succeeds s = true
  · obtain ⟨_, hrun⟩ := exists_ok_of_succeeds hok
    obtain ⟨_, _, outer, hregions, -, hb'⟩ := Build.startHandler_ok.mp (build_ok.mp hrun).2
    have hnoted : (startHandler : Action σ).handlerStart? s = some s.builder.size := by
      simp only [handlerStart?, hok, if_true]
    rw [hnoted, Option.some.injEq]
    by_cases hp : s.builder.size = p
    · exact .inr hp
    · rw [hb'] at h
      refine .inl (h.of_regions (fun start stop hmem => ?_) rfl)
      rw [hregions]
      refine List.mem_cons_of_mem _ (List.mem_of_ne_of_mem ?_ hmem)
      rintro ⟨⟩
      exact hp rfl
  · refine .inl (handlerAt_of_build (fun b' hrun _ => ?_) (fun _ _ => Build.startHandler_error) h)
    have hgoes : (startHandler : Action σ).perform.run s = .ok () ⟨s.host, b'⟩ :=
      build_ok.mpr ⟨rfl, hrun⟩
    exact absurd (succeeds_iff.mpr ⟨_, _, hgoes⟩) hok

/-- A clause has the handler of the region that it was recorded for. -/
theorem handlerAt_endHandler {s : Emission σ} (hs : Nested s.builder) {p : Nat}
    (h : HandlerAt ((endHandler : Action σ).perform.after s).builder p) :
    HandlerAt s.builder p := by
  have hperform : (endHandler : Action σ).perform = Emit.endHandler := rfl
  rcases builder_after_endHandler s with hsame | ⟨token, hrun⟩
  · rwa [hperform, hsame] at h
  · obtain ⟨start, stop, handler, outer, hregions, -, hsize, hb'⟩ := Build.endHandler_ok hrun
    have hfirst : .inHandler start stop handler ∈ s.builder.regions := by
      rw [hregions]
      exact List.mem_cons_self
    rw [hperform, hb'] at h
    rcases h with ⟨start, stop, hmem⟩ | ⟨c, hc, hp⟩
    · refine .inl ⟨start, stop, ?_⟩
      rw [hregions]
      exact List.mem_cons_of_mem _ hmem
    · rcases List.mem_append.mp (Array.toList_push ▸ hc) with hc | hc
      · exact .inr ⟨c, hc, hp⟩
      · have hmarks := marks_regionClause token (hs.inOrder _ hfirst) hsize
        simp only [ExceptionClause.marks, List.cons.injEq, and_true] at hmarks
        rw [List.mem_singleton.mp hc, hmarks.2.2.1] at hp
        rw [← hp]
        exact .inl ⟨start, stop, hfirst⟩

/-- A handler starts where an action started it. -/
theorem handlerAt_perform {a : Action σ} {s : Emission σ} (hs : Nested s.builder) {p : Nat}
    (h : HandlerAt (a.perform.after s).builder p) :
    HandlerAt s.builder p ∨ a.handlerStart? s = some p := by
  by_cases hmarks : a.marks = true
  · cases a with
    | startTry =>
      refine .inl (handlerAt_of_build (fun b' hrun h => ?_) (fun _ _ => Build.startTry_error) h)
      obtain ⟨-, -, rfl⟩ := Build.startTry_ok.mp hrun
      refine h.of_regions (fun start stop hmem => ?_) rfl
      exact List.mem_of_ne_of_mem (by rintro ⟨⟩) hmem
    | endTry =>
      refine .inl (handlerAt_of_build (fun b' hrun h => ?_) (fun _ _ => Build.endTry_error) h)
      obtain ⟨_, outer, hregions, -, -, rfl⟩ := Build.endTry_ok.mp hrun
      refine h.of_regions (fun start stop hmem => ?_) rfl
      rw [hregions]
      exact List.mem_cons_of_mem _ (List.mem_of_ne_of_mem (by rintro ⟨⟩) hmem)
    | startHandler => exact handlerAt_startHandler h
    | endHandler => exact .inl (handlerAt_endHandler hs h)
    | _ => cases hmarks
  · obtain ⟨hregions, hexceptions⟩ := regions_perform (Bool.eq_false_iff.mpr hmarks) s
    exact .inl (h.of_regions (fun _ _ hmem => hregions ▸ hmem) hexceptions)

theorem handlerAt_run {acts : List (Action σ)} {s : Emission σ} (hs : Nested s.builder) {p : Nat}
    (h : HandlerAt (run acts s).builder p) :
    HandlerAt s.builder p ∨ p ∈ history handlerStart? acts s := by
  induction acts generalizing s with
  | nil => exact .inl h
  | cons a rest ih =>
    rcases ih (nested_run [a] hs) h with h | h
    · rcases handlerAt_perform hs h with h | h
      · exact .inl h
      · exact .inr (List.mem_append_left _ (Option.mem_toList.mpr h))
    · exact .inr (List.mem_append_right _ h)

/-- What every change and every new handler keeps, every run keeps. -/
theorem run_keeps_handlers {P : Builder → List Nat → Prop}
    (hchange : ∀ {b b' handlers}, Change b b' → P b handlers → P b' handlers)
    (hhandler : ∀ {b handlers}, b.reachable = true → P b handlers → P b (handlers ++ [b.size]))
    (acts : List (Action σ)) {s : Emission σ} {handlers : List Nat} (h : P s.builder handlers) :
    P (run acts s).builder (handlers ++ history handlerStart? acts s) := by
  induction acts generalizing s handlers with
  | nil => rwa [history, List.append_nil]
  | cons a rest ih =>
    have hafter : P (a.perform.after s).builder handlers := run_keeps (P := fun b => P b handlers)
      hchange [a] h
    rw [run_cons, history, ← List.append_assoc]
    refine ih ?_
    cases hnote : a.handlerStart? s with
    | none => rwa [Option.toList_none, List.append_nil]
    | some p =>
      obtain ⟨-, -, -, hsize, hreachable⟩ := handlerStart_of_note hnote
      rw [Option.toList_some, ← hsize]
      exact hhandler hreachable hafter

/-- What holds as long as no empty own code is spliced in. -/
theorem run_keeps_sized {P : Builder → List Nat → Prop}
    (hchange : ∀ {b b' handlers}, Change b b' → .splice [] ∉ b'.code.items.toList →
      P b handlers → P b' handlers)
    (hhandler : ∀ {b handlers}, .splice [] ∉ b.code.items.toList → b.reachable = true →
      P b handlers → P b (handlers ++ [b.size]))
    (acts : List (Action σ)) {s : Emission σ} {handlers : List Nat}
    (hne : .splice [] ∉ (run acts s).builder.code.items.toList) (h : P s.builder handlers) :
    P (run acts s).builder (handlers ++ history handlerStart? acts s) := by
  refine run_keeps_handlers (P := fun b handlers => .splice [] ∉ b.code.items.toList →
    P b handlers) ?_ ?_ acts (fun _ => h) hne
  · intro b b' handlers hstep hb hne'
    obtain ⟨more, hmore⟩ := hstep.items_prefix
    exact hchange hstep hne' (hb fun hmem => hne' (hmore ▸ List.mem_append_left _ hmem))
  · exact fun hr hb hne' => hhandler hne' hr (hb hne')

theorem recorded_run (acts : List (Action σ)) {s : Emission σ} {handlers : List Nat}
    (hne : .splice [] ∉ (run acts s).builder.code.items.toList)
    (h : Recorded s.builder handlers) :
    Recorded (run acts s).builder (handlers ++ history handlerStart? acts s) :=
  run_keeps_sized (fun hchange hne' hb => hb.of_change hchange (Builder.size_pos_of_mem hne'))
    (fun _ hr hb => hb.addHandler hr) acts hne h

theorem sealed_run (acts : List (Action σ)) {s : Emission σ} {handlers : List Nat} {p : Nat}
    (hne : .splice [] ∉ (run acts s).builder.code.items.toList)
    (h : Sealed s.builder handlers p) :
    Sealed (run acts s).builder (handlers ++ history handlerStart? acts s) p :=
  run_keeps_sized (P := fun b handlers => Sealed b handlers p)
    (fun hchange hne' hb => hb.flows hchange.flows (Builder.size_pos_of_mem hne'))
    (fun hne' _ hb => hb.addHandler (Builder.size_pos_of_mem hne')) acts hne h

/-- A handler can be started behind every closed try block, whether or not control goes on
there. -/
theorem startHandler_succeeds_iff (s : Emission σ) :
    (startHandler : Action σ).perform.succeeds s = true ↔
      ∃ start stop outer, s.builder.regions = .afterTry start stop :: outer ∧
        s.builder.size < 0x100000000 := by
  constructor
  · intro h
    obtain ⟨_, hrun⟩ := exists_ok_of_succeeds h
    obtain ⟨start, stop, outer, hregions, hsize, -⟩ := Build.startHandler_ok.mp (build_ok.mp hrun).2
    exact ⟨start, stop, outer, hregions, hsize⟩
  · rintro ⟨start, stop, outer, hregions, hsize⟩
    obtain ⟨b', hbuild⟩ : ∃ b', Build.startHandler.run s.builder = .ok () b' :=
      ⟨_, Build.startHandler_ok.mpr ⟨start, stop, outer, hregions, hsize, rfl⟩⟩
    have hrun : (startHandler : Action σ).perform.run s = .ok () ⟨s.host, b'⟩ :=
      build_ok.mpr ⟨rfl, hbuild⟩
    exact succeeds_iff.mpr ⟨_, _, hrun⟩

/-- Into a handler that is opened in code that is not flagged there is no way but the
exception and jumps to labels that are placed behind its opening. -/
theorem opened_in_dead {inherited : List ExceptionClause} {before behind : List (Action σ)}
    {s : Emission σ} (hstart : s.builder = .start ⟨inherited, #[]⟩)
    (hne : .splice [] ∉ (run (before ++ behind) s).builder.code.items.toList)
    (hdead : (run before s).builder.reachable = false) :
    let b := (run (before ++ behind) s).builder
    let handlers := history handlerStart? (before ++ behind) s
    let p := (run before s).builder.size
    (∀ label, (run before s).builder.place label ≠ some p) ∧ Unfallen b handlers p ∧
      Entered b handlers p := by
  intro b handlers p
  have hrecorded : Recorded s.builder [] := by
    rw [hstart]
    exact .start inherited
  have hne' : .splice [] ∉ (run before s).builder.code.items.toList := by
    obtain ⟨more, hmore⟩ := items_prefix_run behind (run before s)
    rw [run_append] at hne
    exact fun hmem => hne (hmore ▸ List.mem_append_left _ hmem)
  have hguarded := (recorded_run before hne' hrecorded).guarded
  have hsealed : Sealed b handlers p := by
    unfold b handlers p
    rw [history_append]
    rw [run_append] at hne ⊢
    exact sealed_run behind hne (.here hguarded hdead)
  -- the first entry is live, so it is not where the code is not flagged
  have hpos : p ≠ 0 := fun hzero => hguarded.dead hdead (live_iff.mpr (.inl hzero))
  exact ⟨fun label hplace => hguarded.dead hdead (.label hplace), hsealed.unfallen,
    hsealed.entered hpos⟩

/-- Whatever was done, and however much of it was refused, as long as no empty own code is
spliced in: no path falls through at the end of the try block of a recorded clause or at the end
of its handler, and if control did not go on where its handler was opened, then no label stood
there, no path falls into the handler, and only the exception and jumps to later labels lead to
it. That control does not go on there is not asked when a handler is opened. -/
theorem handlers_sealed {inherited : List ExceptionClause} {acts : List (Action σ)}
    {s : Emission σ} (hstart : s.builder = .start ⟨inherited, #[]⟩)
    (hne : .splice [] ∉ (run acts s).builder.code.items.toList) :
    let b := (run acts s).builder
    let handlers := history handlerStart? acts s
    (∀ c ∈ b.exceptions.added.toList,
      Unfallen b handlers c.tryRange.stop ∧ Unfallen b handlers c.handlerRange.stop ∧
      ∃ before behind, acts = before ++ startHandler :: behind ∧
        (startHandler : Action σ).perform.succeeds (run before s) = true ∧
        (run before s).builder.size = c.handlerRange.start ∧
        ((run before s).builder.reachable = false →
          (∀ label, (run before s).builder.place label ≠ some c.handlerRange.start) ∧
          Unfallen b handlers c.handlerRange.start ∧ Entered b handlers c.handlerRange.start)) ∧
    ((startHandler : Action σ).perform.succeeds (run acts s) = true ↔
      ∃ start stop outer, b.regions = .afterTry start stop :: outer ∧ b.size < 0x100000000) := by
  intro b handlers
  have hrecorded : Recorded s.builder [] := by
    rw [hstart]
    exact .start inherited
  refine ⟨fun c hc => ?_, startHandler_succeeds_iff _⟩
  obtain ⟨htry, hhandler⟩ := (recorded_run acts hne hrecorded).clause c hc
  refine ⟨htry.unfallen, hhandler.unfallen, ?_⟩
  -- the handler of the clause was opened by some action of the run
  have hopened : c.handlerRange.start ∈ history handlerStart? acts s := by
    rcases handlerAt_run hrecorded.nested (.inr ⟨c, hc, rfl⟩) with hfirst | hnoted
    · rw [hstart] at hfirst
      rcases hfirst with ⟨_, _, hregion⟩ | ⟨_, hclause, -⟩
      · exact absurd hregion List.not_mem_nil
      · exact absurd hclause List.not_mem_nil
    · exact hnoted
  obtain ⟨before, a, behind, rfl, hnote⟩ := mem_history.mp hopened
  obtain ⟨rfl, hok, hsize, -, -⟩ := handlerStart_of_note hnote
  refine ⟨before, behind, rfl, hok, hsize.symm, fun hdead => ?_⟩
  rw [hsize]
  exact opened_in_dead hstart hne hdead

theorem handlers_sealed_guarded :
    let b := (run guardedRun ⟨.empty, .start .empty⟩).builder
    .splice [] ∉ b.code.items.toList ∧ b.exceptions.added.toList.length = 1 ∧
    ∀ c ∈ b.exceptions.added.toList,
      Unfallen b [16] c.tryRange.stop ∧ Unfallen b [16] c.handlerRange.stop := by
  intro b
  have hne : .splice [] ∉ b.code.items.toList := by decide +kernel
  have hhandlers : history handlerStart? guardedRun ⟨.empty, .start .empty⟩ = [16] := by
    decide +kernel
  have hclauses := (handlers_sealed rfl hne).1
  rw [hhandlers] at hclauses
  exact ⟨hne, by decide +kernel, fun c hc => ⟨(hclauses c hc).1, (hclauses c hc).2.1⟩⟩

/-- Empty own code turns the flag off, although control still goes on behind it, so the try block
may end there and the handler start. -/
example : (run [.startTry, .plain .nop, .splice [], .endTry, .startHandler]
    (⟨.empty, .start .empty⟩ : Emission StoredMethod)).builder.regions = [.inHandler 0 1 1] := by
  decide +kernel

/-- A handler that is opened where the path around its try block comes to. -/
def enteredRun : List (Action StoredMethod) :=
  [.createLabel, .createLabel, .startTry, .jumpTo .leave 0, .endTry, .placeLabel 0,
   .startHandler, .plain .pop, .jumpTo .leave 1, .endHandler, .placeLabel 1, .plain .ret]

/-- The handler is opened in flagged code and recorded, and a jump leads into it without an
exception. -/
theorem handler_entered_enteredRun :
    let s : Emission StoredMethod := ⟨.empty, .start .empty⟩
    let b := (run enteredRun s).builder
    (run (enteredRun.take 6) s).builder.reachable = true ∧
    (run (enteredRun.take 6) s).builder.place 0 = some 5 ∧
    (startHandler : Action StoredMethod).perform.succeeds (run (enteredRun.take 6) s) = true ∧
    b.exceptions.added.toList.map (·.handlerRange.start) = [5] ∧ b.bytes.toOption.isSome = true ∧
    b.code.ItemAt 0 (.jump .leave 0) ∧ b.place 0 = some 5 ∧ Reaches b [5] 5 0 := by
  intro s b
  have hitem : b.code.ItemAt 0 (.jump .leave 0) :=
    ⟨[], b.code.items.toList.tail, by decide +kernel, rfl⟩
  have hplace : b.place 0 = some 5 := by decide +kernel
  exact ⟨by decide +kernel, by decide +kernel, by decide +kernel, by decide +kernel,
    by decide +kernel, hitem, hplace, .jump .entry hitem hplace⟩

end Action

end CilInstrument
