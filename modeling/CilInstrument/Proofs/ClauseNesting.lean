import CilInstrument.Proofs.CanonicalBody
import CilInstrument.Proofs.JumpTargets

/- Recorded regions are nested. The marks of a region are set one after the other at the
   end of the code, so they are in order, and none is ever set inside of something that is
   already complete: a recorded clause, or the method's own code. This is what a change
   can do to the marks (`Marked`) and what follows for all later ones (`Nested`,
   `Complete`). Of the ranges of code it says that the clauses, in the order in which they
   are written, are nested from the inside out (`clauses_nested`). -/
namespace CilInstrument

namespace Region

/-- The positions that are known of a region, in the order in which they are set. -/
def marks : Region → List Nat
  | inTry start => [start]
  | afterTry start stop => [start, stop]
  | inHandler start stop handler => [start, stop, handler]

/-- The marks are in order, and none is beyond the end of the code. -/
def InOrder (r : Region) (finish : Nat) : Prop := (r.marks ++ [finish]).Pairwise (· ≤ ·)

end Region

/-- The positions from `start` up to `stop`, which is the first one behind. -/
structure CodeRange where
  start : Nat
  stop : Nat
  deriving Repr, DecidableEq

namespace CodeRange

def Apart (r r' : CodeRange) : Prop := r.stop ≤ r'.start ∨ r'.stop ≤ r.start

def Within (r r' : CodeRange) : Prop := r'.start ≤ r.start ∧ r.stop ≤ r'.stop

instance (r r' : CodeRange) : Decidable (r.Apart r') := inferInstanceAs (Decidable (_ ∨ _))

instance (r r' : CodeRange) : Decidable (r.Within r') := inferInstanceAs (Decidable (_ ∧ _))

end CodeRange

namespace ExceptionClause

def tryRange (c : ExceptionClause) : CodeRange :=
  ⟨c.tryOffset.toNat, c.tryOffset.toNat + c.tryLength.toNat⟩

def handlerRange (c : ExceptionClause) : CodeRange :=
  ⟨c.handlerOffset.toNat, c.handlerOffset.toNat + c.handlerLength.toNat⟩

/-- From the start of the try block to the end of the handler. -/
def span (c : ExceptionClause) : CodeRange :=
  ⟨c.tryOffset.toNat, c.handlerOffset.toNat + c.handlerLength.toNat⟩

/-- Both ranges lie in code of the given length. -/
def LiesIn (c : ExceptionClause) (length : Nat) : Prop :=
  c.tryRange.stop ≤ length ∧ c.handlerRange.stop ≤ length

/-- Where the try block starts and ends, and where the handler does. -/
def marks (c : ExceptionClause) : List Nat :=
  [c.tryOffset.toNat, c.tryOffset.toNat + c.tryLength.toNat, c.handlerOffset.toNat,
    c.handlerOffset.toNat + c.handlerLength.toNat]

end ExceptionClause

/-- A position in front of all marks or behind all of them, maybe on the outermost. -/
def Around (marks : List Nat) (p : Nat) : Prop := (∀ m ∈ marks, p ≤ m) ∨ ∀ m ∈ marks, m ≤ p

/-- What a change can do to the marks of regions and clauses. -/
inductive Marked (b b' : Builder) : Prop
  | same (hregions : b'.regions = b.regions) (hexceptions : b'.exceptions = b.exceptions)
  | opened {r : Region} (hmarks : r.marks = [b.size]) (hregions : b'.regions = r :: b.regions)
    (hexceptions : b'.exceptions = b.exceptions)
  | advanced {r r' : Region} {outer : List Region} (hopen : b.regions = r :: outer)
    (hmarks : r'.marks = r.marks ++ [b.size]) (hregions : b'.regions = r' :: outer)
    (hexceptions : b'.exceptions = b.exceptions)
  | closed {r : Region} {outer : List Region} {c : ExceptionClause}
    (hopen : b.regions = r :: outer) (hmarks : c.marks = r.marks ++ [b.size])
    (hregions : b'.regions = outer) (hexceptions : b'.exceptions = b.exceptions.add c)

/-- The marks of a clause are those of its region, and the end. -/
theorem marks_regionClause {start stop handler finish : Nat} (exceptionClass : Token)
    (h : (Region.inHandler start stop handler).InOrder finish) (hfinish : finish < 0x100000000) :
    (Build.regionClause start stop handler finish exceptionClass).marks =
      [start, stop, handler, finish] := by
  obtain ⟨⟨hstart, -, -⟩, ⟨hstop, -⟩, hhandler⟩ :
      (start ≤ stop ∧ start ≤ handler ∧ start ≤ finish) ∧ (stop ≤ handler ∧ stop ≤ finish) ∧
        handler ≤ finish := by
    simpa [Region.InOrder, Region.marks] using h
  have hword : ∀ {n : Nat}, n ≤ finish → (UInt32.ofNat n).toNat = n :=
    fun hn => UInt32.toNat_ofNat_of_lt' (Nat.lt_of_le_of_lt hn hfinish)
  unfold ExceptionClause.marks Build.regionClause
  simp only
  rw [hword (by omega), hword (by omega), hword (by omega), hword (by omega),
    Nat.add_sub_cancel' hstart, Nat.add_sub_cancel' hhandler]

theorem RegionChange.marked {b b' : Builder} (h : RegionChange b b')
    (hb : ∀ r ∈ b.regions, r.InOrder b.size) : Marked b b' := by
  cases h with
  | nothing => exact .same rfl rfl
  | startTry _ _ => exact .opened (r := .inTry b.size) rfl rfl rfl
  | @endTry start outer hregions _ _ =>
    have hmarks : (Region.afterTry start b.size).marks = (Region.inTry start).marks ++ [b.size] := rfl
    exact .advanced hregions hmarks rfl rfl
  | @startHandler start stop outer hregions _ =>
    have hmarks : (Region.inHandler start stop b.size).marks =
        (Region.afterTry start stop).marks ++ [b.size] := rfl
    exact .advanced hregions hmarks rfl rfl
  | @endHandler start stop handler outer exceptionClass hregions _ hsize =>
    refine .closed hregions ?_ rfl rfl
    exact marks_regionClause exceptionClass (hb _ (by rw [hregions]; exact List.mem_cons_self)) hsize

theorem Change.marked {b b' : Builder} (h : Change b b')
    (hb : ∀ r ∈ b.regions, r.InOrder b.size) : Marked b b' := by
  rcases h.regions with h | ⟨hregions, hexceptions⟩
  · exact h.marked hb
  · exact .same hregions hexceptions

theorem Region.InOrder.mono {r : Region} {finish finish' : Nat} (h : r.InOrder finish)
    (hle : finish ≤ finish') : r.InOrder finish' := by
  obtain ⟨hmarks, -, hlast⟩ := List.pairwise_append.mp h
  refine List.pairwise_append.mpr ⟨hmarks, List.pairwise_singleton _ _, fun m hm p hp => ?_⟩
  rw [List.mem_singleton.mp hp]
  exact Nat.le_trans (hlast m hm finish (List.mem_singleton_self _)) hle

/-- No mark of a region is beyond the end of the code. -/
theorem Region.InOrder.le {r : Region} {finish m : Nat} (h : r.InOrder finish)
    (hm : m ∈ r.marks) : m ≤ finish :=
  (List.pairwise_append.mp h).2.2 m hm finish (List.mem_singleton_self _)

/-! What is complete stays free of marks. -/

/-- All marks of `k` are set, and no open region has a mark inside of it. -/
structure Complete (k : List Nat) (b : Builder) : Prop where
  set : ∀ m ∈ k, m ≤ b.size
  regions : ∀ r ∈ b.regions, ∀ p ∈ r.marks, Around k p

namespace Complete

variable {k : List Nat} {b b' : Builder}

/-- The end of the code is behind all that is complete. -/
theorem around_size (h : Complete k b) : Around k b.size := .inr h.set

/-- The marks of the innermost region, and the next one that is set. -/
theorem around_next (h : Complete k b) {r : Region} {outer : List Region}
    (hopen : b.regions = r :: outer) : ∀ p ∈ r.marks ++ [b.size], Around k p := by
  intro p hp
  rcases List.mem_append.mp hp with hp | hp
  · exact h.regions r (by rw [hopen]; exact List.mem_cons_self) p hp
  · rw [List.mem_singleton.mp hp]
    exact h.around_size

theorem marked (h : Complete k b) (hmarked : Marked b b') (hsize : b.size ≤ b'.size) :
    Complete k b' := by
  refine ⟨fun m hm => Nat.le_trans (h.set m hm) hsize, ?_⟩
  cases hmarked with
  | same hregions _ =>
    rw [hregions]
    exact h.regions
  | @opened r hmarks hregions _ =>
    rw [hregions]
    intro r' hr'
    rcases List.mem_cons.mp hr' with rfl | hr'
    · rw [hmarks]
      intro p hp
      rw [List.mem_singleton.mp hp]
      exact h.around_size
    · exact h.regions r' hr'
  | @advanced r r' outer hopen hmarks hregions _ =>
    rw [hregions]
    intro q hq
    rcases List.mem_cons.mp hq with rfl | hq
    · rw [hmarks]
      exact h.around_next hopen
    · exact h.regions q (by rw [hopen]; exact List.mem_cons_of_mem _ hq)
  | @closed r outer c hopen _ hregions _ =>
    rw [hregions]
    intro q hq
    exact h.regions q (by rw [hopen]; exact List.mem_cons_of_mem _ hq)

/-- A clause that is recorded later has no mark inside of what is complete. -/
theorem clauses (h : Complete k b) (hmarked : Marked b b')
    (hclauses : ∀ c ∈ b.exceptions.added.toList, ∀ p ∈ c.marks, Around k p) :
    ∀ c ∈ b'.exceptions.added.toList, ∀ p ∈ c.marks, Around k p := by
  cases hmarked with
  | same _ hexceptions | opened _ _ hexceptions | advanced _ _ _ hexceptions =>
    rw [hexceptions]
    exact hclauses
  | @closed r outer c hopen hmarks _ hexceptions =>
    rw [hexceptions]
    intro c' hc'
    rcases List.mem_append.mp (Array.toList_push ▸ hc') with hc' | hc'
    · exact hclauses c' hc'
    · rw [List.mem_singleton.mp hc', hmarks]
      exact h.around_next hopen

end Complete

/-! Open regions and recorded clauses are nested. -/

/-- What holds of the marks in every builder. -/
structure Nested (b : Builder) : Prop where
  inOrder : ∀ r ∈ b.regions, r.InOrder b.size
  /-- A region stands behind all marks of the regions around it. -/
  behind : b.regions.Pairwise fun inner outer => ∀ p ∈ outer.marks, ∀ m ∈ inner.marks, p ≤ m
  sorted : ∀ c ∈ b.exceptions.added.toList, c.marks.Pairwise (· ≤ ·)
  complete : ∀ c ∈ b.exceptions.added.toList, Complete c.marks b
  /-- No clause has a mark inside of one that was recorded before it. -/
  nested : b.exceptions.added.toList.Pairwise fun c c' => ∀ p ∈ c'.marks, Around c.marks p

namespace Nested

variable {b b' : Builder}

theorem start (inherited : List ExceptionClause) : Nested (Builder.start ⟨inherited, #[]⟩) where
  inOrder := fun _ hr => absurd hr List.not_mem_nil
  behind := .nil
  sorted := fun _ hc => absurd hc List.not_mem_nil
  complete := fun _ hc => absurd hc List.not_mem_nil
  nested := .nil

theorem opened (h : Nested b) {r : Region} (hmarks : r.marks = [b.size])
    (hregions : b'.regions = r :: b.regions) (hexceptions : b'.exceptions = b.exceptions)
    (hsize : b.size ≤ b'.size) : Nested b' where
  inOrder := by
    rw [hregions]
    intro r' hr'
    rcases List.mem_cons.mp hr' with rfl | hr'
    · unfold Region.InOrder
      rw [hmarks]
      simpa using hsize
    · exact (h.inOrder r' hr').mono hsize
  behind := by
    rw [hregions]
    refine List.pairwise_cons.mpr ⟨fun outer houter p hp m hm => ?_, h.behind⟩
    rw [hmarks] at hm
    rw [List.mem_singleton.mp hm]
    exact (h.inOrder outer houter).le hp
  sorted := by
    rw [hexceptions]
    exact h.sorted
  complete := by
    rw [hexceptions]
    exact fun c hc => (h.complete c hc).marked (.opened hmarks hregions hexceptions) hsize
  nested := by
    rw [hexceptions]
    exact h.nested

theorem advanced (h : Nested b) {r r' : Region} {outer : List Region}
    (hopen : b.regions = r :: outer) (hmarks : r'.marks = r.marks ++ [b.size])
    (hregions : b'.regions = r' :: outer) (hexceptions : b'.exceptions = b.exceptions)
    (hsize : b.size ≤ b'.size) : Nested b' where
  inOrder := by
    have hinOrder := h.inOrder
    rw [hopen] at hinOrder
    rw [hregions]
    intro q hq
    rcases List.mem_cons.mp hq with rfl | hq
    · have hr := hinOrder r List.mem_cons_self
      unfold Region.InOrder
      rw [hmarks]
      refine List.pairwise_append.mpr ⟨hr, List.pairwise_singleton _ _, fun m hm p hp => ?_⟩
      rw [List.mem_singleton.mp hp]
      rcases List.mem_append.mp hm with hm | hm
      · exact Nat.le_trans (hr.le hm) hsize
      · rw [List.mem_singleton.mp hm]
        exact hsize
    · exact (hinOrder q (List.mem_cons_of_mem _ hq)).mono hsize
  behind := by
    have hinOrder := h.inOrder
    have hbehind := h.behind
    rw [hopen] at hinOrder hbehind
    obtain ⟨hfirst, hrest⟩ := List.pairwise_cons.mp hbehind
    rw [hregions]
    refine List.pairwise_cons.mpr ⟨fun q hq p hp m hm => ?_, hrest⟩
    rw [hmarks] at hm
    rcases List.mem_append.mp hm with hm | hm
    · exact hfirst q hq p hp m hm
    · rw [List.mem_singleton.mp hm]
      exact (hinOrder q (List.mem_cons_of_mem _ hq)).le hp
  sorted := by
    rw [hexceptions]
    exact h.sorted
  complete := by
    rw [hexceptions]
    exact fun c hc => (h.complete c hc).marked (.advanced hopen hmarks hregions hexceptions) hsize
  nested := by
    rw [hexceptions]
    exact h.nested

/-- A clause that was just recorded is complete: the regions around it started earlier. -/
theorem complete_of_closed (h : Nested b) {r : Region} {outer : List Region}
    {c : ExceptionClause} (hopen : b.regions = r :: outer)
    (hmarks : c.marks = r.marks ++ [b.size]) (hregions : b'.regions = outer)
    (hsize : b.size ≤ b'.size) : Complete c.marks b' := by
  have hinOrder := h.inOrder
  have hbehind := h.behind
  rw [hopen] at hinOrder hbehind
  rw [hmarks]
  constructor
  · intro m hm
    rcases List.mem_append.mp hm with hm | hm
    · exact Nat.le_trans ((hinOrder r List.mem_cons_self).le hm) hsize
    · rw [List.mem_singleton.mp hm]
      exact hsize
  · rw [hregions]
    intro q hq p hp
    left
    intro m hm
    rcases List.mem_append.mp hm with hm | hm
    · exact (List.pairwise_cons.mp hbehind).1 q hq p hp m hm
    · rw [List.mem_singleton.mp hm]
      exact (hinOrder q (List.mem_cons_of_mem _ hq)).le hp

theorem closed (h : Nested b) {r : Region} {outer : List Region} {c : ExceptionClause}
    (hopen : b.regions = r :: outer) (hmarks : c.marks = r.marks ++ [b.size])
    (hregions : b'.regions = outer) (hexceptions : b'.exceptions = b.exceptions.add c)
    (hsize : b.size ≤ b'.size) : Nested b' := by
  have hmem : ∀ c' ∈ b'.exceptions.added.toList,
      c' ∈ b.exceptions.added.toList ∨ c' = c := by
    intro c' hc'
    rw [hexceptions] at hc'
    rcases List.mem_append.mp (Array.toList_push ▸ hc') with hc' | hc'
    · exact .inl hc'
    · exact .inr (List.mem_singleton.mp hc')
  constructor
  · rw [hregions]
    exact fun q hq => (h.inOrder q (by rw [hopen]; exact List.mem_cons_of_mem _ hq)).mono hsize
  · have hbehind := h.behind
    rw [hopen] at hbehind
    rw [hregions]
    exact (List.pairwise_cons.mp hbehind).2
  · intro c' hc'
    rcases hmem c' hc' with hc' | rfl
    · exact h.sorted c' hc'
    · rw [hmarks]
      exact h.inOrder r (by rw [hopen]; exact List.mem_cons_self)
  · intro c' hc'
    rcases hmem c' hc' with hc' | rfl
    · exact (h.complete c' hc').marked (.closed hopen hmarks hregions hexceptions) hsize
    · exact h.complete_of_closed hopen hmarks hregions hsize
  · rw [hexceptions]
    show (b.exceptions.added.push c).toList.Pairwise _
    rw [Array.toList_push]
    refine List.pairwise_append.mpr ⟨h.nested, List.pairwise_singleton _ _, fun c' hc' d hd => ?_⟩
    rw [List.mem_singleton.mp hd, hmarks]
    exact (h.complete c' hc').around_next hopen

theorem of_change (h : Nested b) (hchange : Change b b') : Nested b' := by
  have hsize := size_le_of_prefix hchange.items_prefix
  have hmarked := hchange.marked h.inOrder
  cases hmarked with
  | same hregions hexceptions =>
    refine ⟨?_, ?_, ?_, ?_, ?_⟩
    · rw [hregions]
      exact fun r hr => (h.inOrder r hr).mono hsize
    · rw [hregions]
      exact h.behind
    · rw [hexceptions]
      exact h.sorted
    · rw [hexceptions]
      exact fun c hc => (h.complete c hc).marked (.same hregions hexceptions) hsize
    · rw [hexceptions]
      exact h.nested
  | opened hmarks hregions hexceptions => exact h.opened hmarks hregions hexceptions hsize
  | advanced hopen hmarks hregions hexceptions =>
    exact h.advanced hopen hmarks hregions hexceptions hsize
  | closed hopen hmarks hregions hexceptions =>
    exact h.closed hopen hmarks hregions hexceptions hsize

end Nested

/-! Ranges. -/

namespace ExceptionClause

/-- The clause `c` may stand in front of `c'`: as a whole it is inside of one of the two ranges
of `c'` or apart from both, and it does not enclose `c'`. -/
structure Precedes (c c' : ExceptionClause) : Prop where
  nested : c.span.Apart c'.tryRange ∧ c.span.Apart c'.handlerRange ∨
    c.span.Within c'.tryRange ∨ c.span.Within c'.handlerRange
  inside : c.span.Apart c'.span ∨ c.span.Within c'.span

/-- Each range of `c` is apart from or inside of each range of `a`, and encloses none that is
not empty, unless it is the same. -/
def Respects (c a : ExceptionClause) : Prop :=
  ∀ r ∈ [c.tryRange, c.handlerRange], ∀ r' ∈ [a.tryRange, a.handlerRange],
    (r.Apart r' ∨ r.Within r') ∧ (r'.start < r'.stop → r'.Within r → r' = r)

end ExceptionClause

/-- A range between marks of `k` is apart from or inside of one that ends around all of `k`. -/
theorem apart_or_within {k : List Nat} {r r' : CodeRange} (hlow : ∃ m ∈ k, m ≤ r.start)
    (hhigh : ∃ m ∈ k, r.stop ≤ m) (hstart : Around k r'.start) (hstop : Around k r'.stop) :
    r.Apart r' ∨ r.Within r' := by
  obtain ⟨lo, hlo, hle⟩ := hlow
  obtain ⟨hi, hhi, hge⟩ := hhigh
  unfold CodeRange.Apart CodeRange.Within
  rcases hstart with hfront | hbehind
  · rcases hstop with hfront' | hbehind'
    · have := hfront' lo hlo
      omega
    · have := hfront lo hlo
      have := hbehind' hi hhi
      omega
  · have := hbehind hi hhi
    omega

namespace Nested

variable {b : Builder}

/-- A recorded clause has its handler behind its try block, and both in the code. -/
theorem clause_le (h : Nested b) {c : ExceptionClause} (hc : c ∈ b.exceptions.added.toList) :
    c.tryRange.stop ≤ c.handlerRange.start ∧ c.handlerRange.stop ≤ b.size := by
  have hsorted := h.sorted c hc
  have hset := (h.complete c hc).set
  simp only [ExceptionClause.marks, List.pairwise_cons, List.forall_mem_cons] at hsorted hset
  exact ⟨hsorted.2.1.1, hset.2.2.2.1⟩

/-- Clauses are nested in the order in which they are recorded. -/
theorem precedes (h : Nested b) :
    b.exceptions.added.toList.Pairwise ExceptionClause.Precedes := by
  refine h.nested.imp_of_mem fun {c c'} hc hc' haround => ?_
  simp only [ExceptionClause.marks, List.forall_mem_cons] at haround
  obtain ⟨hstart, hstop, hhandler, hfinish, -⟩ := haround
  have hspan : ∀ {r : CodeRange}, Around c.marks r.start → Around c.marks r.stop →
      c.span.Apart r ∨ c.span.Within r :=
    apart_or_within ⟨c.tryOffset.toNat, by simp [ExceptionClause.marks], Nat.le_refl _⟩
      ⟨c.handlerOffset.toNat + c.handlerLength.toNat, by simp [ExceptionClause.marks],
        Nat.le_refl _⟩
  refine ⟨?_, hspan hstart hfinish⟩
  have htry : c.span.Apart c'.tryRange ∨ c.span.Within c'.tryRange := hspan hstart hstop
  have hlast : c.span.Apart c'.handlerRange ∨ c.span.Within c'.handlerRange :=
    hspan hhandler hfinish
  rcases htry with hapart | hwithin
  · rcases hlast with hapart' | hwithin
    · exact .inl ⟨hapart, hapart'⟩
    · exact .inr (.inr hwithin)
  · exact .inr (.inl hwithin)

end Nested

/-- A clause moved with the own code respects the clauses whose marks are around that code. -/
theorem ExceptionClause.MovedBy.respects {inherited moved c : ExceptionClause}
    {offset length : Nat} (hmoved : MovedBy offset inherited moved) (hin : inherited.LiesIn length)
    (haround : ∀ p ∈ c.marks, Around [offset, offset + length] p) : moved.Respects c := by
  simp only [marks, List.forall_mem_cons] at haround
  obtain ⟨hstart, hstop, hhandler, hfinish, -⟩ := haround
  -- both ranges of the moved clause lie between the ends of the own code
  have hlow : ∀ r ∈ [moved.tryRange, moved.handlerRange],
      offset ≤ r.start ∧ r.stop ≤ offset + length := by
    have htry := hmoved.tryOffset
    have hhandler := hmoved.handlerOffset
    obtain ⟨hstop, hfinish⟩ := hin
    simp only [tryRange, handlerRange] at hstop hfinish
    rw [← hmoved.tryLength] at hstop
    rw [← hmoved.handlerLength] at hfinish
    intro r hr
    simp only [List.mem_cons, List.not_mem_nil, or_false] at hr
    rcases hr with rfl | rfl
    · exact ⟨by show offset ≤ moved.tryOffset.toNat; omega,
        by show moved.tryOffset.toNat + moved.tryLength.toNat ≤ _; omega⟩
    · exact ⟨by show offset ≤ moved.handlerOffset.toNat; omega,
        by show moved.handlerOffset.toNat + moved.handlerLength.toNat ≤ _; omega⟩
  have hends : ∀ r' ∈ [c.tryRange, c.handlerRange],
      Around [offset, offset + length] r'.start ∧ Around [offset, offset + length] r'.stop := by
    intro r' hr'
    simp only [List.mem_cons, List.not_mem_nil, or_false] at hr'
    rcases hr' with rfl | rfl
    · exact ⟨hstart, hstop⟩
    · exact ⟨hhandler, hfinish⟩
  intro r hr r' hr'
  obtain ⟨hstart', hstop'⟩ := hends r' hr'
  obtain ⟨hrstart, hrstop⟩ := hlow r hr
  have hsplit : r.Apart r' ∨ r.Within r' := apart_or_within ⟨offset, by simp, hrstart⟩
    ⟨offset + length, by simp, hrstop⟩ hstart' hstop'
  refine ⟨hsplit, fun hne hwithin => ?_⟩
  obtain ⟨start, stop⟩ := r
  obtain ⟨start', stop'⟩ := r'
  unfold CodeRange.Apart CodeRange.Within at hsplit
  unfold CodeRange.Within at hwithin
  simp only at hsplit hwithin hne
  rw [CodeRange.mk.injEq]
  omega

/-- A section with clauses of the own code needs that code. -/
theorem Builder.hasOwnCode_of_sectionBytes {b : Builder} {sections : List UInt8}
    (h : b.sectionBytes = .ok sections) (hne : b.exceptions.inherited ≠ []) :
    b.hasOwnCode = true := by
  unfold Builder.sectionBytes at h
  split at h
  · cases h
  next hcode =>
  rw [List.isEmpty_eq_false_iff.mpr hne] at hcode
  simpa using hcode

/-! Runs. -/

namespace Action

open Step Emit

variable {σ : Type} [Resolver σ]

theorem nested_run (acts : List (Action σ)) {s : Emission σ} (h : Nested s.builder) :
    Nested (run acts s).builder :=
  run_keeps (P := Nested) (fun hchange hb => hb.of_change hchange) acts h

/-- What is complete in front of a run is respected by the clauses that the run records. -/
theorem around_run {k : List Nat} (acts : List (Action σ)) {s : Emission σ}
    (hnested : Nested s.builder) (hcomplete : Complete k s.builder)
    (hclauses : ∀ c ∈ s.builder.exceptions.added.toList, ∀ p ∈ c.marks, Around k p) :
    ∀ c ∈ (run acts s).builder.exceptions.added.toList, ∀ p ∈ c.marks, Around k p := by
  have hall := run_keeps (P := fun b => Nested b ∧ Complete k b ∧
    ∀ c ∈ b.exceptions.added.toList, ∀ p ∈ c.marks, Around k p) ?_ acts
    ⟨hnested, hcomplete, hclauses⟩
  · exact hall.2.2
  · intro b b' hchange hb
    obtain ⟨hnested, hcomplete, hclauses⟩ := hb
    have hmarked := hchange.marked hnested.inOrder
    have hsize := size_le_of_prefix hchange.items_prefix
    exact ⟨hnested.of_change hchange, hcomplete.marked hmarked hsize,
      hcomplete.clauses hmarked hclauses⟩

/-- No clause has a mark inside of the method's own code. -/
theorem around_ownCode {acts : List (Action σ)} {s : Emission σ} (hnested : Nested s.builder)
    {p : Nat} {ownCode : List UInt8} (h : (p, ownCode) ∈ history spliced? acts s) :
    ∀ c ∈ (run acts s).builder.exceptions.added.toList, ∀ m ∈ c.marks,
      Around [p, p + ownCode.length] m := by
  obtain ⟨before, a, behind, rfl, hnote⟩ := mem_history.mp h
  have hbefore := nested_run before hnested
  rw [run_append, run_cons]
  generalize run before s = t at hnote hbefore ⊢
  obtain ⟨rfl, -, hbuilder⟩ := spliced_of_note hnote
  have hsize : (a.perform.after t).builder.size = t.builder.size + ownCode.length := by
    rw [hbuilder]
    rfl
  -- all marks are set in front of the code that is spliced in
  have hfront : ∀ {m : Nat}, m ≤ t.builder.size →
      Around [t.builder.size, t.builder.size + ownCode.length] m := by
    intro m hm
    left
    intro x hx
    simp only [List.mem_cons, List.not_mem_nil, or_false] at hx
    omega
  have hnested' := nested_run [a] hbefore
  refine around_run behind hnested' ⟨?_, ?_⟩ ?_
  · intro m hm
    rw [hsize]
    simp only [List.mem_cons, List.not_mem_nil, or_false] at hm
    omega
  · rw [hbuilder]
    exact fun r hr p hp => hfront ((hbefore.inOrder r hr).le hp)
  · rw [hbuilder]
    exact fun c hc p hp => hfront ((hbefore.complete c hc).set p hp)

theorem inherited_run (acts : List (Action σ)) (s : Emission σ) :
    (run acts s).builder.exceptions.inherited = s.builder.exceptions.inherited :=
  run_respects (R := fun b b' => b'.exceptions.inherited = b.exceptions.inherited) (fun _ => rfl)
    (fun h h' => h'.trans h) (fun hchange => by
      rcases hchange.exceptions with hsame | ⟨c, -, hadd⟩
      · rw [hsame]
      · rw [hadd]
        rfl) acts s

/-- The section for a run's code has the inherited clauses first, moved with the own code. -/
theorem sectionOf_of_sectionBytes {acts : List (Action σ)} {s : Emission σ}
    {sections : List UInt8} (hnone : s.builder.spliceOffset = none)
    (h : (run acts s).builder.sectionBytes = .ok sections) :
    ∃ moved, List.Forall₂ (ExceptionClause.MovedBy (run acts s).builder.ownCodeOffset)
        s.builder.exceptions.inherited moved ∧
      sections = ExceptionTable.sectionOf
        (moved ++ (run acts s).builder.exceptions.added.toList) := by
  have hoffset : (UInt32.ofNat (run acts s).builder.ownCodeOffset).toNat =
      (run acts s).builder.ownCodeOffset := by
    unfold Builder.ownCodeOffset
    cases hsome : (run acts s).builder.spliceOffset with
    | none => rfl
    | some p =>
      obtain ⟨ownCode, hmem⟩ := mem_of_spliceOffset hnone hsome
      obtain ⟨before, a, behind, -, hnote⟩ := mem_history.mp hmem
      exact UInt32.toNat_ofNat_of_lt' (spliced_of_note hnote).2.1
  unfold Builder.sectionBytes at h
  split at h
  · cases h
  obtain ⟨moved, hmapped, -, hbytes⟩ := ExceptionTable.encode_ok.mp h
  have hmoved := ExceptionTable.movedBy_of_mapM hmapped
  rw [hoffset, inherited_run] at hmoved
  exact ⟨moved, hmoved, hbytes⟩

/-- Whatever was done, and however much of it was refused: the marks of every region are in
order at all times, so that lengths are differences of a later and an earlier mark; a recorded
clause has its handler behind its try block; the clauses are nested from the inside out; and
in the section that is written the clauses of the own code, which come first, respect the
clauses that were added around them. -/
theorem clauses_nested {inherited : List ExceptionClause} {acts : List (Action σ)}
    {s : Emission σ} (hstart : s.builder = .start ⟨inherited, #[]⟩)
    (hin : ∀ p ownCode, (p, ownCode) ∈ history spliced? acts s →
      ∀ c ∈ inherited, c.LiesIn ownCode.length) :
    let b := (run acts s).builder
    let added := b.exceptions.added.toList
    (∀ before behind, acts = before ++ behind →
      ∀ r ∈ (run before s).builder.regions, r.InOrder (run before s).builder.size) ∧
    (∀ c ∈ added, c.tryRange.stop ≤ c.handlerRange.start ∧ c.handlerRange.stop ≤ b.size) ∧
    added.Pairwise ExceptionClause.Precedes ∧
    ∀ sections, b.sectionBytes = .ok sections → ∃ moved,
      List.Forall₂ (ExceptionClause.MovedBy b.ownCodeOffset) inherited moved ∧
      sections = ExceptionTable.sectionOf (moved ++ added) ∧
      ∀ c ∈ moved, ∀ a ∈ added, c.Respects a := by
  intro b added
  have hnested : Nested s.builder := by
    rw [hstart]
    exact .start inherited
  refine ⟨?_, fun c hc => (nested_run acts hnested).clause_le hc,
    (nested_run acts hnested).precedes, ?_⟩
  · rintro before behind rfl
    exact (nested_run before hnested).inOrder
  · intro sections hsections
    have hnone : s.builder.spliceOffset = none := by
      rw [hstart]
      rfl
    obtain ⟨moved, hmoved, hbytes⟩ := sectionOf_of_sectionBytes hnone hsections
    rw [show s.builder.exceptions.inherited = inherited by rw [hstart]; rfl] at hmoved
    refine ⟨moved, hmoved, hbytes, fun c hc a ha => ?_⟩
    obtain ⟨c₀, hc₀, hby⟩ := ExceptionTable.exists_of_mem_right hmoved hc
    -- a clause of the own code is only written if that code was spliced in
    obtain ⟨p, hp⟩ := Option.isSome_iff_exists.mp (Builder.hasOwnCode_of_sectionBytes hsections
      (by rw [inherited_run, hstart]; exact List.ne_nil_of_mem hc₀))
    obtain ⟨ownCode, hmem⟩ := mem_of_spliceOffset hnone hp
    have hoffset : b.ownCodeOffset = p := by
      unfold Builder.ownCodeOffset
      rw [hp, Option.getD_some]
    rw [hoffset] at hby
    exact hby.respects (hin p ownCode hmem c₀ hc₀) (around_ownCode hnested hmem a ha)

/-- A finally clause of the own code. -/
def finallyClause : ExceptionClause := ⟨2, 0, 2, 2, 3, 0⟩

/-- A region with another one in its try block, which also holds the own code; the attempt to
end a handler that is not open is refused. -/
def nestedRun : List (Action StoredMethod) :=
  [.createLabel, .createLabel, .startTry, .startTry, .plain .nop, .jumpTo .leave 0, .endTry,
   .startHandler, .plain .pop, .jumpTo .leave 0, .endHandler, .placeLabel 0, .endHandler,
   .splice [0x14, 0x26, 0xDE, 0x01, 0xDC, 0x2A], .endTry, .startHandler, .plain .pop,
   .jumpTo .leave 1, .endHandler, .placeLabel 1, .plain .ret]

theorem clauses_nested_nestedRun :
    let s : Emission StoredMethod := ⟨.empty, .start ⟨[finallyClause], #[]⟩⟩
    let added := (run nestedRun s).builder.exceptions.added.toList
    (∀ p ownCode, (p, ownCode) ∈ history spliced? nestedRun s →
      ∀ c ∈ [finallyClause], c.LiesIn ownCode.length) ∧
    added.length = 2 ∧ added.Pairwise ExceptionClause.Precedes ∧
    ∃ sections moved, (run nestedRun s).builder.sectionBytes = .ok sections ∧ moved.length = 1 ∧
      sections = ExceptionTable.sectionOf (moved ++ added) ∧
      ∀ c ∈ moved, ∀ a ∈ added, c.Respects a := by
  intro s added
  have hspliced : history spliced? nestedRun s = [(12, [0x14, 0x26, 0xDE, 0x01, 0xDC, 0x2A])] := by
    decide +kernel
  have hin : ∀ p ownCode, (p, ownCode) ∈ history spliced? nestedRun s →
      ∀ c ∈ [finallyClause], c.LiesIn ownCode.length := by
    intro p ownCode hmem c hc
    rw [hspliced, List.mem_singleton, Prod.mk.injEq] at hmem
    rw [hmem.2, List.mem_singleton.mp hc]
    exact ⟨by decide, by decide⟩
  have hadded : added.length = 2 := by decide +kernel
  obtain ⟨-, -, hprecedes, hsections⟩ := clauses_nested rfl hin
  have hok : (run nestedRun s).builder.sectionBytes.toOption.isSome = true := by decide +kernel
  cases hbytes : (run nestedRun s).builder.sectionBytes with
  | error e =>
    rw [hbytes] at hok
    cases hok
  | ok sections =>
    obtain ⟨moved, hmoved, hsection, hrespects⟩ := hsections sections hbytes
    exact ⟨hin, hadded, hprecedes, sections, moved, rfl, hmoved.length_eq.symm, hsection, hrespects⟩

end Action

end CilInstrument
