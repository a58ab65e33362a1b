import CilInstrument.Proofs.RecordedEffects
import CilInstrument.Proofs.StoredMethod

/- The stack depth that the builder follows is the depth on every path. The builder goes
   over the code once, with one depth and one flag, while control takes any path. What
   links the two is a map from positions to depths (`Mapped`): it says nothing of code
   that can not be reached, agrees with the depth that the builder has at the end of the
   code, and is respected by every entry of the code and every label. Each action of an
   orderly run extends such a map (`Mapped.append`, `Mapped.enter`), and along a path the
   depth is the one of the map (`Mapped.of_reaches`). The effects along the paths are those
   of the actions (`Action.effects_run`). -/
namespace CilInstrument

/-- What a map has to say about an entry at `p` that is entered with `d` values. -/
structure Fits (b : Builder) (map : Nat → Option Nat) (p : Nat) (item : CodeItem) (d : Nat) :
    Prop where
  pops : item.pops ≤ d
  empty : ∀ code, item = .splice code → d = 0
  after : ∃ n : Nat, item.depthAfter d = n ∧ n ≤ b.maxDepth ∧
    (item.falls = true → map (p + item.size) = some n) ∧
    ∀ op label, item = .jump op label → b.expected label = some n

/-- What was said of an entry stays said when the map and the labels know more. -/
theorem Fits.mono {b b' : Builder} {map map' : Nat → Option Nat} {p d : Nat} {item : CodeItem}
    (h : Fits b map p item d) (hmax : b.maxDepth ≤ b'.maxDepth)
    (hmap : ∀ q n, map q = some n → map' q = some n)
    (hkept : ∀ l n, b.expected l = some n → b'.expected l = some n) : Fits b' map' p item d := by
  obtain ⟨hpops, hempty, n, hn, hle, hfalls, hjump⟩ := h
  refine ⟨hpops, hempty, n, hn, Nat.le_trans hle hmax, ?_, ?_⟩
  · intro hf
    exact hmap _ n (hfalls hf)
  · intro op label heq
    exact hkept label n (hjump op label heq)

/-- `map` tells the stack depth at all positions that can be reached. -/
structure Mapped (b : Builder) (handlers : List Nat) (map : Nat → Option Nat) : Prop where
  entry : map 0 = some 0
  handler : ∀ p ∈ handlers, map p = some 1
  label : ∀ l p d, b.place l = some p → b.expected l = some d → map p = some d
  le_max : ∀ p d, map p = some d → d ≤ b.maxDepth
  expected_le : ∀ l d, b.expected l = some d → d ≤ b.maxDepth
  size_pos : ∀ p item, b.code.ItemAt p item → 0 < item.size
  fits : ∀ p item d, b.code.ItemAt p item → map p = some d → Fits b map p item d
  here : b.reachable = true → map b.size = some b.depth
  dead : b.reachable = false → map b.size = none
  beyond : ∀ p, b.size < p → map p = none

namespace Mapped

variable {b b' : Builder} {handlers : List Nat} {map : Nat → Option Nat}

theorem le_size (h : Mapped b handlers map) {p d : Nat} (hp : map p = some d) : p ≤ b.size := by
  apply Nat.le_of_not_lt
  intro hlt
  rw [h.beyond p hlt] at hp
  cases hp

/-- Only reached code has a depth, and at the end of the code it is the builder's. -/
theorem reached (h : Mapped b handlers map) {d : Nat} (hp : map b.size = some d) :
    b.reachable = true ∧ d = b.depth := by
  have hr : b.reachable = true := by
    rw [← Bool.not_eq_false]
    intro hr
    rw [h.dead hr] at hp
    cases hp
  refine ⟨hr, ?_⟩
  rw [h.here hr] at hp
  exact (Option.some.inj hp).symm

theorem start (exceptions : ExceptionTable) :
    Mapped (.start exceptions) [] fun p => if p = 0 then some 0 else none where
  entry := rfl
  handler := fun p hp => absurd hp List.not_mem_nil
  label := by
    intro l p d hplace
    cases hplace
  le_max := by
    intro p d hp
    split at hp
    · cases hp
      exact Nat.le_refl 0
    · cases hp
  expected_le := by
    intro l d hd
    cases hd
  size_pos := fun p item hitem => absurd hitem.mem List.not_mem_nil
  fits := fun p item d hitem => absurd hitem.mem List.not_mem_nil
  here := fun _ => rfl
  dead := by
    intro hr
    cases hr
  beyond := fun p hp => if_neg (Nat.ne_of_gt hp)

/-- Steps that leave code, labels and depths alone keep the map. -/
theorem congr (h : Mapped b handlers map) (hcode : b'.code = b.code) (hlabels : b'.labels = b.labels)
    (hdepth : b'.depth = b.depth) (hmax : b'.maxDepth = b.maxDepth)
    (hr : b'.reachable = b.reachable) : Mapped b' handlers map := by
  have hplace : b'.place = b.place := by
    unfold Builder.place
    rw [hlabels]
  have hexpected : b'.expected = b.expected := by
    unfold Builder.expected
    rw [hlabels]
  have hsize : b'.size = b.size := by
    unfold Builder.size
    rw [hcode]
  constructor
  · exact h.entry
  · exact h.handler
  · rw [hplace, hexpected]
    exact h.label
  · rw [hmax]
    exact h.le_max
  · rw [hexpected, hmax]
    exact h.expected_le
  · rw [hcode]
    exact h.size_pos
  · intro p item d hitem hp
    rw [hcode] at hitem
    refine (h.fits p item d hitem hp).mono (Nat.le_of_eq hmax.symm) (fun _ _ hq => hq) ?_
    rw [hexpected]
    exact fun _ _ hd => hd
  · rw [hr, hsize, hdepth]
    exact h.here
  · rw [hr, hsize]
    exact h.dead
  · rw [hsize]
    exact h.beyond

/-- One more entry: reached code goes on behind it with the new depth, and code that can
not be reached stays so. -/
theorem append (h : Mapped b handlers map) (item : CodeItem) (hpos : 0 < item.size)
    (hcode : b'.code = b.code.push item) (hplace : ∀ l, b'.place l = b.place l)
    (hmax : b.maxDepth ≤ b'.maxDepth)
    (hkept : ∀ l d, b.expected l = some d → b'.expected l = some d)
    (hnew : ∀ l d, b'.expected l = some d →
      d ≤ b'.maxDepth ∧ (b.expected l = some d ∨ b.place l = none))
    (hflow : b'.reachable = (b.reachable && item.falls))
    (hfits : b.reachable = true →
      item.pops ≤ b.depth ∧ (∀ code, item = .splice code → b.depth = 0) ∧
      item.depthAfter b.depth = b'.depth ∧ b'.depth ≤ b'.maxDepth ∧
      ∀ op label, item = .jump op label → b'.expected label = some b'.depth) :
    ∃ map, Mapped b' handlers map := by
  have hsize : b'.size = b.size + item.size := by
    unfold Builder.size
    rw [hcode]
    rfl
  let map' : Nat → Option Nat := fun p =>
    if p = b'.size ∧ b'.reachable = true then some b'.depth else map p
  -- up to the old end of the code nothing changes
  have hbefore : ∀ p, p ≤ b.size → map' p = map p := by
    intro p hp
    apply if_neg
    intro h
    obtain ⟨rfl, -⟩ := h
    omega
  have hold : ∀ {p d}, map p = some d → map' p = some d := by
    intro p d hp
    rw [hbefore p (h.le_size hp), hp]
  have hend : map' b'.size = if b'.reachable = true then some b'.depth else none := by
    show (if _ then _ else map b'.size) = _
    rw [h.beyond b'.size (by omega)]
    simp
  refine ⟨map', ?_⟩
  constructor
  case entry => exact hold h.entry
  case handler => exact fun p hp => hold (h.handler p hp)
  case label =>
    intro l p d hp hd
    rw [hplace] at hp
    rcases (hnew l d hd).2 with hd | hnone
    · exact hold (h.label l p d hp hd)
    · rw [hnone] at hp
      cases hp
  case le_max =>
    intro p d hp
    by_cases hnext : p = b'.size ∧ b'.reachable = true
    · obtain ⟨rfl, hr⟩ := hnext
      rw [hend, if_pos hr] at hp
      cases hp
      rw [hflow, Bool.and_eq_true] at hr
      exact (hfits hr.1).2.2.2.1
    · have hp' : map p = some d := by
        rw [← hp]
        exact (if_neg hnext).symm
      exact Nat.le_trans (h.le_max p d hp') hmax
  case expected_le => exact fun l d hd => (hnew l d hd).1
  case size_pos =>
    intro p it hit
    rw [hcode, Code.itemAt_push] at hit
    rcases hit with hit | ⟨-, rfl⟩
    · exact h.size_pos p it hit
    · exact hpos
  case fits =>
    intro p it d hit hp
    rw [hcode, Code.itemAt_push] at hit
    -- an entry from before, or the one that is appended
    rcases hit with hit | ⟨rfl, rfl⟩
    · have hbound : p + it.size ≤ b.size := hit.bound
      rw [hbefore p (by omega)] at hp
      exact (h.fits p it d hit hp).mono hmax (fun _ _ hq => hold hq) hkept
    · have hp' : map b.size = some d := (hbefore b.size (Nat.le_refl _)).symm.trans hp
      obtain ⟨hr, rfl⟩ := h.reached hp'
      obtain ⟨hpops, hempty, hafter, hle, hjump⟩ := hfits hr
      refine ⟨hpops, hempty, b'.depth, hafter, hle, fun hf => ?_, hjump⟩
      show map' (b.size + it.size) = some b'.depth
      rw [← hsize, hend, if_pos (by rw [hflow, hr, hf]; rfl)]
  case here =>
    intro hr
    rw [hend, if_pos hr]
  case dead =>
    intro hr
    rw [hend, hr]
    rfl
  case beyond =>
    intro p hp
    have hne : ¬(p = b'.size ∧ b'.reachable = true) := fun heq => Nat.ne_of_gt hp heq.1
    show (if _ then _ else map p) = none
    rw [if_neg hne, h.beyond p (by omega)]

/-- The end of the code is entered with `b'.depth` values, by falling through or not. -/
theorem enter (h : Mapped b handlers map) {handlers' : List Nat} (hcode : b'.code = b.code)
    (hr' : b'.reachable = true) (hdepth : b.reachable = true → b.depth = b'.depth)
    (hmax : b.maxDepth ≤ b'.maxDepth) (hle : b'.depth ≤ b'.maxDepth)
    (hkept : ∀ l d, b.expected l = some d → b'.expected l = some d)
    (hbound : ∀ l d, b'.expected l = some d → d ≤ b'.maxDepth)
    (hlabel : ∀ l p d, b'.place l = some p → b'.expected l = some d →
      b.place l = some p ∧ b.expected l = some d ∨ p = b.size ∧ d = b'.depth)
    (hhandlers : ∀ p ∈ handlers', p ∈ handlers ∨ p = b.size ∧ b'.depth = 1) :
    ∃ map, Mapped b' handlers' map := by
  have hsize : b'.size = b.size := by
    unfold Builder.size
    rw [hcode]
  let map' : Nat → Option Nat := fun p => if p = b.size then some b'.depth else map p
  have hend : map' b.size = some b'.depth := if_pos rfl
  -- the end of the code had that depth, or none
  have hold : ∀ {p d}, map p = some d → map' p = some d := by
    intro p d hp
    by_cases heq : p = b.size
    · subst heq
      obtain ⟨hr, rfl⟩ := h.reached hp
      rw [hend, hdepth hr]
    · show (if _ then _ else map p) = some d
      rw [if_neg heq, hp]
  refine ⟨map', ?_⟩
  constructor
  case entry => exact hold h.entry
  case handler =>
    intro p hp
    rcases hhandlers p hp with hp | ⟨rfl, hone⟩
    · exact hold (h.handler p hp)
    · rw [hend, hone]
  case label =>
    intro l p d hp hd
    rcases hlabel l p d hp hd with ⟨hp, hd⟩ | ⟨rfl, rfl⟩
    · exact hold (h.label l p d hp hd)
    · exact hend
  case le_max =>
    intro p d hp
    by_cases heq : p = b.size
    · rw [heq, hend] at hp
      cases hp
      exact hle
    · have hp' : map p = some d := by
        rw [← hp]
        exact (if_neg heq).symm
      exact Nat.le_trans (h.le_max p d hp') hmax
  case expected_le => exact hbound
  case size_pos =>
    rw [hcode]
    exact h.size_pos
  case fits =>
    intro p item d hitem hp
    rw [hcode] at hitem
    -- an entry is not empty, so it begins before the end of the code
    have hitemBound : p + item.size ≤ b.size := hitem.bound
    have hpos := h.size_pos p item hitem
    have hp' : map p = some d := by
      rw [← hp]
      exact (if_neg (by omega)).symm
    exact (h.fits p item d hitem hp').mono hmax (fun _ _ hq => hold hq) hkept
  case here =>
    intro _
    rw [hsize, hend]
  case dead =>
    intro hr
    rw [hr'] at hr
    cases hr
  case beyond =>
    intro p hp
    rw [hsize] at hp
    show (if _ then _ else map p) = none
    rw [if_neg (Nat.ne_of_gt hp), h.beyond p hp]

/-- Along every path the depth is the one of the map. -/
theorem of_reaches (h : Mapped b handlers map) {p : Nat} {depth : Int}
    (hreaches : Reaches b handlers p depth) : ∃ d : Nat, depth = d ∧ map p = some d := by
  -- along the path: every entry and every label has its successors in the map
  induction hreaches with
  | entry => exact ⟨0, rfl, h.entry⟩
  | handler hp => exact ⟨1, rfl, h.handler _ hp⟩
  | fall _ hitem hfalls ih =>
    obtain ⟨d, rfl, hp⟩ := ih
    obtain ⟨n, hn, -, hnext, -⟩ := (h.fits _ _ d hitem hp).after
    exact ⟨n, hn, hnext hfalls⟩
  | jump _ hitem hplace ih =>
    obtain ⟨d, rfl, hp⟩ := ih
    obtain ⟨n, hn, -, -, hlabel⟩ := (h.fits _ _ d hitem hp).after
    exact ⟨n, hn, h.label _ _ n hplace (hlabel _ _ rfl)⟩

/-! One lemma for each kind of step. -/

theorem instruction (h : Mapped b handlers map) {op : OpCode} {effect : StackEffect}
    {operand : Operand} (hrun : (Build.emit op effect operand).run b = .ok () b') :
    ∃ map, Mapped b' handlers map := by
  obtain ⟨hpops, -, rfl⟩ := Build.emit_ok.mp hrun
  refine h.append (.instruction op operand effect) (CodeItem.size_pos nofun) rfl
    (fun _ => rfl) (Nat.le_max_left _ _) (fun _ _ hd => hd) (fun l d hd => ⟨?_, .inl hd⟩) rfl
    fun hr => ⟨hpops hr, ?_, ?_, Nat.le_max_right _ _, ?_⟩
  · exact Nat.le_trans (h.expected_le l d hd) (Nat.le_max_left _ _)
  · intro code heq
    cases heq
  · have hle := hpops hr
    show (b.depth : Int) - effect.pops + effect.pushes =
      ((b.depth - effect.pops + effect.pushes : Nat) : Int)
    omega
  · intro op label heq
    cases heq

/-- Nothing is known of a new label. -/
theorem addLabel (h : Mapped b handlers map) : Mapped b.addLabel handlers map := by
  have hplace : b.addLabel.place = b.place := funext (Builder.place_addLabel b)
  have hexpected : b.addLabel.expected = b.expected := funext (Builder.expected_addLabel b)
  constructor
  · exact h.entry
  · exact h.handler
  · rw [hplace, hexpected]
    exact h.label
  · exact h.le_max
  · rw [hexpected]
    exact h.expected_le
  · exact h.size_pos
  · intro p item d hitem hp
    refine (h.fits p item d hitem hp).mono (Nat.le_refl _) (fun _ _ hq => hq) ?_
    rw [hexpected]
    exact fun _ _ hd => hd
  · exact h.here
  · exact h.dead
  · exact h.beyond

/-- A jump to a label that is not placed yet. -/
theorem jump (h : Mapped b handlers map) {op : OpCode} {label : Nat}
    (hjump : Build.Jumped b op label b') (hplace : b.place label = none) :
    ∃ map, Mapped b' handlers map := by
  have hmax : b.maxDepth ≤ b'.maxDepth := by
    rw [hjump.maxDepth]
    exact Nat.le_max_left _ _
  refine h.append (.jump op label) (CodeItem.size_pos nofun) hjump.code hjump.place hmax
    (fun _ _ hd => hjump.expected_of_some hd) ?_ hjump.reachable fun hr => ⟨?_, ?_, ?_, ?_, ?_⟩
  · intro l d hd
    rw [hjump.expected] at hd
    -- only this jump makes something new known, and only of its own label
    split at hd
    · next hl =>
      cases hd
      rw [← hl.1, hjump.maxDepth]
      exact ⟨Nat.le_max_right _ _, .inr hplace⟩
    · exact ⟨Nat.le_trans (h.expected_le l d hd) hmax, .inl hd⟩
  · rw [CodeItem.pops_jump hjump.isJump]
    exact hjump.pops hr
  · intro code heq
    cases heq
  · have hle := hjump.pops hr
    rw [CodeItem.depthAfter_jump hjump.isJump, hjump.depth, Builder.landing]
    split
    · rfl
    · omega
  · rw [hjump.depth, hjump.maxDepth]
    exact Nat.le_max_right _ _
  · intro op' label' heq
    cases heq
    rw [hjump.expected, if_pos ⟨rfl, hr⟩, hjump.depth]

/-- A label is entered by those who jump to it, and by falling through. -/
theorem place (h : Mapped b handlers map) {label : Nat} (hplaced : Build.Placed b label b') :
    ∃ map, Mapped b' handlers map := by
  have hexpected : ∀ l d, b'.expected l = some d → d ≤ b.maxDepth := by
    intro l d hd
    rw [hplaced.expected] at hd
    split at hd
    · next hl =>
      cases hd
      exact h.le_max b.size b.depth (h.here hl.2)
    · exact h.expected_le l d hd
  refine h.enter hplaced.code hplaced.reachable ?_ (Nat.le_of_eq hplaced.maxDepth.symm) ?_
    (fun _ _ hd => hplaced.expected_of_some hd) ?_ ?_ fun p hp => .inl hp
  · intro hr
    rw [hplaced.depth, if_pos hr]
  · rw [hplaced.depth, hplaced.maxDepth]
    split
    · next hr => exact h.le_max b.size b.depth (h.here hr)
    · cases hd : b.expected label with
      | none => exact Nat.zero_le _
      | some d => exact h.expected_le label d hd
  · rw [hplaced.maxDepth]
    exact hexpected
  · intro l p d hp hd
    rw [hplaced.place] at hp
    rw [hplaced.expected] at hd
    by_cases heq : label = l
    · right
      subst heq
      rw [if_pos rfl] at hp
      cases hp
      refine ⟨rfl, ?_⟩
      rw [hplaced.depth]
      split at hd
      · next hr =>
        cases hd
        rw [if_pos hr.2]
      · next hr =>
        rw [if_neg fun h => hr ⟨rfl, h⟩, hd, Option.getD_some]
    · left
      rw [if_neg heq] at hp
      rw [if_neg fun h => heq h.1] at hd
      exact ⟨hp, hd⟩

/-- The method's own code is entered with nothing on the stack, and control does not come
back from it. -/
theorem splice (h : Mapped b handlers map) {ownCode : List UInt8} (hne : ownCode ≠ [])
    (hrun : (Build.splice ownCode).run b = .ok () b') : ∃ map, Mapped b' handlers map := by
  obtain ⟨-, hempty, -, rfl⟩ := Build.splice_ok.mp hrun
  have hpos : 0 < (CodeItem.splice ownCode).size :=
    CodeItem.size_pos fun heq => hne (CodeItem.splice.inj heq)
  refine h.append (.splice ownCode) hpos rfl (fun _ => rfl) (Nat.le_refl _) (fun _ _ hd => hd)
    (fun l d hd => ⟨h.expected_le l d hd, .inl hd⟩) (Bool.and_false _).symm
    fun hr => ⟨Nat.zero_le _, fun _ _ => hempty hr, ?_, Nat.zero_le _, ?_⟩
  · rw [hempty hr]
    rfl
  · intro op label heq
    cases heq

/-- A handler is entered with the exception on the stack, and from nowhere else. -/
theorem startHandler (h : Mapped b handlers map) (hr : b.reachable = false)
    (hrun : Build.startHandler.run b = .ok () b') :
    ∃ map, Mapped b' (handlers ++ [b.size]) map := by
  obtain ⟨start, stop, outer, -, -, rfl⟩ := Build.startHandler_ok.mp hrun
  refine h.enter rfl rfl ?_ (Nat.le_max_left _ _) (Nat.le_max_right _ _) (fun _ _ hd => hd)
    (fun l d hd => Nat.le_trans (h.expected_le l d hd) (Nat.le_max_left _ _))
    (fun _ _ _ hp hd => .inl ⟨hp, hd⟩) ?_
  · intro hr'
    rw [hr] at hr'
    cases hr'
  · intro p hp
    rcases List.mem_append.mp hp with hp | hp
    · exact .inl hp
    · exact .inr ⟨List.mem_singleton.mp hp, rfl⟩

end Mapped

/-! Orderly runs. -/

namespace Action

open Step Emit

variable {σ : Type}

/-- The action keeps the order that code is emitted in; `ended` says that a try block has
just been ended. -/
def inOrder (ended : Bool) (s : Emission σ) : Action σ → Bool
  | jumpTo _ label => (s.builder.place label).isNone
  | startHandler => ended
  | splice ownCode => !ownCode.isEmpty
  | _ => true

/-- A try block has just been ended behind the action, if it was as `ended` says before. -/
def endsTry (ended : Bool) : Action σ → Bool
  | endTry => true
  | ask _ => ended
  | _ => false

variable [Resolver σ]

/-- Every action goes through, jumps go to labels that are not placed yet, a handler starts
right behind its try block, and the method's own code is not empty. -/
def orderly : (ended : Bool) → List (Action σ) → Emission σ → Bool
  | _, [], _ => true
  | ended, a :: rest, s =>
    a.perform.succeeds s && a.inOrder ended s &&
      orderly (a.endsTry ended) rest (a.perform.after s)

/-- The handler that the action starts. -/
def handlerStart? (a : Action σ) (s : Emission σ) : Option Nat :=
  if a.perform.succeeds s then
    match a with
    | startHandler => some s.builder.size
    | _ => none
  else none

theorem mapped_of_appends {a : Action σ} (happends : a.appends = true) {s : Emission σ}
    (hok : a.perform.succeeds s = true) {handlers : List Nat}
    (h : ∃ map, Mapped s.builder handlers map) :
    ∃ map, Mapped (a.perform.after s).builder handlers map := by
  obtain ⟨u, hrun⟩ := exists_ok_of_succeeds hok
  refine (perform_appending happends).ok (R := fun s t : Emission σ =>
    (∃ map, Mapped s.builder handlers map) → ∃ map, Mapped t.builder handlers map)
    (fun _ h => h) (fun hst htu h => htu (hst h)) ?_ hrun h
  intro α x hx s u t hrun hs
  cases hx with
  | ask question =>
    rw [builder_of_ask_ok hrun]
    exact hs
  | emit _ _ =>
    obtain ⟨map, hmap⟩ := hs
    exact hmap.instruction (build_ok.mp hrun).2

/-- Starting and ending blocks leaves code, labels and depths alone. -/
theorem mapped_of_region {b b' : Builder} {handlers : List Nat} {map : Nat → Option Nat}
    (h : Mapped b handlers map) {regions : List Region} {exceptions : ExceptionTable}
    (hb' : b' = { b with regions, exceptions }) : ∃ map, Mapped b' handlers map := by
  subst hb'
  exact ⟨map, h.congr rfl rfl rfl rfl rfl⟩

/-- An action of an orderly run that starts no handler extends the map. -/
theorem mapped_of_perform {a : Action σ} {s : Emission σ} {ended : Bool} {handlers : List Nat}
    (hok : a.perform.succeeds s = true) (horder : a.inOrder ended s = true)
    (hne : a ≠ startHandler) (h : ∃ map, Mapped s.builder handlers map) :
    ∃ map, Mapped (a.perform.after s).builder handlers map := by
  by_cases happends : a.appends = true
  · exact mapped_of_appends happends hok h
  obtain ⟨map, h⟩ := h
  have houtcome := a.outcome s
  rw [hok] at houtcome
  obtain ⟨u, hrun⟩ := exists_ok_of_succeeds hok
  cases a with
  | createLabel =>
    cases houtcome with
    | createLabel => exact ⟨map, h.addLabel⟩
    | extended hkind _ => rcases hkind with hkind | hkind <;> cases hkind
  | jump op =>
    cases houtcome with
    | jump hjump =>
      refine h.addLabel.jump (Build.jumped_of_ok hjump) ?_
      -- the new label is the first that does not exist yet
      rw [Builder.place_addLabel, Builder.place, Array.getElem?_size]
      rfl
    | extended hkind _ => rcases hkind with hkind | hkind <;> cases hkind
  | jumpTo op label =>
    exact h.jump (Build.jumped_of_ok (build_ok.mp hrun).2) (Option.isNone_iff_eq_none.mp horder)
  | placeLabel label => exact h.place (Build.placed_of_ok (build_ok.mp hrun).2)
  | startTry =>
    obtain ⟨-, -, hb'⟩ := Build.startTry_ok.mp (build_ok.mp hrun).2
    exact mapped_of_region h hb'
  | endTry =>
    obtain ⟨_, _, -, -, -, hb'⟩ := Build.endTry_ok.mp (build_ok.mp hrun).2
    exact mapped_of_region h hb'
  | startHandler => exact absurd rfl hne
  | endHandler =>
    -- neither the check in front nor the question to the host touches the builder
    obtain ⟨_, s₁, hcheck, hrest⟩ := run_bind_ok.mp hrun
    obtain ⟨token, s₂, hask, hend⟩ := run_bind_ok.mp hrest
    obtain ⟨_, _, _, _, -, -, -, hb₁⟩ := Build.checkHandlerEnd_ok.mp (build_ok.mp hcheck).2
    have hb₂ := builder_of_ask_ok hask
    obtain ⟨_, _, _, _, -, -, -, hb'⟩ := Build.endHandler_ok (build_ok.mp hend).2
    rw [hb₂, hb₁] at hb'
    exact mapped_of_region h hb'
  | splice ownCode =>
    have hne : ownCode ≠ [] := by simpa [inOrder] using horder
    exact h.splice hne (build_ok.mp hrun).2
  | _ => exact absurd rfl happends

/-- An action of an orderly run extends the map, and the handler that it starts is an entry. -/
theorem perform_mapped {a : Action σ} {s : Emission σ} {ended : Bool} {handlers : List Nat}
    (hok : a.perform.succeeds s = true) (horder : a.inOrder ended s = true)
    (hended : ended = true → s.builder.reachable = false)
    (h : ∃ map, Mapped s.builder handlers map) :
    ∃ map, Mapped (a.perform.after s).builder (handlers ++ (a.handlerStart? s).toList) map := by
  by_cases hstart : a = startHandler
  · subst hstart
    obtain ⟨map, h⟩ := h
    obtain ⟨u, hrun⟩ := exists_ok_of_succeeds hok
    have hnoted : handlerStart? startHandler s = some s.builder.size := by
      simp only [handlerStart?, hok, if_true]
    rw [hnoted]
    exact h.startHandler (hended horder) (build_ok.mp hrun).2
  · have hnone : a.handlerStart? s = none := by
      unfold handlerStart?
      cases a with
      | startHandler => exact absurd rfl hstart
      | _ => simp
    rw [hnone, Option.toList_none, List.append_nil]
    exact mapped_of_perform hok horder hstart h

/-- Behind the end of a try block nothing can be reached. -/
theorem unreachable_of_endsTry {a : Action σ} {s : Emission σ} {ended : Bool}
    (hok : a.perform.succeeds s = true) (hended : ended = true → s.builder.reachable = false)
    (h : a.endsTry ended = true) : (a.perform.after s).builder.reachable = false := by
  obtain ⟨u, hrun⟩ := exists_ok_of_succeeds hok
  cases a with
  | endTry =>
    obtain ⟨_, _, -, hr, -, hb'⟩ := Build.endTry_ok.mp (build_ok.mp hrun).2
    rw [hb']
    exact hr
  -- asking the host leaves the builder alone
  | ask question =>
    rw [builder_of_ask_ok hrun]
    exact hended h
  | _ => cases h

/-- There is a map for the code of every orderly run. -/
theorem run_mapped {acts : List (Action σ)} {s : Emission σ} {ended : Bool} {handlers : List Nat}
    (horderly : orderly ended acts s = true) (hended : ended = true → s.builder.reachable = false)
    (h : ∃ map, Mapped s.builder handlers map) :
    ∃ map, Mapped (run acts s).builder (handlers ++ history handlerStart? acts s) map := by
  -- what the second action and all later ones need is what the first leaves behind
  induction acts generalizing s ended handlers with
  | nil => simpa [history] using h
  | cons a rest ih =>
    rw [orderly, Bool.and_eq_true, Bool.and_eq_true] at horderly
    obtain ⟨⟨hok, horder⟩, hrest⟩ := horderly
    have hmapped := perform_mapped hok horder hended h
    have hrun := ih hrest (unreachable_of_endsTry hok hended) hmapped
    rwa [run_cons, history, ← List.append_assoc]

/-! What is recorded. -/

/-- Behind an orderly run the code has the effects of its actions. -/
theorem effects_run {acts : List (Action σ)} {s : Emission σ} {ended : Bool}
    (horderly : orderly ended acts s = true) :
    (run acts s).effects = s.effects ++ acts.flatMap effects := by
  induction acts generalizing s ended with
  | nil => exact (List.append_nil _).symm
  | cons a rest ih =>
    rw [orderly, Bool.and_eq_true, Bool.and_eq_true] at horderly
    obtain ⟨⟨hok, -⟩, hrest⟩ := horderly
    obtain ⟨_, hrun⟩ := exists_ok_of_succeeds hok
    rw [run_cons, ih hrest, perform_puts a hrun, List.flatMap_cons, List.append_assoc]

/-- The entry's opcode may have the effect that is recorded for it, and may jump if it does. -/
def Lawful : CodeItem → Prop
  | .instruction op _ effect => op.Affords effect
  | .jump op _ => op.operand = .branchTarget
  | .splice _ => True

theorem lawful_run {acts : List (Action σ)} {s : Emission σ}
    (h : ∀ item ∈ s.builder.code.items.toList, Lawful item) :
    ∀ item ∈ (run acts s).builder.code.items.toList, Lawful item := by
  refine run_keeps (P := fun b => ∀ item ∈ b.code.items.toList, Lawful item) ?_ acts h
  intro b b' hchange hb
  have hpush : ∀ {c : Code} {item : CodeItem}, c = b.code → Lawful item →
      ∀ it ∈ (c.push item).items.toList, Lawful it := by
    intro c item hc hitem it hit
    subst hc
    rw [show (b.code.push item).items.toList = b.code.items.toList ++ [item] from
      Array.toList_push] at hit
    rcases List.mem_append.mp hit with hit | hit
    · exact hb it hit
    · rw [List.mem_singleton.mp hit]
      exact hitem
  cases hchange with
  | nothing => exact hb
  | refused _ _ => exact hb
  | instruction haffords _ _ _ => exact hpush rfl haffords
  | createLabel => exact hb
  | jump hop _ _ _ _ => exact hpush (Builder.code_meet _ _) hop
  | place _ _ _ _ =>
    show ∀ item ∈ (Builder.resume _ _).code.items.toList, Lawful item
    rw [Builder.code_resume]
    exact hb
  | resume _ _ _ =>
    rw [Builder.code_resume]
    exact hb
  | region h =>
    cases h <;> exact hb
  | splice _ _ _ => exact hpush rfl trivial

/-- The stack depths of an orderly run. On every path of its code there are never fewer
values on the stack than an instruction takes and never more than the builder's largest
depth, an instruction is always reached with the same depth, and the method's own code
with nothing on the stack. The effects along the paths are those of the opcodes, and entry by
entry those that the actions are to have, a call the one of the member that it names. -/
theorem depth_of_reaches (host : σ) (exceptions : ExceptionTable) (acts : List (Action σ))
    (horderly : orderly false acts ⟨host, .start exceptions⟩ = true) :
    let s : Emission σ := ⟨host, .start exceptions⟩
    let b := (run acts s).builder
    let handlers := history handlerStart? acts s
    (∀ p depth, Reaches b handlers p depth →
      0 ≤ depth ∧ depth ≤ b.maxDepth ∧ (∀ depth', Reaches b handlers p depth' → depth' = depth) ∧
      ∀ item, b.code.ItemAt p item →
        item.pops ≤ depth ∧ 0 ≤ item.depthAfter depth ∧ item.depthAfter depth ≤ b.maxDepth ∧
        ∀ code, item = .splice code → depth = 0) ∧
    b.maxDepth ≤ Builder.depthLimit ∧ (∀ p item, b.code.ItemAt p item → Lawful item) ∧
    b.code.items.toList.map CodeItem.effect? = acts.flatMap effects := by
  intro s b handlers
  obtain ⟨map, hmapped⟩ := run_mapped horderly (fun h => by cases h) ⟨_, Mapped.start exceptions⟩
  replace hmapped : Mapped b handlers map := hmapped
  refine ⟨?_, maxDepth_le_run acts (Nat.zero_le _), ?_, effects_run horderly⟩
  · intro p depth hreaches
    obtain ⟨d, rfl, hp⟩ := hmapped.of_reaches hreaches
    refine ⟨Int.natCast_nonneg d, Int.ofNat_le.mpr (hmapped.le_max p d hp), ?_, ?_⟩
    · intro depth' hreaches'
      obtain ⟨d', rfl, hp'⟩ := hmapped.of_reaches hreaches'
      rw [hp] at hp'
      cases hp'
      rfl
    · intro item hitem
      obtain ⟨hpops, hempty, n, hn, hle, -, -⟩ := hmapped.fits p item d hitem hp
      rw [hn]
      exact ⟨Int.ofNat_le.mpr hpops, Int.natCast_nonneg n, Int.ofNat_le.mpr hle,
        fun code heq => by rw [hempty code heq]; rfl⟩
  · intro p item hitem
    exact lawful_run (fun item h => absurd h List.not_mem_nil) _ hitem.mem

/-- A protected block that is left on two paths, then a jump around the method's own code. -/
def guardedRun : List (Action StoredMethod) :=
  [.createLabel, .startTry, .plain .ldnull, .jump .brfalse, .jumpTo .leave 0, .placeLabel 1,
   .jumpTo .leave 0, .endTry, .startHandler, .plain .pop, .jumpTo .leave 0, .endHandler,
   .placeLabel 0, .loadString "entered", .call .call "void C::M(string)", .loadInt 1,
   .jump .brfalse, .splice [0x2A], .placeLabel 2]

theorem depth_of_reaches_guarded :
    orderly false guardedRun ⟨.empty, .start .empty⟩ = true ∧
    ∀ p depth, Reaches (run guardedRun ⟨.empty, .start .empty⟩).builder [16] p depth →
      0 ≤ depth ∧ depth ≤ 1 := by
  have horderly : orderly false guardedRun ⟨.empty, .start .empty⟩ = true := by decide +kernel
  have hhandlers : history handlerStart? guardedRun ⟨.empty, .start .empty⟩ = [16] := by
    decide +kernel
  have hmax : (run guardedRun ⟨.empty, .start .empty⟩).builder.maxDepth = 1 := by decide +kernel
  refine ⟨horderly, fun p depth h => ?_⟩
  have hdepths := (depth_of_reaches StoredMethod.empty .empty guardedRun horderly).1
  rw [hhandlers, hmax] at hdepths
  obtain ⟨hlow, hhigh, -⟩ := hdepths p depth h
  exact ⟨hlow, hhigh⟩

end Action

end CilInstrument
