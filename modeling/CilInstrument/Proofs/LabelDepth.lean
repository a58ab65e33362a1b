import CilInstrument.Proofs.Growth
import CilInstrument.Proofs.StoredMethod

/- The depths that paths bring to a label. A path arrives at a label when a jump to it is
   appended to code that can be reached, and when it is placed; what it brings is the
   depth behind the action. The builder keeps one depth for each label and refuses
   arrivals with another one, but a label that is placed behind code that does not fall
   through, while nothing is known of it, leaves nothing behind: the builder goes on with
   an empty stack and does not note it. The arrivals at a label agree in all runs except
   those where it was placed so and a later jump brings values
   (`arrivals_agree_iff`). -/
namespace CilInstrument.Action

open Step Emit

variable {σ : Type} [Resolver σ]

/-- A path that the action stands on comes to the label. -/
def comesTo (label : Nat) (s : Emission σ) : Action σ → Bool
  | jumpTo _ l => l == label && s.builder.reachable
  | jump _ => s.builder.labels.size == label && s.builder.reachable
  | placeLabel l => l == label
  | _ => false

/-- The depth that the action brings to the label. -/
def arrival? (label : Nat) (a : Action σ) (s : Emission σ) : Option Nat :=
  if a.perform.succeeds s && a.comesTo label s then some (a.perform.after s).builder.depth
  else none

/-- The label is placed where no path leads, before any path came to it. -/
def PlacedBlind (label : Nat) (before : List (Action σ)) (s : Emission σ) : Prop :=
  (placeLabel label : Action σ).perform.succeeds (run before s) = true ∧
    (run before s).builder.reachable = false ∧ history (arrival? label) before s = []

/-- The label is placed blind, and a later jump brings values to it. -/
def Missed (label : Nat) (acts : List (Action σ)) (s : Emission σ) : Prop :=
  ∃ before behind, acts = before ++ placeLabel label :: behind ∧ PlacedBlind label before s ∧
    ∃ d ∈ history (arrival? label) behind (run (before ++ [placeLabel label]) s), d ≠ 0

/-! One action. -/

/-- What is known of a label was brought by some path, unless the code is too long for
labels. -/
theorem expected_perform (a : Action σ) (s : Emission σ) {label d : Nat}
    (h : (a.perform.after s).builder.expected label = some d) :
    s.builder.expected label = some d ∨ a.arrival? label s = some d ∨ 0x100000000 ≤ s.builder.size := by
  have houtcome := a.outcome s
  unfold arrival?
  generalize a.perform.succeeds s = ok at houtcome
  generalize (a.perform.after s).builder = b' at houtcome h
  cases houtcome with
  | extended _ hext =>
    rw [hext.expected] at h
    exact .inl h
  | createLabel =>
    rw [Builder.expected_addLabel] at h
    exact .inl h
  | @jump op _ hjump =>
    have hjumped := Build.jumped_of_ok hjump
    rw [hjumped.expected, Builder.expected_addLabel] at h
    split at h
    · next hl =>
      refine .inr (.inl ?_)
      have hr : s.builder.reachable = true := hl.2
      rw [hjumped.depth]
      simp [comesTo, hl.1, hr, ← h]
    · exact .inl h
  | jumpRefused =>
    have hsame := s.builder.expected_addLabel label
    exact .inl (hsame.symm.trans h)
  | @jumpTo op l _ hjump =>
    have hjumped := Build.jumped_of_ok hjump
    rw [hjumped.expected] at h
    split at h
    · next hl =>
      refine .inr (.inl ?_)
      rw [hjumped.depth]
      simp [comesTo, hl.1, hl.2, ← h]
    · exact .inl h
  | jumpToRefused => exact .inl h
  | @placeLabel l _ hplace =>
    have hplaced := Build.placed_of_ok hplace
    rw [hplaced.expected] at h
    split at h
    · next hl =>
      refine .inr (.inl ?_)
      rw [hplaced.depth, if_pos hl.2]
      simp [comesTo, hl.1, ← h]
    · exact .inl h
  | placeRefused => exact .inl h
  | placeTooFar _ _ hsize => exact .inr (.inr hsize)
  | splice _ _ _ => exact .inl h
  | spliceRefused => exact .inl h

/-- What a path brings to a label is known from then on, unless the label is placed where
no path leads and nothing is known of it. -/
theorem known_of_arrival (a : Action σ) (s : Emission σ) {label d : Nat}
    (h : a.arrival? label s = some d) :
    (a.perform.after s).builder.expected label = some d ∨
      a = placeLabel label ∧ a.perform.succeeds s = true ∧ s.builder.reachable = false ∧
        s.builder.expected label = none ∧ d = 0 := by
  have houtcome := a.outcome s
  unfold arrival? at h
  split at h
  case isFalse => cases h
  case isTrue hcomes =>
  rw [Bool.and_eq_true] at hcomes
  obtain ⟨hok, hcomes⟩ := hcomes
  cases h
  rw [hok] at houtcome
  generalize (a.perform.after s).builder = b' at houtcome
  cases houtcome with
  | extended hkind _ =>
    cases a with
    | jump op => rcases hkind with hkind | hkind <;> cases hkind
    | jumpTo op l => rcases hkind with hkind | hkind <;> cases hkind
    | placeLabel l => rcases hkind with hkind | hkind <;> cases hkind
    | _ => cases hcomes
  | createLabel => cases hcomes
  | splice _ _ _ => cases hcomes
  | jump hjump =>
    left
    have hjumped := Build.jumped_of_ok hjump
    rw [comesTo, Bool.and_eq_true, beq_iff_eq] at hcomes
    rw [hjumped.expected, hjumped.depth]
    exact if_pos hcomes
  | jumpTo hjump =>
    left
    have hjumped := Build.jumped_of_ok hjump
    rw [comesTo, Bool.and_eq_true, beq_iff_eq] at hcomes
    rw [hjumped.expected, hjumped.depth]
    exact if_pos hcomes
  | @placeLabel l _ hplace =>
    have hplaced := Build.placed_of_ok hplace
    have hl : l = label := by simpa [comesTo] using hcomes
    subst hl
    rw [hplaced.expected, hplaced.depth]
    -- with neither a path that falls through nor one from before, nothing is noted
    cases hr : s.builder.reachable with
    | true => simp
    | false =>
      cases hd : s.builder.expected l with
      | some d => simp
      | none => exact .inr ⟨rfl, hok, rfl, rfl, rfl⟩

/-! Runs. -/

section Runs
variable {acts : List (Action σ)} {s : Emission σ} {label d : Nat}

/-- What is known of a label was brought by some path. -/
theorem mem_history_of_expected (h : (run acts s).builder.expected label = some d) :
    s.builder.expected label = some d ∨ d ∈ history (arrival? label) acts s ∨
      0x100000000 ≤ (run acts s).builder.size := by
  induction acts generalizing s with
  | nil => exact .inl h
  | cons a rest ih =>
    have hsize := size_le_run rest (a.perform.after s)
    have hfirst := size_le_run [a] s
    rw [run_cons] at h ⊢
    -- known behind the first action: then before it, or by it
    rcases ih h with hknown | hmem | htoo
    · rcases expected_perform a s hknown with hknown | harrival | htoo
      · exact .inl hknown
      · refine .inr (.inl (List.mem_append_left _ ?_))
        exact Option.mem_toList.mpr harrival
      · refine .inr (.inr ?_)
        exact Nat.le_trans htoo (Nat.le_trans hfirst hsize)
    · exact .inr (.inl (List.mem_append_right _ hmem))
    · exact .inr (.inr htoo)

/-- A run that a label is placed in is not too long for labels. -/
theorem size_lt_of_placed {l : Nat}
    (h : (placeLabel l : Action σ).perform.succeeds s = true) : s.builder.size < 0x100000000 := by
  obtain ⟨u, hrun⟩ := exists_ok_of_succeeds h
  obtain ⟨-, -, -, hsize, -⟩ := Build.placeLabel_ok.mp (build_ok.mp hrun).2
  exact hsize

/-- A label stands where it was placed from then on. -/
theorem place_of_placed {before behind : List (Action σ)}
    (hok : (placeLabel label : Action σ).perform.succeeds (run before s) = true) :
    (run (before ++ placeLabel label :: behind) s).builder.place label =
      some (run before s).builder.size := by
  obtain ⟨u, hrun⟩ := exists_ok_of_succeeds hok
  have hplaced := Build.placed_of_ok (build_ok.mp hrun).2
  rw [run_append, run_cons]
  apply place_run_of_some
  rw [hplaced.place, if_pos rfl]

/-- What a path brought to a label is still known, unless the label was placed blind. -/
theorem known_of_mem_history (h : d ∈ history (arrival? label) acts s) :
    (run acts s).builder.expected label = some d ∨
      d = 0 ∧ ∃ before behind, acts = before ++ placeLabel label :: behind ∧
        PlacedBlind label before s := by
  obtain ⟨before, a, behind, rfl, harrival⟩ := mem_history.mp h
  rcases known_of_arrival a (run before s) harrival with hknown | ⟨rfl, hok, hr, hnone, rfl⟩
  · left
    rw [run_append, run_cons]
    exact expected_run_of_some behind hknown
  · by_cases hempty : history (arrival? label) before s = []
    · exact .inr ⟨rfl, before, behind, rfl, hok, hr, hempty⟩
    · -- the first path that came to the label would have left its depth behind
      exfalso
      obtain ⟨d', hd'⟩ := List.exists_mem_of_ne_nil _ hempty
      obtain ⟨before', a', behind', rfl, harrival'⟩ := mem_history.mp hd'
      have hplaced : (run (before' ++ a' :: behind') s).builder.place label = none := by
        obtain ⟨u, hrun⟩ := exists_ok_of_succeeds hok
        exact (Build.placed_of_ok (build_ok.mp hrun).2).unplaced
      rcases known_of_arrival a' (run before' s) harrival' with hknown | ⟨rfl, hok', -⟩
      · rw [run_append, run_cons, expected_run_of_some behind' hknown] at hnone
        cases hnone
      · rw [place_of_placed hok'] at hplaced
        cases hplaced

/-- Placing a label blind brings it an empty stack. -/
theorem arrival_of_blind (hfresh : s.builder.expected label = none)
    (hblind : PlacedBlind label acts s) :
    (placeLabel label).arrival? label (run acts s) = some 0 := by
  obtain ⟨hok, hr, hempty⟩ := hblind
  have hnone : (run acts s).builder.expected label = none := by
    -- what is known of a label came over a path, and none came yet
    cases hd : (run acts s).builder.expected label with
    | none => rfl
    | some d =>
      exfalso
      rcases mem_history_of_expected hd with hknown | hmem | htoo
      · rw [hfresh] at hknown
        cases hknown
      · rw [hempty] at hmem
        cases hmem
      · exact Nat.not_le.mpr (size_lt_of_placed hok) htoo
  have hdepth : ((placeLabel label).perform.after (run acts s)).builder.depth = 0 := by
    obtain ⟨u, hrun⟩ := exists_ok_of_succeeds hok
    rw [(Build.placed_of_ok (build_ok.mp hrun).2).depth, hr, hnone]
    rfl
  simp [arrival?, hok, comesTo, hdepth]

/-- If a label was placed blind and no values are brought to it later, none ever are. -/
theorem eq_zero_of_blind (hfresh : s.builder.expected label = none)
    {before behind : List (Action σ)} (hacts : acts = before ++ placeLabel label :: behind)
    (hblind : PlacedBlind label before s) (hmissed : ¬Missed label acts s)
    (h : d ∈ history (arrival? label) acts s) : d = 0 := by
  have hlater : ∀ d ∈ history (arrival? label) behind (run (before ++ [placeLabel label]) s),
      d = 0 := by
    intro d' hd'
    apply Classical.byContradiction
    intro hne
    exact hmissed ⟨before, behind, hacts, hblind, d', hd', hne⟩
  rw [hacts, history_append, hblind.2.2, List.nil_append, history,
    arrival_of_blind hfresh hblind] at h
  rcases List.mem_append.mp h with h | h
  · exact List.mem_singleton.mp h
  · apply hlater d
    rwa [run_append]

end Runs

/-- The arrivals at a label have one depth exactly if the label is not placed blind and
reached with values later. A jump or a placing that brings another depth than a path
before it is refused, unless the label was placed blind. -/
theorem arrivals_agree_iff (host : σ) (exceptions : ExceptionTable) (acts : List (Action σ))
    (label : Nat) :
    let s : Emission σ := ⟨host, .start exceptions⟩
    let arrivals := history (arrival? label) acts s
    let b := (run acts s).builder
    ((∀ d ∈ arrivals, ∀ d' ∈ arrivals, d = d') ↔ ¬Missed label acts s) ∧
    (∀ d ∈ arrivals, ∀ op : OpCode, op.operand = .branchTarget → b.reachable = true →
      b.landing op ≠ d →
      (∀ before behind, acts = before ++ placeLabel label :: behind →
        ¬PlacedBlind label before s) →
      ∃ fault t, (jumpTo op label).perform.run (run acts s) = .error (.stackImbalance fault) t ∧
        t.builder.code = b.code) ∧
    ∀ d ∈ arrivals, b.place label = none → b.reachable = true → b.depth ≠ d →
      ∃ fault, (placeLabel label).perform.run (run acts s) =
        .error (.stackImbalance fault) (run acts s) := by
  intro s arrivals b
  have hfresh : s.builder.expected label = none := rfl
  refine ⟨⟨?_, ?_⟩, ?_, ?_⟩
  -- the first to arrive is the placing itself, with nothing on the stack
  · intro hagree hmissed
    obtain ⟨before, behind, hacts, hblind, d, hd, hne⟩ := hmissed
    have harrivals : arrivals = 0 :: history (arrival? label) behind
        (run (before ++ [placeLabel label]) s) := by
      show history _ acts s = _
      rw [hacts, history_append, hblind.2.2, List.nil_append, history,
        arrival_of_blind hfresh hblind, run_append]
      rfl
    have hzero : (0 : Nat) ∈ arrivals := by
      rw [harrivals]
      exact List.mem_cons_self
    have hmem : d ∈ arrivals := by
      rw [harrivals]
      exact List.mem_cons_of_mem _ hd
    exact hne (hagree d hmem 0 hzero)
  -- both are the depth that is known, or the label was placed blind and both are 0
  · intro hmissed d hd d' hd'
    rcases known_of_mem_history hd with hknown | ⟨rfl, before, behind, hacts, hblind⟩
    · rcases known_of_mem_history hd' with hknown' | ⟨rfl, before, behind, hacts, hblind⟩
      · rw [hknown] at hknown'
        cases hknown'
        rfl
      · exact eq_zero_of_blind hfresh hacts hblind hmissed hd
    · exact (eq_zero_of_blind hfresh hacts hblind hmissed hd').symm
  · intro d hd op hop hr hne hseen
    have hknown : b.expected label = some d := by
      rcases known_of_mem_history hd with hknown | ⟨-, before, behind, hacts, hblind⟩
      · exact hknown
      · exact absurd hblind (hseen before behind hacts)
    cases hrun : (Build.jumpTo op label).run b with
    | ok u b' =>
      exfalso
      -- a jump that goes through joins with what is known
      rcases (Build.jumped_of_ok hrun).joins hr with hnone | hsome
      · rw [hknown] at hnone
        cases hnone
      · rw [hknown] at hsome
        cases hsome
        exact hne rfl
    | error e b' =>
      obtain ⟨hfault, depth, maxDepth, -, -, rfl⟩ := Build.jumpTo_error hrun
      obtain ⟨fault, rfl⟩ := hfault hop (Builder.lt_of_expected hknown)
      refine ⟨fault, ⟨(run acts s).host, { b with depth, maxDepth }⟩, ?_, rfl⟩
      show (build (Build.jumpTo op label)).run (run acts s) = _
      rw [run_build, hrun]
  · intro d hd hplace hr hne
    have hknown : b.expected label = some d := by
      rcases known_of_mem_history hd with hknown | ⟨-, before, behind, rfl, hok, -⟩
      · exact hknown
      · rw [show b.place label = _ from place_of_placed hok] at hplace
        cases hplace
    refine ⟨.join label d b.depth, ?_⟩
    show (build (Build.placeLabel label)).run (run acts s) = _
    rw [run_build, Build.run_placeLabel_apart hplace hr hknown hne]

/-- A loop behind a return, entered with nothing and repeated with a value on the stack. -/
def missedRun : List (Action StoredMethod) :=
  [.createLabel, .plain .ret, .placeLabel 0, .plain .ldnull, .jumpTo .br 0]

theorem arrivals_of_missedRun :
    history (arrival? 0) missedRun ⟨.empty, .start .empty⟩ = [0, 1] := by
  decide +kernel

end CilInstrument.Action
