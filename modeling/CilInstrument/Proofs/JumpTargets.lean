import CilInstrument.Proofs.Growth
import CilInstrument.Proofs.Linking
import CilInstrument.Proofs.StoredMethod

/- Jumps lead to where their labels were placed. A run of actions is noted as it goes:
   which jumps were appended, which labels placed and which code spliced in, and at what
   position. The builder's own account agrees with these notes (`sites_run`, `place_run`,
   `spliced_of_mem`). With the laws of linking this says what the finished bytes of any
   run are, refused actions included (`bytes_of_run`). -/
namespace CilInstrument

namespace Builder

/-- The jumps in the code. -/
def sites (b : Builder) : List JumpSite := Linking.sites 0 b.code.items.toList

/-- The bytes as they were emitted, with zeros for the distances of jumps. -/
def emitted (b : Builder) : List UInt8 := Linking.emitted b.code.items.toList

/-- The method's own code stands at `p`. -/
def Spliced (b : Builder) (p : Nat) (ownCode : List UInt8) : Prop :=
  b.spliceOffset = some p ∧ ∃ before behind,
    b.code.items.toList = before ++ .splice ownCode :: behind ∧ CodeItem.totalSize before = p

theorem size_eq (b : Builder) : b.size = CodeItem.totalSize b.code.items.toList := b.code.size_eq

theorem length_emitted (b : Builder) : b.emitted.length = b.size := by
  rw [size_eq]
  exact Linking.length_emitted _

theorem sites_push (items : List CodeItem) (item : CodeItem) :
    Linking.sites 0 (items ++ [item]) =
      Linking.sites 0 items ++ Linking.sites (CodeItem.totalSize items) [item] := by
  rw [Linking.sites_append, Nat.zero_add]

/-- The finished code is the emitted bytes with the distances of all jumps patched in. -/
theorem bytes_eq_patch (b : Builder) :
    b.bytes = match b.regions with
      | region :: _ => .error (.malformed (.regionNotClosed region.start))
      | [] => Linking.patch b.place b.sites b.emitted := by
  unfold Builder.bytes
  cases b.regions with
  | cons region outer => rfl
  | nil =>
    have hpatch : Linking.patch b.place b.sites b.emitted = _ :=
      Linking.patch_emitted b.code.items.toList []
    simp only [Linking.code_bytes_eq, hpatch, List.length_nil]
    cases Linking.resolve b.place 0 b.code.items.toList <;> rfl

end Builder

/-! What a step adds to the code and to the labels. -/

/-- Instructions that do not jump bring no jumps. -/
theorem Extended.sites {b b' : Builder} (h : Extended b b') : b'.sites = b.sites := by
  obtain ⟨more, hmore, hitems⟩ := h.items
  have hnone : ∀ offset, Linking.sites offset more = [] := by
    clear hitems
    induction more with
    | nil => exact fun _ => rfl
    | cons item rest ih =>
      intro offset
      obtain ⟨op, operand, effect, rfl⟩ := hmore item List.mem_cons_self
      exact ih (fun x hx => hmore x (List.mem_cons_of_mem _ hx)) _
  unfold Builder.sites
  rw [hitems, Linking.sites_append, hnone, List.append_nil]

namespace Action

open Step Emit

variable {σ : Type} [Resolver σ]

/-! The notes of a run. -/

/-- The jump that the action appends. -/
def jumpSite? (a : Action σ) (s : Emission σ) : Option JumpSite :=
  if a.perform.succeeds s then
    match a with
    | jumpTo op label => some ⟨s.builder.size, op, label⟩
    | jump op => some ⟨s.builder.size, op, s.builder.labels.size⟩
    | _ => none
  else none

/-- The label that the action places, and where. -/
def placement? (a : Action σ) (s : Emission σ) : Option (Nat × Nat) :=
  if a.perform.succeeds s then
    match a with
    | placeLabel label => some (label, s.builder.size)
    | _ => none
  else none

/-- The method's own code that the action splices in, and where. -/
def spliced? (a : Action σ) (s : Emission σ) : Option (Nat × List UInt8) :=
  if a.perform.succeeds s then
    match a with
    | splice ownCode => some (s.builder.size, ownCode)
    | _ => none
  else none

/-! The builder's account agrees with the notes. -/

theorem sites_of_jump {b b' : Builder} {op : OpCode} {label : Nat}
    (h : (Build.jumpTo op label).run b = .ok () b') :
    b'.sites = b.sites ++ [⟨b.size, op, label⟩] := by
  have hitems : b'.code.items.toList = b.code.items.toList ++ [.jump op label] := by
    rw [(Build.jumped_of_ok h).code]
    exact Array.toList_push
  unfold Builder.sites
  rw [hitems, Builder.sites_push, Builder.size_eq]
  rfl

theorem sites_perform (a : Action σ) (s : Emission σ) :
    (a.perform.after s).builder.sites = s.builder.sites ++ (a.jumpSite? s).toList := by
  have houtcome := a.outcome s
  unfold jumpSite?
  generalize a.perform.succeeds s = ok at houtcome
  generalize (a.perform.after s).builder = b' at houtcome
  cases houtcome with
  | extended hkind h =>
    rw [h.sites]
    cases a with
    | jumpTo op label => rcases hkind with h | h <;> cases h
    | jump op => rcases hkind with h | h <;> cases h
    | _ => simp
  | createLabel => exact (List.append_nil _).symm
  | jump h => exact sites_of_jump (b := s.builder.addLabel) h
  | jumpRefused => exact (List.append_nil _).symm
  | jumpTo h => exact sites_of_jump h
  | jumpToRefused => exact (List.append_nil _).symm
  | placeLabel h =>
    unfold Builder.sites
    rw [(Build.placed_of_ok h).code]
    exact (List.append_nil _).symm
  | placeRefused => exact (List.append_nil _).symm
  | placeTooFar _ _ _ =>
    show Linking.sites 0 (Builder.resume _ _).code.items.toList = _
    rw [Builder.code_resume]
    exact (List.append_nil _).symm
  | splice _ _ _ =>
    show Linking.sites 0 (Code.push _ _).items.toList = _
    have hpush : ∀ (c : Code) (item : CodeItem),
        (c.push item).items.toList = c.items.toList ++ [item] := fun _ _ => Array.toList_push
    rw [hpush, Builder.sites_push]
    rfl
  | spliceRefused => exact (List.append_nil _).symm

theorem sites_run (acts : List (Action σ)) (s : Emission σ) :
    (run acts s).builder.sites = s.builder.sites ++ history jumpSite? acts s :=
  view_run (fun t => t.builder.sites) sites_perform acts s

theorem place_perform (a : Action σ) (s : Emission σ) (label p : Nat) :
    (a.perform.after s).builder.place label = some p ↔
      s.builder.place label = some p ∨ a.placement? s = some (label, p) := by
  have houtcome := a.outcome s
  unfold placement?
  generalize a.perform.succeeds s = ok at houtcome
  generalize (a.perform.after s).builder = b' at houtcome
  -- all actions but one leave the places alone, and note nothing
  have hsame : b'.place label = s.builder.place label →
      (b'.place label = some p ↔ s.builder.place label = some p ∨ none = some (label, p)) := by
    intro heq
    rw [heq]
    simp
  cases houtcome with
  | extended hkind h =>
    have hnone : (if ok = true then
        match a with
        | placeLabel label => some (label, s.builder.size)
        | _ => none
      else none) = none := by
      cases a with
      | placeLabel label => rcases hkind with h | h <;> cases h
      | _ => simp
    rw [hnone]
    exact hsame (h.place label)
  | createLabel => exact hsame (Builder.place_addLabel _ label)
  | jump h =>
    exact hsame (((Build.jumped_of_ok h).place label).trans (Builder.place_addLabel _ label))
  | jumpRefused => exact hsame (Builder.place_addLabel _ label)
  | jumpTo h => exact hsame ((Build.jumped_of_ok h).place label)
  | jumpToRefused => exact hsame rfl
  | @placeLabel placed _ h =>
    have hplaced := Build.placed_of_ok h
    rw [hplaced.place]
    by_cases heq : placed = label
    · subst heq
      simp [hplaced.unplaced]
    · simp [heq]
  | placeRefused => exact hsame rfl
  | placeTooFar _ _ _ => exact hsame (Builder.place_resume _ _ label)
  | splice _ _ _ => exact hsame rfl
  | spliceRefused => exact hsame rfl

/-- A label stands where it was placed, if it was placed. -/
theorem place_run (acts : List (Action σ)) (s : Emission σ) (label p : Nat) :
    (run acts s).builder.place label = some p ↔
      s.builder.place label = some p ∨ (label, p) ∈ history placement? acts s := by
  induction acts generalizing s with
  | nil => simp [history]
  | cons a rest ih =>
    rw [run_cons, ih, place_perform, history, List.mem_append, Option.mem_toList, or_assoc]

/-- Labels are placed in the code. -/
theorem place_le_size {acts : List (Action σ)} {s : Emission σ}
    (h : ∀ label p, s.builder.place label = some p → p ≤ s.builder.size) {label p : Nat}
    (hplace : (run acts s).builder.place label = some p) : p ≤ (run acts s).builder.size := by
  refine run_keeps (P := fun b => ∀ label p, b.place label = some p → p ≤ b.size) ?_ acts h
    label p hplace
  intro b b' hchange hle k q hq
  have hsize := size_le_of_prefix hchange.items_prefix
  -- a new place is the end of the code
  rcases (hchange.places k).2 q hq with hbefore | rfl
  · exact Nat.le_trans (hle k q hbefore) hsize
  · exact hsize

/-- Once spliced in, the method's own code stays where it is. -/
theorem spliced_run {p : Nat} {ownCode : List UInt8} (acts : List (Action σ)) {s : Emission σ}
    (h : s.builder.Spliced p ownCode) : (run acts s).builder.Spliced p ownCode := by
  refine run_keeps (P := fun b => b.Spliced p ownCode) ?_ acts h
  intro b b' hchange hspliced
  obtain ⟨hoffset, before, behind, hitems, hsize⟩ := hspliced
  obtain ⟨more, hmore⟩ := hchange.items_prefix
  refine ⟨?_, before, behind ++ more, ?_, hsize⟩
  -- nothing is spliced in a second time
  · rcases hchange.spliceOffset with hsame | ⟨hnone, -⟩
    · exact hsame.trans hoffset
    · rw [hoffset] at hnone
      cases hnone
  · rw [← hmore, hitems, List.append_assoc, List.cons_append]

/-- What is noted of splicing says what the builder did. -/
theorem spliced_of_note {a : Action σ} {s : Emission σ} {p : Nat} {ownCode : List UInt8}
    (h : a.spliced? s = some (p, ownCode)) :
    p = s.builder.size ∧ p < 0x100000000 ∧ (a.perform.after s).builder = {
      s.builder with
      spliceOffset := some s.builder.size
      code := s.builder.code.push (.splice ownCode)
      depth := 0
      reachable := false } := by
  have houtcome := a.outcome s
  unfold spliced? at h
  generalize a.perform.succeeds s = ok at houtcome h
  generalize (a.perform.after s).builder = b' at houtcome
  cases houtcome with
  | splice _ _ hsize =>
    cases h
    exact ⟨rfl, hsize, rfl⟩
  | extended hkind _ =>
    cases a with
    | splice ownCode => rcases hkind with hkind | hkind <;> cases hkind
    | _ => simp at h
  | _ => cases h

theorem spliced_of_mem {acts : List (Action σ)} {s : Emission σ} {p : Nat}
    {ownCode : List UInt8} (h : (p, ownCode) ∈ history spliced? acts s) :
    (run acts s).builder.Spliced p ownCode := by
  obtain ⟨before, a, behind, rfl, hnote⟩ := mem_history.mp h
  rw [run_append, run_cons]
  apply spliced_run
  obtain ⟨rfl, -, hbuilder⟩ := spliced_of_note hnote
  rw [hbuilder]
  exact ⟨rfl, _, [], Array.toList_push, (Builder.size_eq _).symm⟩

theorem spliceOffset_of_note {a : Action σ} {s : Emission σ} (h : a.spliced? s = none) :
    (a.perform.after s).builder.spliceOffset = s.builder.spliceOffset := by
  have houtcome := a.outcome s
  unfold spliced? at h
  generalize a.perform.succeeds s = ok at houtcome h
  generalize (a.perform.after s).builder = b' at houtcome
  cases houtcome with
  | extended _ hextended => exact hextended.spliceOffset
  | jump hjump =>
    obtain ⟨-, -, -, -, -, rfl⟩ := Build.jumpTo_ok.mp hjump
    exact Builder.spliceOffset_meet _ _
  | jumpTo hjump =>
    obtain ⟨-, -, -, -, -, rfl⟩ := Build.jumpTo_ok.mp hjump
    exact Builder.spliceOffset_meet _ _
  | placeLabel hplace =>
    obtain ⟨-, -, -, -, rfl⟩ := Build.placeLabel_ok.mp hplace
    exact Builder.spliceOffset_resume _ _
  | placeTooFar _ _ _ => exact Builder.spliceOffset_resume _ _
  | splice _ _ _ => cases h
  | _ => rfl

/-- The offset of the own code is known only from splicing it in. -/
theorem mem_of_spliceOffset {acts : List (Action σ)} {s : Emission σ} {p : Nat}
    (hnone : s.builder.spliceOffset = none)
    (h : (run acts s).builder.spliceOffset = some p) :
    ∃ ownCode, (p, ownCode) ∈ history spliced? acts s := by
  induction acts generalizing s with
  | nil =>
    rw [run_nil, hnone] at h
    cases h
  | cons a rest ih =>
    cases hnote : a.spliced? s with
    | some spliced =>
      obtain ⟨q, ownCode⟩ := spliced
      have hmem : (q, ownCode) ∈ history spliced? (a :: rest) s :=
        mem_history.mpr ⟨[], a, rest, rfl, hnote⟩
      have hoffset := (spliced_of_mem hmem).1
      rw [h] at hoffset
      cases hoffset
      exact ⟨ownCode, hmem⟩
    | none =>
      have hsame : (a.perform.after s).builder.spliceOffset = none :=
        (spliceOffset_of_note hnote).trans hnone
      obtain ⟨ownCode, hmem⟩ := ih hsame h
      exact ⟨ownCode, List.mem_append_right _ hmem⟩

/-! The finished bytes. -/

/-- What the bytes of a run have to be, told by the notes of the run alone. -/
structure Resolved (acts : List (Action σ)) (s : Emission σ) (out : List UInt8) : Prop where
  length : out.length = (run acts s).builder.size
  /-- The operand of a jump leads from the instruction behind it to the place of its label. -/
  target : ∀ j ∈ history jumpSite? acts s, ∀ p, (j.label, p) ∈ history placement? acts s →
    LittleEndian.decodeInt ((out.drop j.operand).take 4) + j.next = p
  /-- The operands lie in the code, and none overlaps another. -/
  within : ∀ j ∈ history jumpSite? acts s, j.next ≤ out.length
  disjoint : (history jumpSite? acts s).Pairwise fun j k => j.next ≤ k.operand
  /-- What had been emitted at any time of the run stands there in the end. -/
  kept : ∀ before behind, acts = before ++ behind → ∀ i < (run before s).builder.size,
    (∀ j ∈ history jumpSite? acts s, ¬j.Covers i) →
    out[i]? = (run before s).builder.emitted[i]?
  ownCode : ∀ p code, (p, code) ∈ history spliced? acts s →
    (run acts s).builder.ownCodeOffset = p ∧ (out.drop p).take code.length = code

/-- The three things that asking for the bytes can come to. -/
theorem bytes_cases {b : Builder} (hsize : b.size < 0x80000000)
    (hplace : ∀ label p, b.place label = some p → p ≤ b.size) :
    (∃ region outer, b.regions = region :: outer ∧
      b.bytes = .error (.malformed (.regionNotClosed region.start))) ∨
    b.regions = [] ∧ (∃ j ∈ b.sites, b.place j.label = none ∧
      b.bytes = .error (.unknownLabel j.label)) ∨
    b.regions = [] ∧ (∀ j ∈ b.sites, b.place j.label ≠ none) ∧
      b.bytes = .ok (Linking.linked b.place 0 b.code.items.toList) := by
  unfold Builder.bytes
  cases hregions : b.regions with
  | cons region outer => exact .inl ⟨region, outer, rfl, rfl⟩
  | nil =>
    have hresolve := @Linking.resolve_eq b.place 0 b.code.items.toList
      (by rw [Nat.zero_add, ← Builder.size_eq]; exact hsize)
      (fun label p h => Nat.lt_of_le_of_lt (hplace label p h) hsize)
    right
    rw [Linking.code_bytes_eq, hresolve]
    cases hfind : (Linking.sites 0 b.code.items.toList).find? (Linking.Unplaced b.place) with
    | some j =>
      have hlost : Linking.Unplaced b.place j = true := List.find?_some hfind
      refine .inl ⟨rfl, j, List.mem_of_find?_eq_some hfind, ?_, rfl⟩
      exact Option.isNone_iff_eq_none.mp hlost
    | none =>
      refine .inr ⟨rfl, fun j hj hlost => ?_, rfl⟩
      exact List.find?_eq_none.mp hfind j hj (Option.isNone_iff_eq_none.mpr hlost)

theorem resolved_of_bytes {s : Emission σ} {acts : List (Action σ)} {out : List UInt8}
    (hsites : (run acts s).builder.sites = history jumpSite? acts s)
    (hplaces : ∀ label p, (run acts s).builder.place label = some p ↔
      (label, p) ∈ history placement? acts s)
    (hsize : (run acts s).builder.size < 0x80000000)
    (hle : ∀ label p, (run acts s).builder.place label = some p → p ≤ (run acts s).builder.size)
    (hout : out = Linking.linked (run acts s).builder.place 0
      (run acts s).builder.code.items.toList) : Resolved acts s out where
  length := by rw [hout, Linking.length_linked, Builder.size_eq]
  target := by
    intro j hj p hp
    rw [← hsites] at hj
    have hplace := (hplaces j.label p).mpr hp
    have hnext := (Linking.bounds_of_mem_sites hj).2
    have htarget := hle j.label p hplace
    rw [Nat.zero_add, ← Builder.size_eq] at hnext
    have hwindow := @Linking.operand_linked (run acts s).builder.place _ _ _ hj
    rw [Nat.sub_zero, ← hout] at hwindow
    have hdistance : Linking.distance (run acts s).builder.place j = (p : Int) - j.next := by
      rw [Linking.distance, hplace, Option.getD_some]
    -- both positions are below 0x80000000, so the distance fits in four bytes
    rw [hwindow, hdistance, LittleEndian.decodeInt_encodeInt (by omega) (by omega)]
    omega
  within := by
    intro j hj
    rw [← hsites] at hj
    have hnext := (Linking.bounds_of_mem_sites hj).2
    rwa [Nat.zero_add, ← @Linking.length_linked (run acts s).builder.place 0, ← hout] at hnext
  disjoint := by
    rw [← hsites]
    exact Linking.sites_pairwise _
  kept := by
    intro before behind hacts i hi huncovered
    subst hacts
    obtain ⟨more, hmore⟩ := items_prefix_run behind (run before s)
    rw [← run_append] at hmore
    -- outside of the operands linking changes nothing, and what was emitted is a prefix
    have hlinked : out[i]? = (run (before ++ behind) s).builder.emitted[i]? := by
      rw [hout]
      apply Linking.getElem?_linked
      intro j hj
      rw [Nat.zero_add]
      exact huncovered j (hsites ▸ hj)
    have hemitted : (run (before ++ behind) s).builder.emitted =
        (run before s).builder.emitted ++ Linking.emitted more := by
      unfold Builder.emitted
      rw [← hmore, Linking.emitted, List.flatMap_append]
      rfl
    rw [hlinked, hemitted, List.getElem?_append_left (by rwa [Builder.length_emitted])]
  ownCode := by
    intro p code hp
    obtain ⟨hoffset, before, behind, hitems, hbefore⟩ := spliced_of_mem hp
    refine ⟨by rw [Builder.ownCodeOffset, hoffset, Option.getD_some], ?_⟩
    rw [hout, hitems, ← hbefore]
    exact Linking.splice_linked

/-- The bytes of a run, refused actions included: there are bytes exactly if all regions
are closed and all labels that are jumped to are placed, and then all jumps lead where
they should and nothing else changed. -/
theorem bytes_of_run (host : σ) (exceptions : ExceptionTable) (acts : List (Action σ))
    (hsize : (run acts ⟨host, .start exceptions⟩).builder.size < 0x80000000) :
    let s : Emission σ := ⟨host, .start exceptions⟩
    let b := (run acts s).builder
    let jumps := history jumpSite? acts s
    let placements := history placement? acts s
    ((∃ out, b.bytes = .ok out) ↔
      b.regions = [] ∧ ∀ j ∈ jumps, ∃ p, (j.label, p) ∈ placements) ∧
    (∀ out, b.bytes = .ok out → Resolved acts s out) ∧
    (∀ region outer, b.regions = region :: outer →
      b.bytes = .error (.malformed (.regionNotClosed region.start))) ∧
    (b.regions = [] → (∃ j ∈ jumps, ∀ p, (j.label, p) ∉ placements) →
      ∃ j ∈ jumps, (∀ p, (j.label, p) ∉ placements) ∧ b.bytes = .error (.unknownLabel j.label)) := by
  intro s b jumps placements
  have hsites : b.sites = jumps := by
    have h := sites_run acts s
    rwa [show s.builder.sites = [] from rfl, List.nil_append] at h
  have hfresh : ∀ label, s.builder.place label = none := fun _ => rfl
  have hplaces : ∀ label p, b.place label = some p ↔ (label, p) ∈ placements := by
    intro label p
    have h := place_run acts s label p
    rw [hfresh] at h
    simpa using h
  have hle : ∀ label p, b.place label = some p → p ≤ b.size := by
    intro label p
    refine place_le_size fun k q h => ?_
    rw [hfresh] at h
    cases h
  have hunplaced : ∀ label, b.place label = none ↔ ∀ p, (label, p) ∉ placements := by
    intro label
    rw [Option.eq_none_iff_forall_ne_some]
    exact forall_congr' fun p => not_congr (hplaces label p)
  have hnot : ∀ {e out}, b.bytes = .error e → b.bytes ≠ .ok out := by
    intro e out he hout
    rw [he] at hout
    cases hout
  -- exactly one of three things happens, and it decides all four parts
  rcases bytes_cases hsize hle with ⟨region, outer, hregions, hbytes⟩ |
    ⟨hregions, j, hj, hlost, hbytes⟩ | ⟨hregions, hall, hbytes⟩
  · rw [hregions]
    refine ⟨⟨?_, ?_⟩, fun out hout => absurd hout (hnot hbytes), ?_, ?_⟩
    · exact fun ⟨out, hout⟩ => absurd hout (hnot hbytes)
    · exact fun h => absurd h.1 (List.cons_ne_nil _ _)
    · intro region' outer' h
      rw [hbytes, (List.cons.inj h).1]
    · exact fun h => absurd h (List.cons_ne_nil _ _)
  · rw [hsites] at hj
    have hlost' := (hunplaced j.label).mp hlost
    refine ⟨⟨?_, ?_⟩, fun out hout => absurd hout (hnot hbytes), ?_, ?_⟩
    · exact fun ⟨out, hout⟩ => absurd hout (hnot hbytes)
    · intro h
      obtain ⟨p, hp⟩ := h.2 j hj
      exact absurd hp (hlost' p)
    · intro region outer h
      rw [hregions] at h
      cases h
    · exact fun _ _ => ⟨j, hj, hlost', hbytes⟩
  · rw [hsites] at hall
    have hall' : ∀ j ∈ jumps, ∃ p, (j.label, p) ∈ placements := by
      intro j hj
      obtain ⟨p, hp⟩ := Option.ne_none_iff_exists'.mp (hall j hj)
      exact ⟨p, (hplaces j.label p).mp hp⟩
    refine ⟨⟨fun _ => ⟨hregions, hall'⟩, fun _ => ⟨_, hbytes⟩⟩, ?_, ?_, ?_⟩
    · intro out hout
      rw [hbytes] at hout
      exact resolved_of_bytes hsites hplaces hsize hle (Except.ok.inj hout).symm
    · intro region outer h
      rw [hregions] at h
      cases h
    · intro _ h
      obtain ⟨j, hj, hlost⟩ := h
      exact absurd ((hunplaced j.label).mpr hlost) (hall j hj)

/-- A loop with a jump out of it; four of the actions are refused. -/
def loopRun : List (Action StoredMethod) :=
  [.plain .pop, .createLabel, .createLabel, .placeLabel 0, .loadInt 7, .jumpTo .brtrue 1,
   .jumpTo .br 0, .placeLabel 0, .jump .ret, .placeLabel 1, .splice [0x00, 0x2A], .splice [0x2A]]

theorem bytes_of_run_loop :
    (run loopRun ⟨.empty, .start .empty⟩).builder.size < 0x80000000 ∧
    ∃ out, (run loopRun ⟨.empty, .start .empty⟩).builder.bytes = .ok out ∧
      Resolved loopRun ⟨.empty, .start .empty⟩ out := by
  have hsize : (run loopRun ⟨.empty, .start .empty⟩).builder.size < 0x80000000 := by decide +kernel
  have hjumps : history jumpSite? loopRun ⟨.empty, .start .empty⟩ =
      [⟨5, .brtrue, 1⟩, ⟨10, .br, 0⟩] := by decide +kernel
  have hplacements : history placement? loopRun ⟨.empty, .start .empty⟩ = [(0, 0), (1, 15)] := by
    decide +kernel
  have hregions : (run loopRun ⟨.empty, .start .empty⟩).builder.regions = [] := by decide +kernel
  obtain ⟨hbytes, hresolved, -⟩ := bytes_of_run StoredMethod.empty .empty loopRun hsize
  rw [hjumps, hplacements] at hbytes
  obtain ⟨out, hout⟩ := hbytes.mpr ⟨hregions, by simp⟩
  exact ⟨hsize, out, hout, hresolved out hout⟩

end Action

end CilInstrument
