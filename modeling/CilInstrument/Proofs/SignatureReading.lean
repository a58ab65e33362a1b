import CilInstrument.Proofs.Recognition

/- Reading signatures is the grammar. There is one lemma for each reader, which says that it
   recognizes its form; a type is an induction on the room that is left, and the level where
   a type is read leaves room for the levels below the limit (`recognizes_type`). With the
   forms that do not look behind themselves this says which signatures are read, and where
   reading stops (`method_grammar`). -/
namespace CilInstrument

namespace SignatureReader

open Step

variable {α β : Type} {level : Nat}

/-! Modifiers and lists. -/

/-- With so many turns, modifiers are read until the turns are used up or none is left. -/
theorem recognizes_modifiersGo (turns : List UInt8) (found : Array Token) :
    Recognizes (modifiers.go turns found) level fun data mods rest =>
      ∃ more, mods = found.toList ++ more ∧ ModifiersForm .all data more rest ∧
        (more.length = turns.length ∨ more.length < turns.length ∧ Unmodified rest) := by
  induction turns generalizing found with
  | nil =>
    refine (Recognizes.pure _).congr fun data mods rest => ?_
    constructor
    · rintro ⟨rfl, rfl⟩
      exact ⟨[], (List.append_nil _).symm, .nil, .inl rfl⟩
    · rintro ⟨more, rfl, hmore, hlength | ⟨hlength, -⟩⟩
      · obtain rfl := List.eq_nil_of_length_eq_zero hlength
        cases hmore
        exact ⟨List.append_nil _, rfl⟩
      · exact absurd hlength (Nat.not_lt_zero _)
  | cons turn turns ih =>
    refine (recognizes_hasMore.bind fun more => .ite (fun _ => .pure _) fun _ =>
      recognizes_peek.bind fun tag => .ite (fun _ => recognizes_advance.bind fun _ =>
        recognizes_token.bind fun token => ih _) fun _ => .pure _).congr fun data mods rest => ?_
    constructor
    · rintro ⟨_, data, ⟨rfl, rfl⟩, h⟩
      cases data with
      | nil =>
        obtain ⟨rfl, rfl⟩ := h
        exact ⟨[], (List.append_nil _).symm, .nil, .inr ⟨Nat.succ_pos _, by rintro _ ⟨⟩⟩⟩
      | cons first tail =>
        rw [List.isEmpty_cons, if_neg (by decide)] at h
        obtain ⟨_, _, ⟨hhead, rfl⟩, h⟩ := h
        cases hhead
        split at h
        · next htag =>
          obtain ⟨_, _, ⟨_, hcons⟩, token, mid, htoken, more, rfl, hmore, hend⟩ := h
          cases hcons
          refine ⟨token :: more, by simp, .cons htag htoken hmore, ?_⟩
          simpa only [List.length_cons, Nat.add_right_cancel_iff, Nat.add_lt_add_iff_right]
            using hend
        · next htag =>
          obtain ⟨rfl, rfl⟩ := h
          refine ⟨[], (List.append_nil _).symm, .nil, .inr ⟨Nat.succ_pos _, ?_⟩⟩
          rintro _ ⟨⟩
          exact Bool.eq_false_iff.mpr htag
    · rintro ⟨more, rfl, hmore, hend⟩
      refine ⟨_, _, ⟨rfl, rfl⟩, ?_⟩
      cases hmore with
      | nil =>
        rw [List.append_nil]
        cases data with
        | nil => exact ⟨rfl, rfl⟩
        | cons first tail =>
          obtain ⟨-, hend⟩ := hend.resolve_left (Nat.succ_ne_zero _).symm
          rw [List.isEmpty_cons, if_neg (by decide)]
          refine ⟨first, _, ⟨rfl, rfl⟩, ?_⟩
          rw [if_neg (Bool.eq_false_iff.mp (hend first rfl))]
          exact ⟨rfl, rfl⟩
      | cons htag htoken hmore =>
        rw [List.isEmpty_cons, if_neg (by decide)]
        refine ⟨_, _, ⟨rfl, rfl⟩, ?_⟩
        rw [if_pos htag]
        refine ⟨(), _, ⟨_, rfl⟩, _, _, htoken, _, by simp, hmore, ?_⟩
        simpa only [List.length_cons, Nat.add_right_cancel_iff, Nat.add_lt_add_iff_right]
          using hend

/-- Every modifier takes a byte. -/
theorem length_of_modifiers {data rest : List UInt8} {mods : List Token}
    (h : ModifiersForm .all data mods rest) : rest.length + mods.length ≤ data.length := by
  induction h with
  | nil => exact Nat.le_refl _
  | cons _ htoken _ ih =>
    have hle := (@recognizes_token 0).suffix htoken |>.length_le
    simp only [List.length_cons]
    omega

/-- The turns are used up only at the end of the bytes. -/
theorem modifiersGo_form {data rest : List UInt8} {mods : List Token} :
    (∃ more, mods = (#[] : Array Token).toList ++ more ∧ ModifiersForm .all data more rest ∧
        (more.length = data.length ∨ more.length < data.length ∧ Unmodified rest)) ↔
      ModifiersForm .all data mods rest ∧ Unmodified rest := by
  constructor
  · rintro ⟨more, rfl, hmore, hend⟩
    refine ⟨hmore, ?_⟩
    rcases hend with hlength | ⟨-, hend⟩
    · have hle := length_of_modifiers hmore
      obtain rfl := List.eq_nil_of_length_eq_zero (l := rest) (by omega)
      rintro _ ⟨⟩
    · exact hend
  · rintro ⟨hmore, hend⟩
    have hle := length_of_modifiers hmore
    refine ⟨mods, rfl, hmore, ?_⟩
    by_cases hlength : mods.length = data.length
    · exact .inl hlength
    · exact .inr ⟨by omega, hend⟩

/-- All modifiers are read. -/
theorem recognizes_modifiers :
    Recognizes modifiers level fun data mods rest =>
      ModifiersForm .all data mods rest ∧ Unmodified rest where
  suffix := fun {data _ _} h =>
    (@recognizes_modifiersGo level data #[]).suffix (modifiersGo_form.mpr h)
  run_ok := by
    intro c mods s
    show (modifiers.go c.rest #[]).run ⟨c, level⟩ = _ ↔ _
    rw [(recognizes_modifiersGo c.rest #[]).run_ok]
    simp only [modifiersGo_form]

theorem recognizes_modified {read : SignatureReader α} {F : Form α}
    (h : Recognizes read level F) :
    Recognizes (do discard modifiers; read) level (Modified .all F) :=
  (recognizes_modifiers.discard.bind fun _ => h).congr fun data a rest => by
    constructor
    · rintro ⟨_, mid, ⟨mods, hmods, hend⟩, ha⟩
      exact ⟨mods, mid, hmods, hend, ha⟩
    · rintro ⟨mods, mid, hmods, hend, ha⟩
      exact ⟨(), mid, ⟨mods, hmods, hend⟩, ha⟩

/-- What stands behind modifiers may be turned into something else first. -/
theorem modified_map {L : Liberties} {F : Form α} {f : α → β} {data rest : List UInt8} {b : β} :
    Modified L (F.map f) data b rest ↔ (Modified L F).map f data b rest := by
  constructor
  · rintro ⟨mods, mid, hmods, hend, a, ha, rfl⟩
    exact ⟨a, ⟨mods, mid, hmods, hend, ha⟩, rfl⟩
  · rintro ⟨a, ⟨mods, mid, hmods, hend, ha⟩, rfl⟩
    exact ⟨mods, mid, hmods, hend, a, ha, rfl⟩

theorem recognizes_collect {read : SignatureReader α} {F : Form α} (h : Recognizes read level F)
    (count : Nat) :
    Recognizes (collect count read) level fun data items rest =>
      ItemsForm F data items rest ∧ items.length = count := by
  have hgo : ∀ found, Recognizes (collect.go read count found) level fun data items rest =>
      ∃ more, items = found.toList ++ more ∧ ItemsForm F data more rest ∧ more.length = count := by
    induction count with
    | zero =>
      refine fun found => (Recognizes.pure _).congr fun data items rest => ?_
      constructor
      · rintro ⟨rfl, rfl⟩
        exact ⟨[], (List.append_nil _).symm, .nil, rfl⟩
      · rintro ⟨more, rfl, hmore, hlength⟩
        obtain rfl := List.eq_nil_of_length_eq_zero hlength
        cases hmore
        exact ⟨List.append_nil _, rfl⟩
    | succ count ih =>
      refine fun found => (h.bind fun a => ih (found.push a)).congr fun data items rest => ?_
      constructor
      · rintro ⟨a, mid, ha, more, rfl, hmore, rfl⟩
        exact ⟨a :: more, by simp, .cons ha hmore, rfl⟩
      · rintro ⟨more, rfl, hmore, hlength⟩
        cases hmore with
        | nil => cases hlength
        | cons ha hmore => exact ⟨_, _, ha, _, by simp, hmore, Nat.succ.inj hlength⟩
  exact (hgo #[]).congr fun data items rest => by simp

/-! Methods and types. -/

section
variable {readType : SignatureReader TypeSig} {T : Form TypeSig}

/-- A type starts with a byte, which is not the sentinel. -/
def Started (T : Form TypeSig) : Prop :=
  ∀ {data base rest}, T data base rest → ∃ tag tail, data = tag :: tail ∧ tag ≠ ElementTag.sentinel

/-- The part of a parameter in front of its type. -/
def marked : SignatureReader (List Token × Bool) := do
  let mods ← modifiers
  let next ← ofReader Reader.peek
  if next == ElementTag.byRef then
    ofReader (Reader.advance 1)
    return (mods, true)
  else
    return (mods, false)

/-- What stands in front of a type: modifiers, and the by-reference marker if there is one. -/
def MarkedForm : Form (List Token × Bool) := fun data m rest =>
  m.2 = true ∧ ModifiersForm .all data m.1 (ElementTag.byRef :: rest) ∨
    m.2 = false ∧ ModifiersForm .all data m.1 rest ∧ Unmodified rest ∧ rest ≠ [] ∧
      rest.head? ≠ some ElementTag.byRef

theorem recognizes_marked : Recognizes marked level MarkedForm := by
  refine (recognizes_modifiers.bind fun mods => recognizes_peek.bind fun next =>
    .ite (fun _ => recognizes_advance.bind fun _ => .pure _) fun _ => .pure _).congr
    fun data m rest => ?_
  constructor
  · rintro ⟨mods, mid, ⟨hmods, hend⟩, next, _, ⟨hnext, rfl⟩, h⟩
    split at h
    · next hbyRef =>
      obtain ⟨_, _, ⟨first, rfl⟩, rfl, rfl⟩ := h
      cases hnext
      rw [eq_of_beq hbyRef] at hmods
      exact .inl ⟨rfl, hmods⟩
    · next hplain =>
      obtain ⟨rfl, rfl⟩ := h
      refine .inr ⟨rfl, hmods, hend, ?_, ?_⟩
      · rintro rfl
        cases hnext
      · rw [hnext]
        rintro ⟨⟩
        exact hplain rfl
  · obtain ⟨mods, isByRef⟩ := m
    rintro (⟨rfl, hmods⟩ | ⟨rfl, hmods, hend, hne, hplain⟩)
    · refine ⟨mods, _, ⟨hmods, ?_⟩, ElementTag.byRef, _, ⟨rfl, rfl⟩, ?_⟩
      · rintro _ ⟨⟩
        rfl
      · rw [if_pos (beq_self_eq_true _)]
        exact ⟨(), rest, ⟨_, rfl⟩, rfl, rfl⟩
    · obtain ⟨next, tail, rfl⟩ := List.exists_cons_of_ne_nil hne
      refine ⟨mods, _, ⟨hmods, hend⟩, next, _, ⟨rfl, rfl⟩, ?_⟩
      rw [if_neg fun hbyRef => hplain (congrArg some (eq_of_beq hbyRef))]
      exact ⟨rfl, rfl⟩

/-- The part of a parameter behind that, whose blob started at `start`. -/
def paramBody (readType : SignatureReader TypeSig) (start : Cursor) (m : List Token × Bool) :
    SignatureReader ParamSig := do
  let typeStart ← position
  let base ← readType
  let stop ← position
  return ⟨m.1, m.2, base, stop.bytesSince start, stop.bytesSince typeStart⟩

theorem param_eq (readType : SignatureReader TypeSig) :
    param readType = position >>= fun start => marked >>= paramBody readType start := by
  unfold param marked paramBody
  simp only [bind_assoc]
  congr 1
  funext start
  congr 1
  funext mods
  congr 1
  funext next
  cases hnext : next == ElementTag.byRef
  · rfl
  · simp only [bind_assoc, pure_bind, if_true]

theorem run_paramBody (h : Recognizes readType level T) {start c : Cursor}
    {m : List Token × Bool} {p : ParamSig} {s : SignatureCursor} :
    (paramBody readType start m).run ⟨c, level⟩ = .ok p s ↔
      ∃ c' base, s = ⟨c', level⟩ ∧ c'.data = c.data ∧ T c.rest base c'.rest ∧
        p = ⟨m.1, m.2, base, c'.bytesSince start, c'.bytesSince c⟩ := by
  show (readType >>= _).run ⟨c, level⟩ = _ ↔ _
  rw [run_bind_ok]
  constructor
  · rintro ⟨base, t, hbase, hrun⟩
    obtain ⟨c', rfl, hdata, hform⟩ := h.run_ok.mp hbase
    cases hrun
    exact ⟨c', base, rfl, hdata, hform, rfl⟩
  · rintro ⟨c', base, rfl, hdata, hform, rfl⟩
    exact ⟨base, _, h.run_ok.mpr ⟨c', rfl, hdata, hform⟩, rfl⟩

/-- A parameter is what is marked and the type behind it. -/
theorem paramForm_iff (hT : Started T) {data rest : List UInt8} {p : ParamSig} :
    ParamForm .all T data p rest ↔
      ∃ mid, MarkedForm data (p.modifiers, p.isByRef) mid ∧ T mid p.base rest ∧
        data = p.blob ++ rest ∧ mid = p.typeBlob ++ rest := by
  constructor
  · intro h
    cases h with
    | byValue hmods hend hplain htype hblob htypeBlob =>
      refine ⟨_, .inr ⟨rfl, hmods, hend, ?_, hplain⟩, htype, hblob, htypeBlob⟩
      obtain ⟨tag, tail, hcons, -⟩ := hT htype
      rw [hcons]
      exact List.cons_ne_nil tag tail
    | byRef hmods htype hblob htypeBlob =>
      exact ⟨_, .inl ⟨rfl, hmods⟩, htype, hblob, htypeBlob⟩
  · obtain ⟨mods, isByRef, base, blob, typeBlob⟩ := p
    rintro ⟨mid, ⟨hmarker, hmods⟩ | ⟨hmarker, hmods, hend, -, hplain⟩, htype, hblob, htypeBlob⟩
    · cases hmarker
      exact .byRef hmods htype hblob htypeBlob
    · cases hmarker
      exact .byValue hmods hend hplain htype hblob htypeBlob

theorem recognizes_param (h : Recognizes readType level T) (hT : Started T) :
    Recognizes (param readType) level (ParamForm .all T) where
  suffix := by
    intro data p rest hp
    obtain ⟨-, -, -, rfl, -⟩ := (paramForm_iff hT).mp hp
    exact List.suffix_append _ _
  run_ok := by
    intro c p s
    rw [param_eq]
    show (marked >>= _).run ⟨c, level⟩ = _ ↔ _
    rw [run_bind_ok]
    simp only [paramForm_iff hT]
    constructor
    · rintro ⟨m, t, hmarked, hbody⟩
      obtain ⟨c₁, rfl, hdata₁, hform⟩ := recognizes_marked.run_ok.mp hmarked
      obtain ⟨c', base, rfl, hdata, htype, rfl⟩ := (run_paramBody h).mp hbody
      have hsuffix := (@recognizes_marked level).suffix hform
      exact ⟨c', rfl, hdata.trans hdata₁, c₁.rest, hform, htype,
        Cursor.rest_eq_of_suffix (hdata.trans hdata₁) ((h.suffix htype).trans hsuffix),
        Cursor.rest_eq_of_suffix hdata (h.suffix htype)⟩
    · rintro ⟨c', rfl, hdata, mid, hform, htype, hblob, htypeBlob⟩
      obtain ⟨c₁, hdata₁, rfl⟩ := c.exists_behind ((@recognizes_marked level).suffix hform)
      refine ⟨_, ⟨c₁, level⟩, recognizes_marked.run_ok.mpr ⟨c₁, rfl, hdata₁, hform⟩,
        (run_paramBody h).mpr ⟨c', p.base, rfl, hdata.trans hdata₁.symm, htype, ?_⟩⟩
      show p = ⟨p.modifiers, p.isByRef, p.base, c'.bytesSince c, c'.bytesSince c₁⟩
      rw [Cursor.bytesSince_of_rest hdata hblob,
        Cursor.bytesSince_of_rest (hdata.trans hdata₁.symm) htypeBlob]
      cases p
      rfl

/-- A parameter starts with a byte, which is not the sentinel either. -/
theorem started_param (hT : Started T) {data rest : List UInt8} {p : ParamSig}
    (h : ParamForm .all T data p rest) :
    ∃ tag tail, data = tag :: tail ∧ tag ≠ ElementTag.sentinel := by
  have hmods : ∀ {mods mid}, ModifiersForm .all data mods mid →
      (∃ tag tail, mid = tag :: tail ∧ tag ≠ ElementTag.sentinel) →
      ∃ tag tail, data = tag :: tail ∧ tag ≠ ElementTag.sentinel := by
    intro mods mid h hmid
    cases h with
    | nil => exact hmid
    | cons htag _ _ =>
      refine ⟨_, _, rfl, ?_⟩
      rintro rfl
      cases htag
  cases h with
  | byValue h _ _ htype _ _ => exact hmods h (hT htype)
  | byRef h _ _ _ => exact hmods h ⟨_, _, rfl, by decide⟩

theorem recognizes_params (h : Recognizes readType level T) (hT : Started T) (count : Nat) :
    Recognizes (params readType count) level (ParamsForm .all T count) := by
  have hgo : ∀ found, Recognizes (params.go readType count found) level fun data ps rest =>
      ∃ more, ps = found.toList ++ more ∧ ParamsForm .all T count data more rest := by
    induction count with
    | zero =>
      refine fun found => (Recognizes.pure _).congr fun data ps rest => ?_
      constructor
      · rintro ⟨rfl, rfl⟩
        exact ⟨[], (List.append_nil _).symm, .nil⟩
      · rintro ⟨more, rfl, hmore⟩
        cases hmore
        exact ⟨List.append_nil _, rfl⟩
    | succ count ih =>
      refine fun found => (recognizes_peek.bind fun next => .ite (fun _ => .pure _) fun _ =>
        (recognizes_param h hT).bind fun p => ih _).congr fun data ps rest => ?_
      constructor
      · rintro ⟨next, data, ⟨hnext, rfl⟩, h⟩
        split at h
        · next hstop =>
          obtain ⟨rfl, rfl⟩ := h
          refine ⟨[], (List.append_nil _).symm, ?_⟩
          obtain ⟨tail, rfl⟩ := List.head?_eq_some_iff.mp hnext
          rw [eq_of_beq hstop]
          exact .sentinel rfl
        · obtain ⟨p, mid, hp, more, rfl, hmore⟩ := h
          exact ⟨p :: more, by simp, .cons hp hmore⟩
      · rintro ⟨more, rfl, hmore⟩
        cases hmore with
        | cons hp hmore =>
          obtain ⟨tag, tail, rfl, hne⟩ := started_param hT hp
          refine ⟨tag, _, ⟨rfl, rfl⟩, ?_⟩
          rw [if_neg fun h => hne (eq_of_beq h)]
          exact ⟨_, _, hp, _, by simp, hmore⟩
        | sentinel _ =>
          refine ⟨ElementTag.sentinel, _, ⟨rfl, rfl⟩, ?_⟩
          rw [if_pos (beq_self_eq_true _)]
          exact ⟨List.append_nil _, rfl⟩
  exact (hgo #[]).congr fun data ps rest => by simp

theorem recognizes_generics (convention : UInt8) :
    Recognizes (if convention &&& 0x10 != 0 then ofReader Reader.compressed else pure 0) level
      (GenericsForm convention) := by
  refine (Recognizes.ite (fun _ => recognizes_compressed) fun _ => .pure 0).congr
    fun data n rest => ?_
  by_cases h : convention &&& 0x10 = 0
  · rw [if_neg (by simp [h])]
    constructor
    · rintro ⟨rfl, rfl⟩
      exact .absent h
    · rintro (_ | hcount)
      · exact ⟨rfl, rfl⟩
      · contradiction
  · rw [if_pos (by simp [h])]
    constructor
    · exact .counted h
    · rintro (_ | ⟨-, hcount⟩)
      · contradiction
      · exact hcount

theorem recognizes_method (h : Recognizes readType level T) (hT : Started T) :
    Recognizes (methodOf readType) level (MethodForm .all T) := by
  refine (recognizes_byte.bind fun convention => (recognizes_generics convention).ite_bind
    fun genericCount => recognizes_compressed.bind fun count => (recognizes_param h hT).bind
    fun returnType => (recognizes_params h hT count).bind fun params =>
    .pure _).congr fun data signature rest => ?_
  constructor
  · rintro ⟨convention, data, rfl, genericCount, counts, hgenerics, count, returned, hcount,
      returnType, listed, hreturn, params, _, hparams, rfl, rfl⟩
    exact .mk hgenerics hcount hreturn hparams
  · rintro ⟨hgenerics, hcount, hreturn, hparams⟩
    exact ⟨_, _, rfl, _, _, hgenerics, _, _, hcount, _, _, hreturn, _, _, hparams, rfl, rfl⟩

theorem isModifier_iff {tag : UInt8} :
    ElementTag.isModifier tag = true ↔ tag = 0x1F ∨ tag = 0x20 := by
  simp [ElementTag.isModifier, ElementTag.optionalModifier, ElementTag.requiredModifier, or_comm]

variable (T) in
/-- The rule that the first byte of a type picks, for what stands behind it. -/
def TypeRule (tag : Nat) : Form TypeSig := fun data type rest =>
  match tag with
  | 0x0F => (Modified .all T).map .pointer data type rest
  | 0x10 => T.map .byRef data type rest
  | 0x11 => (TokenForm .all).map .valueType data type rest
  | 0x12 => (TokenForm .all).map .classType data type rest
  | 0x13 => CompressedForm.map .typeParameter data type rest
  | 0x14 => ∃ element ranked, T data element ranked ∧
      ∃ rank sized, CompressedForm ranked rank sized ∧
      ∃ sizes bounded, CountedForm CompressedForm sized sizes bounded ∧
      ∃ lowerBounds, CountedForm CompressedForm bounded lowerBounds rest ∧
      type = .array element rank
  | 0x15 => ∃ tag, data.head? = some tag ∧
      (tag = ElementTag.classType ∨ tag = ElementTag.valueType) ∧
      ∃ base counted, T data base counted ∧
      ∃ arguments, CountedForm T counted arguments rest ∧ type = .genericInstance base arguments
  | 0x1B => (MethodForm .all T).map .functionPointer data type rest
  | 0x1D => (Modified .all T).map .vector data type rest
  | 0x1E => CompressedForm.map .methodParameter data type rest
  | 0x1F | 0x20 => ∃ token mid, TokenForm .all data token mid ∧ Modified .all T mid type rest
  | 0x45 => T.map .pinned data type rest
  | tag => TypeSig.primitive? tag = some type ∧ rest = data

theorem typeRule_of_primitive {tag : Nat} {type : TypeSig}
    (h : TypeSig.primitive? tag = some type) :
    TypeRule T tag = fun data type rest => TypeSig.primitive? tag = some type ∧ rest = data := by
  unfold TypeSig.primitive? at h
  split at h <;> first | rfl | cases h

/-- The first byte of a type says which rule made it. -/
theorem typeLayer_iff {tag : UInt8} {data rest : List UInt8} {type : TypeSig} :
    TypeLayer .all T (tag :: data) type rest ↔ TypeRule T tag.toNat data type rest := by
  constructor
  · intro h
    cases h with
    | primitive h =>
      rw [typeRule_of_primitive h]
      exact ⟨h, rfl⟩
    | pointer h => exact ⟨_, h, rfl⟩
    | byRef h => exact ⟨_, h, rfl⟩
    | valueType h => exact ⟨_, h, rfl⟩
    | classType h => exact ⟨_, h, rfl⟩
    | typeParameter h => exact ⟨_, h, rfl⟩
    | array helement hrank hsizes hlower =>
      exact ⟨_, _, helement, _, _, hrank, _, _, hsizes, _, hlower, rfl⟩
    | genericInstance htag hbase harguments =>
      exact ⟨_, rfl, htag, _, _, hbase, _, harguments, rfl⟩
    | functionPointer h => exact ⟨_, h, rfl⟩
    | vector h => exact ⟨_, h, rfl⟩
    | methodParameter h => exact ⟨_, h, rfl⟩
    | modified htag htoken h =>
      rcases isModifier_iff.mp htag with rfl | rfl <;> exact ⟨_, _, htoken, h⟩
    | pinned h => exact ⟨_, h, rfl⟩
  · intro h
    have htag : ∀ {b : UInt8}, tag.toNat = b.toNat → tag = b := UInt8.toNat_inj.mp
    unfold TypeRule at h
    split at h
    · next heq =>
      obtain rfl : tag = 0x0F := htag heq
      obtain ⟨_, h, rfl⟩ := h
      exact .pointer h
    · next heq =>
      obtain rfl : tag = ElementTag.byRef := htag heq
      obtain ⟨_, h, rfl⟩ := h
      exact .byRef h
    · next heq =>
      obtain rfl : tag = ElementTag.valueType := htag heq
      obtain ⟨_, h, rfl⟩ := h
      exact .valueType h
    · next heq =>
      obtain rfl : tag = ElementTag.classType := htag heq
      obtain ⟨_, h, rfl⟩ := h
      exact .classType h
    · next heq =>
      obtain rfl : tag = 0x13 := htag heq
      obtain ⟨_, h, rfl⟩ := h
      exact .typeParameter h
    · next heq =>
      obtain rfl : tag = 0x14 := htag heq
      obtain ⟨_, _, helement, _, _, hrank, _, _, hsizes, _, hlower, rfl⟩ := h
      exact .array helement hrank hsizes hlower
    · next heq =>
      obtain rfl : tag = 0x15 := htag heq
      obtain ⟨_, hhead, hbaseTag, _, _, hbase, _, harguments, rfl⟩ := h
      obtain ⟨tail, rfl⟩ := List.head?_eq_some_iff.mp hhead
      exact .genericInstance hbaseTag hbase harguments
    · next heq =>
      obtain rfl : tag = 0x1B := htag heq
      obtain ⟨_, h, rfl⟩ := h
      exact .functionPointer h
    · next heq =>
      obtain rfl : tag = 0x1D := htag heq
      obtain ⟨_, h, rfl⟩ := h
      exact .vector h
    · next heq =>
      obtain rfl : tag = 0x1E := htag heq
      obtain ⟨_, h, rfl⟩ := h
      exact .methodParameter h
    · next heq =>
      obtain ⟨_, _, htoken, h⟩ := h
      exact .modified (isModifier_iff.mpr (.inl (htag heq))) htoken h
    · next heq =>
      obtain ⟨_, _, htoken, h⟩ := h
      exact .modified (isModifier_iff.mpr (.inr (htag heq))) htoken h
    · next heq =>
      obtain rfl : tag = 0x45 := htag heq
      obtain ⟨_, h, rfl⟩ := h
      exact .pinned h
    · obtain ⟨h, rfl⟩ := h
      exact .primitive h

theorem recognizes_array (h : Recognizes readType level T) :
    Recognizes (typeBody readType 0x14) level (TypeRule T 0x14) := by
  refine (h.bind fun element => recognizes_compressed.bind fun rank =>
    recognizes_compressed.bind fun sizes =>
    (recognizes_collect recognizes_compressed sizes).discard.bind fun _ =>
    recognizes_compressed.bind fun lowerBounds =>
    (recognizes_collect recognizes_compressed lowerBounds).discard.bind fun _ =>
    .pure (TypeSig.array element rank)).congr fun data type rest => ?_
  constructor
  · rintro ⟨element, _, helement, rank, _, hrank, _, _, hsizes, _, _, ⟨sizes, hsized, rfl⟩,
      _, _, hlower, _, _, ⟨lowerBounds, hbounded, rfl⟩, rfl, rfl⟩
    exact ⟨element, _, helement, rank, _, hrank, sizes, _, ⟨_, hsizes, hsized⟩, lowerBounds,
      ⟨_, hlower, hbounded⟩, rfl⟩
  · rintro ⟨element, _, helement, rank, _, hrank, sizes, _, ⟨_, hsizes, hsized⟩, lowerBounds,
      ⟨_, hlower, hbounded⟩, rfl⟩
    exact ⟨element, _, helement, rank, _, hrank, _, _, hsizes, (), _, ⟨sizes, hsized, rfl⟩,
      _, _, hlower, (), _, ⟨lowerBounds, hbounded, rfl⟩, rfl, rfl⟩

theorem recognizes_genericInstance (h : Recognizes readType level T) :
    Recognizes (typeBody readType 0x15) level (TypeRule T 0x15) := by
  refine (recognizes_peek.bind fun next => .ite (fun _ => .throw _) fun _ =>
    h.bind fun base => recognizes_compressed.bind fun count =>
    (recognizes_collect h count).map (TypeSig.genericInstance base)).congr fun data type rest => ?_
  -- what is refused in front of the base is all but the two tags
  have hrefused : ∀ next : UInt8,
      (next != ElementTag.classType && next != ElementTag.valueType) = true ↔
        ¬(next = ElementTag.classType ∨ next = ElementTag.valueType) := by
    intro next
    simp
  constructor
  · rintro ⟨next, _, ⟨hnext, rfl⟩, hrest⟩
    split at hrest
    · exact hrest.elim
    · next htag =>
      rw [hrefused, Classical.not_not] at htag
      obtain ⟨base, _, hbase, _, _, hcount, arguments, ⟨hitems, rfl⟩, rfl⟩ := hrest
      exact ⟨next, hnext, htag, base, _, hbase, arguments, ⟨_, hcount, hitems⟩, rfl⟩
  · rintro ⟨next, hnext, htag, base, _, hbase, arguments, ⟨_, hcount, hitems⟩, rfl⟩
    refine ⟨next, _, ⟨hnext, rfl⟩, ?_⟩
    rw [if_neg fun h => (hrefused next).mp h htag]
    exact ⟨base, _, hbase, _, _, hcount, arguments, ⟨hitems, rfl⟩, rfl⟩

/-- A modifier inside a type, and more of them. -/
theorem recognizes_modifiedType (h : Recognizes readType level T) :
    Recognizes (typeBody readType 0x1F) level (TypeRule T 0x1F) := by
  refine (recognizes_token.discard.bind fun _ => recognizes_modified h).congr
    fun data type rest => ?_
  constructor
  · rintro ⟨_, mid, ⟨token, htoken⟩, hmodified⟩
    exact ⟨token, mid, htoken, hmodified⟩
  · rintro ⟨token, mid, htoken, hmodified⟩
    exact ⟨(), mid, ⟨token, htoken⟩, hmodified⟩

theorem recognizes_typeBody (h : Recognizes readType level T) (hT : Started T) (tag : UInt8) :
    Recognizes (typeBody readType tag) level (TypeRule T tag.toNat) := by
  have hprimitive : ∀ {type : TypeSig}, TypeSig.primitive? tag.toNat = some type →
      Recognizes (pure type) level (TypeRule T tag.toNat) := by
    intro type hsome
    rw [typeRule_of_primitive hsome]
    refine (Recognizes.pure type).congr fun data type' rest => ?_
    rw [hsome, Option.some.injEq, eq_comm]
  unfold typeBody
  split
  any_goals exact hprimitive (by rw [‹tag.toNat = _›]; rfl)
  · next heq =>
    rw [heq]
    exact (recognizes_modified (h.map TypeSig.pointer)).congr fun _ _ _ => modified_map
  · next heq =>
    rw [heq]
    exact h.map TypeSig.byRef
  · next heq =>
    rw [heq]
    exact recognizes_token.map TypeSig.valueType
  · next heq =>
    rw [heq]
    exact recognizes_token.map TypeSig.classType
  · next heq =>
    rw [heq]
    exact recognizes_compressed.map TypeSig.typeParameter
  · next heq =>
    rw [heq]
    exact recognizes_array h
  · next heq =>
    rw [heq]
    exact recognizes_genericInstance h
  · next heq =>
    rw [heq]
    exact (recognizes_method h hT).map TypeSig.functionPointer
  · next heq =>
    rw [heq]
    exact (recognizes_modified (h.map TypeSig.vector)).congr fun _ _ _ => modified_map
  · next heq =>
    rw [heq]
    exact recognizes_compressed.map TypeSig.methodParameter
  · next heq =>
    rw [heq]
    exact recognizes_modifiedType h
  · next heq =>
    rw [heq]
    exact recognizes_modifiedType h
  · next heq =>
    rw [heq]
    exact h.map TypeSig.pinned
  · -- no rule is for any other byte
    refine (Recognizes.throw _).congr fun data type rest => ⟨False.elim, fun hrule => ?_⟩
    unfold TypeRule at hrule
    split at hrule <;> try contradiction
    have hnone := hrule.1
    unfold TypeSig.primitive? at hnone
    split at hnone <;> contradiction

end

/-! The levels of types. -/

section
variable {read : SignatureReader α} {c : Cursor}

theorem run_nested_of_limit (h : levelLimit ≤ level + 1) :
    (nested read).run ⟨c, level⟩ = .error (.recursionLimit levelLimit) ⟨c, level + 1⟩ :=
  if_pos h

theorem run_nested_of_ok {a : α} {s : SignatureCursor} (hlimit : ¬levelLimit ≤ level + 1)
    (h : read.run ⟨c, level + 1⟩ = .ok a s) :
    (nested read).run ⟨c, level⟩ = .ok a { s with level := s.level - 1 } := by
  show nested read ⟨c, level⟩ = _
  unfold nested
  dsimp only
  rw [if_neg hlimit, show read ⟨c, level + 1⟩ = _ from h]

theorem run_nested_of_error {e : Error} {s : SignatureCursor} (hlimit : ¬levelLimit ≤ level + 1)
    (h : read.run ⟨c, level + 1⟩ = .error e s) :
    (nested read).run ⟨c, level⟩ = .error e { s with level := s.level - 1 } := by
  show nested read ⟨c, level⟩ = _
  unfold nested
  dsimp only
  rw [if_neg hlimit, show read ⟨c, level + 1⟩ = _ from h]

/-- Below the limit, what is nested is read one level further down. -/
theorem recognizes_nested {F : Form α} (h : Recognizes read (level + 1) F) :
    Recognizes (nested read) level fun data a rest => level + 1 < levelLimit ∧ F data a rest where
  suffix := fun hform => h.suffix hform.2
  run_ok := by
    intro c a s
    by_cases hlimit : levelLimit ≤ level + 1
    · rw [run_nested_of_limit hlimit]
      constructor
      · intro h
        cases h
      · rintro ⟨_, _, _, hlt, _⟩
        omega
    · constructor
      · intro hok
        cases hread : read.run ⟨c, level + 1⟩ with
        | ok b t =>
          rw [run_nested_of_ok hlimit hread] at hok
          cases hok
          obtain ⟨c', rfl, hdata, hform⟩ := h.run_ok.mp hread
          exact ⟨c', rfl, hdata, Nat.lt_of_not_le hlimit, hform⟩
        | error e t =>
          rw [run_nested_of_error hlimit hread] at hok
          cases hok
      · rintro ⟨c', rfl, hdata, -, hform⟩
        exact run_nested_of_ok hlimit (h.run_ok.mpr ⟨c', rfl, hdata, hform⟩)

end

theorem started_layer {L : Liberties} {T : Form TypeSig} : Started (TypeLayer L T) := by
  intro data type rest h
  cases h with
  | @primitive tag _ _ h =>
    refine ⟨_, _, rfl, ?_⟩
    rintro rfl
    cases h
  | @modified tag _ _ _ _ _ htag _ _ =>
    refine ⟨_, _, rfl, ?_⟩
    rintro rfl
    cases htag
  | _ => exact ⟨_, _, rfl, by decide⟩

theorem started_type {L : Liberties} (levels : Nat) : Started (TypeForm L levels) := by
  cases levels with
  | zero => exact fun h => h.elim
  | succ levels => exact started_layer

/-- By induction on the room: a type is read on every level with the levels that the limit
leaves. -/
theorem recognizes_type (room level : Nat) :
    Recognizes (type room) level (TypeForm .all (min room (levelLimit - 1 - level))) := by
  induction room generalizing level with
  | zero =>
    refine (recognizes_nested (Recognizes.throw _)).congr fun data type rest => ?_
    rw [Nat.zero_min]
    exact ⟨And.right, False.elim⟩
  | succ room ih =>
    refine (recognizes_nested (recognizes_byte.bind fun tag =>
      recognizes_typeBody (ih (level + 1)) (started_type _) tag)).congr fun data type rest => ?_
    by_cases hlimit : level + 1 < levelLimit
    · have hlevels : min (room + 1) (levelLimit - 1 - level) =
          min room (levelLimit - 1 - (level + 1)) + 1 := by omega
      rw [hlevels]
      constructor
      · rintro ⟨-, tag, mid, rfl, hrule⟩
        exact typeLayer_iff.mpr hrule
      · intro h
        obtain ⟨tag, mid, rfl, -⟩ := started_layer h
        exact ⟨hlimit, tag, mid, rfl, typeLayer_iff.mp h⟩
    · have hlevels : min (room + 1) (levelLimit - 1 - level) = 0 := by omega
      rw [hlevels]
      exact ⟨fun h => hlimit h.1, False.elim⟩

/-- On a level of its own, a signature is read with all the levels. -/
theorem recognizes_signature : Recognizes method 0 (SignatureForm .all) :=
  recognizes_method (recognizes_type levelLimit 0) (started_type _)

/-- The signatures that are read are those of the grammar. A signature is read from the front
of any bytes, up to its end and back to the first level; whatever is read is a signature up to
the liberties; without liberties that is a signature and the bytes behind it; and no bytes
begin with two signatures. -/
theorem method_grammar :
    (∀ front signature, Spells front signature → ∀ rest,
      ∃ s, method.run (SignatureCursor.ofBytes (front ++ rest)) = .ok signature s ∧
        s.cursor.pos = front.length ∧ s.cursor.rest = rest ∧ s.level = 0) ∧
    (∀ data signature s, method.run (SignatureCursor.ofBytes data) = .ok signature s ↔
      s.level = 0 ∧ s.cursor.data = data ∧ SignatureForm .all data signature s.cursor.rest) ∧
    (∀ data signature rest, SignatureForm .none data signature rest ↔
      ∃ front, data = front ++ rest ∧ Spells front signature) ∧
    ∀ front front' signature signature' rest rest', Spells front signature →
      Spells front' signature' → front ++ rest = front' ++ rest' →
      front = front' ∧ signature = signature' := by
  have hread : ∀ data signature s, method.run (SignatureCursor.ofBytes data) = .ok signature s ↔
      s.level = 0 ∧ s.cursor.data = data ∧ SignatureForm .all data signature s.cursor.rest := by
    intro data signature s
    show method.run ⟨Cursor.ofBytes data, 0⟩ = _ ↔ _
    rw [recognizes_signature.run_ok]
    constructor
    · rintro ⟨c, rfl, hdata, hform⟩
      exact ⟨rfl, hdata, hform⟩
    · obtain ⟨c, level⟩ := s
      rintro ⟨rfl, hdata, hform⟩
      exact ⟨c, rfl, hdata, hform⟩
  have hspelled : ∀ front signature, Spells front signature → ∀ rest,
      ∃ s, method.run (SignatureCursor.ofBytes (front ++ rest)) = .ok signature s ∧
        s.cursor.pos = front.length ∧ s.cursor.rest = rest ∧ s.level = 0 := by
    intro front signature h rest
    obtain ⟨c, hdata, hrest⟩ : ∃ c : Cursor, c.data = front ++ rest ∧ c.rest = rest :=
      (Cursor.ofBytes (front ++ rest)).exists_behind (List.suffix_append front rest)
    refine ⟨⟨c, 0⟩, (hread _ _ _).mpr ⟨rfl, hdata, ?_⟩, ?_, hrest, rfl⟩
    · rw [hrest]
      exact h.form .all rest
    · have hlength := c.length_rest
      have hle := c.pos_le
      rw [hrest, hdata, List.length_append] at hlength
      rw [hdata, List.length_append] at hle
      show c.pos = _
      omega
  refine ⟨hspelled, hread, fun _ _ _ => signatureForm_none_iff, ?_⟩
  intro front front' signature signature' rest rest' h h' hsame
  obtain ⟨s, hrun, hpos, -⟩ := hspelled front signature h rest
  obtain ⟨s', hrun', hpos', -⟩ := hspelled front' signature' h' rest'
  -- both were read from the same bytes
  rw [hsame, hrun', EStateM.Result.ok.injEq] at hrun
  obtain ⟨rfl, rfl⟩ := hrun
  exact ⟨(List.append_inj hsame (hpos.symm.trans hpos')).1, rfl⟩

/-- A modified class that is returned by reference. -/
def richReturn : ParamSig where
  modifiers := [⟨0x01000002⟩]
  isByRef := true
  base := .classType ⟨0x02000002⟩
  blob := [0x20, 0x09, 0x10, 0x12, 0x08]
  typeBlob := [0x12, 0x08]

/-- An array of two dimensions, one of them with a size, which is in two bytes. -/
def richArray : ParamSig where
  modifiers := []
  isByRef := false
  base := .array .int32 2
  blob := [0x14, 0x08, 0x02, 0x01, 0x80, 0x03, 0x00]
  typeBlob := [0x14, 0x08, 0x02, 0x01, 0x80, 0x03, 0x00]

/-- A generic instance over the method's parameter and a pointer to a modified type. -/
def richInstance : ParamSig where
  modifiers := []
  isByRef := false
  base := .genericInstance (.valueType ⟨0x01000001⟩) [.methodParameter 0, .pointer .void]
  blob := [0x15, 0x11, 0x05, 0x02, 0x1E, 0x00, 0x0F, 0x1F, 0x06, 0x01]
  typeBlob := [0x15, 0x11, 0x05, 0x02, 0x1E, 0x00, 0x0F, 0x1F, 0x06, 0x01]

/-- An instance method with one generic parameter. -/
def richSignature : MethodSig where
  hasThis := true
  explicitThis := false
  isVararg := false
  genericCount := 1
  returnType := richReturn
  params := [richArray, richInstance]

def richBytes : List UInt8 :=
  [0x30, 0x01, 0x02] ++ richReturn.blob ++ richArray.blob ++ richInstance.blob

theorem spells_richSignature : Spells richBytes richSignature := by
  have hplain : ∀ {tag : UInt8} {tail : List UInt8}, ElementTag.isModifier tag = false →
      Unmodified (tag :: tail) := by
    rintro tag tail h _ ⟨⟩
    exact h
  have hvalue : ∀ {tag : UInt8} {tail : List UInt8}, tag ≠ ElementTag.byRef →
      (tag :: tail).head? ≠ some ElementTag.byRef :=
    fun h heq => h (Option.some.inj heq)
  have htoken : ∀ {tag : Nat} {token : Token} {rest : List UInt8},
      packedTables[tag]? = some token.table → token.row * 4 + tag < 0x80 →
      TokenForm .none (UInt8.ofNat (token.row * 4 + tag) :: rest) token rest :=
    fun htable h => .packed htable (.one h)
  have hreturn : ∀ rest, ParamForm .none (TypeForm .none 49) (richReturn.blob ++ rest)
      richReturn rest := fun rest =>
    .byRef (.cons rfl (@htoken 1 ⟨0x01000002⟩ _ rfl (by decide)) .nil)
      (.classType (@htoken 0 ⟨0x02000002⟩ _ rfl (by decide))) rfl rfl
  have hsizes : ∀ rest, CountedForm CompressedForm (0x01 :: 0x80 :: 0x03 :: rest) [3] rest :=
    fun rest => ⟨_, @CompressedForm.one 1 _ (by decide),
      .cons (@CompressedForm.two 3 _ (by decide)) .nil⟩
  have hlower : ∀ rest, CountedForm CompressedForm (0x00 :: rest) [] rest :=
    fun rest => ⟨_, @CompressedForm.one 0 _ (by decide), .nil⟩
  have harray : ∀ rest, ParamForm .none (TypeForm .none 49) (richArray.blob ++ rest)
      richArray rest := fun rest =>
    .byValue .nil (hplain rfl) (hvalue (by decide)) (.array (.primitive rfl)
      (@CompressedForm.one 2 _ (by decide)) (hsizes _) (hlower _)) rfl rfl
  have hpointer : ∀ rest, TypeForm .none 48 (0x0F :: 0x1F :: 0x06 :: 0x01 :: rest)
      (.pointer .void) rest := fun rest =>
    .pointer ⟨_, _, .cons rfl (@htoken 2 ⟨0x1B000001⟩ _ rfl (by decide)) .nil, hplain rfl,
      .primitive rfl⟩
  have hinstance : ∀ rest, ParamForm .none (TypeForm .none 49) (richInstance.blob ++ rest)
      richInstance rest := fun rest =>
    .byValue .nil (hplain rfl) (hvalue (by decide)) (.genericInstance (.inr rfl)
      (.valueType (@htoken 1 ⟨0x01000001⟩ _ rfl (by decide)))
      ⟨_, @CompressedForm.one 2 _ (by decide),
        .cons (.methodParameter (@CompressedForm.one 0 _ (by decide)))
          (.cons (hpointer rest) .nil)⟩) rfl rfl
  exact .mk (.counted (by decide) (@CompressedForm.one 1 _ (by decide)))
    (@CompressedForm.one 2 _ (by decide)) (hreturn _) (.cons (harray _) (.cons (hinstance []) .nil))

theorem method_grammar_richSignature :
    Spells richBytes richSignature ∧ ∀ rest,
      ∃ s, method.run (SignatureCursor.ofBytes (richBytes ++ rest)) = .ok richSignature s ∧
        s.cursor.pos = 25 ∧ s.cursor.rest = rest ∧ s.level = 0 :=
  ⟨spells_richSignature, method_grammar.1 richBytes richSignature spells_richSignature⟩

end SignatureReader

end CilInstrument
