import CilInstrument.Proofs.SignatureReading
import CilInstrument.Proofs.VarargForms

/- What is read of a signature with variable arguments inside. Reading stops in front of a
   sentinel and leaves it there, also where the signature belongs to a function pointer, so
   that whoever reads on behind the pointer meets the sentinel: a list of parameters takes it
   for its own and ends, an argument of a generic type is refused. `Foretells` says that the
   ending in the grammar is what reading comes to; it is shown of parameters, signatures and
   layers of types, and so of all types. -/
namespace CilInstrument

namespace SignatureReader

open Step

variable {α : Type} {level : Nat}

/-- No bytes begin with two values. -/
theorem Recognizes.unique {read : SignatureReader α} {F : Form α} (h : Recognizes read level F)
    {data rest rest' : List UInt8} {a a' : α} (hform : F data a rest) (hform' : F data a' rest') :
    a = a' ∧ rest = rest' := by
  have hstart : (Cursor.ofBytes data).rest = data := rfl
  rw [← hstart] at hform hform'
  obtain ⟨c, hdata, rfl⟩ := (Cursor.ofBytes data).exists_behind (h.suffix hform)
  obtain ⟨c', hdata', rfl⟩ := (Cursor.ofBytes data).exists_behind (h.suffix hform')
  have hrun := h.run_ok.mpr ⟨c, rfl, hdata, hform⟩
  have hrun' := h.run_ok.mpr ⟨c', rfl, hdata', hform'⟩
  rw [hrun] at hrun'
  cases hrun'
  exact ⟨rfl, rfl⟩

/-- The ending in the grammar is what reading comes to. -/
structure Foretells (E : Ended α) (F : Form α) : Prop where
  whole : ∀ {data a rest}, E .whole data a rest → F data a rest
  stopped : ∀ {data a rest}, E .stopped data a rest →
    ∃ a' more, F data a' (ElementTag.sentinel :: more)
  refused : ∀ {data a rest}, E .refused data a rest → ∀ a' left, ¬F data a' left

/-- What has to be known of the types inside: how they are read, and where that ends. -/
structure Understood (readType : SignatureReader TypeSig) (level : Nat) (E : Ended TypeSig)
    (F : Form TypeSig) : Prop where
  foretells : Foretells E F
  recognizes : Recognizes readType level F
  started : Started F
  startedEnded : ∀ e, Started (E e)

section
variable {readType : SignatureReader TypeSig} {E : Ended TypeSig} {F : Form TypeSig}

/-! Parameters. -/

theorem paramForm_all {T : Form TypeSig} {data rest : List UInt8} {p : ParamSig}
    (h : ParamForm .none T data p rest) : ParamForm .all T data p rest := by
  have hmodifiers : Carries (ModifiersForm .none) (ModifiersForm .all) :=
    carries_modifiers fun _ => rfl
  cases h with
  | byValue hmods hend hplain htype hblob htypeBlob =>
    exact .byValue (hmodifiers.form hmods) hend hplain htype hblob htypeBlob
  | byRef hmods htype hblob htypeBlob =>
    exact .byRef (hmodifiers.form hmods) htype hblob htypeBlob

/-- What starts a type or a parameter does not start with the sentinel. -/
theorem ne_sentinel_of_started {data more : List UInt8}
    (h : ∃ tag tail, data = tag :: tail ∧ tag ≠ ElementTag.sentinel) :
    data ≠ ElementTag.sentinel :: more := by
  rintro rfl
  obtain ⟨_, _, hcons, hne⟩ := h
  exact hne (List.cons.inj hcons).1.symm

variable (types : Understood readType level E F)
include types

/-- A parameter is what is marked and the type behind it, however far that is read. -/
theorem exists_marked {e : Ending} {data rest : List UInt8} {p : ParamSig}
    (h : EndedParam E e data p rest) :
    ∃ mid, MarkedForm data (p.modifiers, p.isByRef) mid ∧ E e mid p.base rest ∧
      data = p.blob ++ rest ∧ mid = p.typeBlob ++ rest :=
  (paramForm_iff (T := E e) (types.startedEnded e)).mp (paramForm_all h)

/-- Of a parameter that is read up to a sentinel, what stands in front of the type is kept. -/
theorem exists_param_of_stopped {data rest : List UInt8} {p : ParamSig}
    (h : EndedParam E .stopped data p rest) :
    ∃ p' more, p'.modifiers = p.modifiers ∧ p'.isByRef = p.isByRef ∧
      ParamForm .all F data p' (ElementTag.sentinel :: more) := by
  obtain ⟨mid, hmarked, htype, -, -⟩ := exists_marked types h
  obtain ⟨base, more, hbase⟩ := types.foretells.stopped htype
  obtain ⟨front, rfl⟩ := (@recognizes_marked level).suffix hmarked
  obtain ⟨typeBlob, rfl⟩ := types.recognizes.suffix hbase
  refine ⟨⟨p.modifiers, p.isByRef, base, front ++ typeBlob, typeBlob⟩, more, rfl, rfl, ?_⟩
  exact (paramForm_iff types.started).mpr ⟨_, hmarked, hbase, (List.append_assoc _ _ _).symm, rfl⟩

theorem foretells_param : Foretells (EndedParam E) (ParamForm .all F) where
  whole := by
    intro data p rest h
    obtain ⟨mid, hmarked, htype, hblob, htypeBlob⟩ := exists_marked types h
    exact (paramForm_iff types.started).mpr
      ⟨mid, hmarked, types.foretells.whole htype, hblob, htypeBlob⟩
  stopped := by
    intro data p rest h
    obtain ⟨p', more, -, -, hp⟩ := exists_param_of_stopped types h
    exact ⟨p', more, hp⟩
  refused := by
    intro data p rest h p' left h'
    obtain ⟨mid, hmarked, htype, -, -⟩ := exists_marked types h
    obtain ⟨mid', hmarked', htype', -, -⟩ := (paramForm_iff types.started).mp h'
    obtain ⟨-, rfl⟩ := (@recognizes_marked level).unique hmarked hmarked'
    exact types.foretells.refused htype _ _ htype'

omit types

/-! Lists of parameters. -/

/-- Whatever is still to come, a list ends in front of a sentinel. -/
theorem params_at_sentinel (count : Nat) (more : List UInt8) :
    ParamsForm .all F count (ElementTag.sentinel :: more) [] (ElementTag.sentinel :: more) := by
  cases count with
  | zero => exact .nil
  | succ count => exact .sentinel rfl

theorem params_append {data mid rest : List UInt8} {before more : List ParamSig} {count : Nat}
    (hbefore : ItemsForm (ParamForm .all F) data before mid)
    (hmore : ParamsForm .all F count mid more rest) :
    ParamsForm .all F (before.length + count) data (before ++ more) rest := by
  induction hbefore with
  | nil => simpa using hmore
  | cons hfirst _ ih =>
    rw [List.length_cons, Nat.add_right_comm]
    exact .cons hfirst (ih hmore)

include types in
/-- Behind parameters that are read, reading goes on with the others. -/
theorem params_of_append {data mid left : List UInt8} {before read : List ParamSig} {count : Nat}
    (hbefore : ItemsForm (ParamForm .all F) data before mid)
    (h : ParamsForm .all F (before.length + count) data read left) :
    ∃ more, ParamsForm .all F count mid more left := by
  induction hbefore generalizing read with
  | nil => exact ⟨read, by simpa using h⟩
  | cons hfirst _ ih =>
    rw [List.length_cons, Nat.add_right_comm] at h
    cases h with
    | cons hfirst' hmore =>
      obtain ⟨-, rfl⟩ := (recognizes_param types.recognizes types.started).unique hfirst hfirst'
      exact ih hmore
    | sentinel _ =>
      exact absurd rfl (ne_sentinel_of_started (started_param types.started hfirst))

theorem items_mono {β : Type} {G G' : Form β} (hG : ∀ {data a rest}, G data a rest → G' data a rest)
    {data rest : List UInt8} {items : List β} (h : ItemsForm G data items rest) :
    ItemsForm G' data items rest := by
  induction h with
  | nil => exact .nil
  | cons hfirst _ ih => exact .cons (hG hfirst) ih

/-! Signatures. -/

section
variable {m : MethodEndings} {data rest : List UInt8} {signature : MethodSig}

include types

/-- A return type that is read up to a sentinel ends the signature. -/
theorem method_of_stopped_return (h : EndedMethod E m data signature rest)
    (hreturn : m.returnType = .stopped) :
    ∃ p more, MethodForm .all F data { signature with returnType := p, params := [] }
      (ElementTag.sentinel :: more) := by
  cases h with
  | mk hgenerics hcount hreturned _ _ =>
    rw [hreturn] at hreturned
    obtain ⟨p, more, -, -, hp⟩ := exists_param_of_stopped types hreturned
    exact ⟨p, more, .mk hgenerics hcount hp (params_at_sentinel _ _)⟩

/-- So does a parameter, and the ones behind it are lost. -/
theorem method_of_stopped_param (h : EndedMethod E m data signature rest)
    (hreturn : m.returnType = .whole) {n : Nat} {later : List Ending}
    (hparams : m.params = List.replicate n .whole ++ .stopped :: later) :
    ∃ before p after p' more, signature.params = before ++ p :: after ∧ before.length = n ∧
      p'.modifiers = p.modifiers ∧ p'.isByRef = p.isByRef ∧
      MethodForm .all F data { signature with params := before ++ [p'] }
        (ElementTag.sentinel :: more) := by
  have hparam := foretells_param types
  cases h with
  | @mk _ _ _ _ _ _ _ _ extras _ _ hgenerics hcount hreturned hlisted _ =>
    rw [hreturn] at hreturned
    rw [hparams] at hlisted
    obtain ⟨before, p, after, mid, next, rfl, hlength, hbefore, hp⟩ := hlisted.split
    obtain ⟨p', more, hmods, hbyRef, hp'⟩ := exists_param_of_stopped types hp
    refine ⟨before, p, after, p', more, rfl, hlength, hmods, hbyRef, ?_⟩
    have hrest : ParamsForm .all F (1 + (after.length + extras)) mid [p']
        (ElementTag.sentinel :: more) := by
      rw [Nat.add_comm]
      exact .cons hp' (params_at_sentinel _ _)
    have hread := params_append (items_mono hparam.whole hbefore) hrest
    rw [show before.length + (1 + (after.length + extras)) =
      (before ++ p :: after).length + extras by simp; omega] at hread
    exact .mk hgenerics hcount (hparam.whole hreturned) hread

/-- If all that is declared is read to its end, reading ends there. -/
theorem method_of_declared (h : EndedMethod E m data signature rest)
    (hdeclared : m.declared = .whole) :
    ∃ left, MethodForm .all F data signature left ∧
      (m.behind = .stopped → ∃ more, left = ElementTag.sentinel :: more) := by
  have hparam := foretells_param types
  obtain ⟨hreturn, hparams⟩ := List.forall_mem_cons.mp (Ending.first_eq_whole_iff.mp hdeclared)
  obtain ⟨returnType, params, behind⟩ := m
  obtain rfl : returnType = .whole := hreturn
  cases h with
  | @mk _ _ _ _ _ left _ _ extras _ _ hgenerics hcount hreturned hlisted hextras =>
    have hitems := items_mono hparam.whole (hlisted.items_of_whole hparams)
    have hend : ParamsForm .all F extras left [] left ∧
        (behind = .stopped → ∃ more, left = ElementTag.sentinel :: more) := by
      cases hextras with
      | none => exact ⟨.nil, fun h => (nomatch h)⟩
      | some _ _ _ => exact ⟨params_at_sentinel _ _, fun _ => ⟨_, rfl⟩⟩
    have hread := params_append hitems hend.1
    rw [List.append_nil] at hread
    exact ⟨left, .mk hgenerics hcount (hparam.whole hreturned) hread, hend.2⟩

/-- If reading does not get through the declared parameters, there is no signature. -/
theorem not_method_of_refused (h : EndedMethod E m data signature rest)
    (hdeclared : m.declared = .refused) (read : MethodSig) (left : List UInt8) :
    ¬MethodForm .all F data read left := by
  have hparam := foretells_param types
  intro hmethod
  obtain ⟨returnType, params, behind⟩ := m
  cases h with
  | @mk convention _ _ _ _ _ _ _ extras _ _ hgenerics hcount hreturned hlisted _ =>
    cases hmethod with
    | mk hgenerics' hcount' hreturned' hlisted' =>
      obtain ⟨-, rfl⟩ := (@recognizes_generics level convention).unique hgenerics hgenerics'
      obtain ⟨rfl, rfl⟩ := (@recognizes_compressed level).unique hcount hcount'
      by_cases hwhole : returnType = .whole
      · subst hwhole
        have hrecognizes := recognizes_param types.recognizes types.started
        obtain ⟨-, rfl⟩ := hrecognizes.unique (hparam.whole hreturned) hreturned'
        have hfirst : Ending.first params = .refused := hdeclared
        obtain ⟨n, later, rfl⟩ := Ending.exists_of_first hfirst (by decide)
        obtain ⟨before, p, after, mid, next, rfl, rfl, hbefore, hp⟩ := hlisted.split
        rw [show (before ++ p :: after).length + extras =
          before.length + (after.length + extras + 1) by simp; omega] at hlisted'
        obtain ⟨more, hmore⟩ :=
          params_of_append types (items_mono hparam.whole hbefore) hlisted'
        cases hmore with
        | cons hp' _ => exact hparam.refused hp _ _ hp'
        | sentinel _ =>
          have hhead := started_param (types.startedEnded .refused) (paramForm_all hp)
          exact ne_sentinel_of_started hhead rfl
      · obtain rfl : returnType = .refused := by
          cases returnType <;> first | rfl | cases hdeclared | exact absurd rfl hwhole
        exact hparam.refused hreturned _ _ hreturned'

end

include types in
/-- A signature that is not read to its end is read up to the first sentinel. -/
theorem exists_method_of_stopped {m : MethodEndings} {data rest : List UInt8}
    {signature : MethodSig} (h : EndedMethod E m data signature rest) (hall : m.all = .stopped) :
    ∃ read more, MethodForm .all F data read (ElementTag.sentinel :: more) := by
  rw [m.all_eq] at hall
  by_cases hdeclared : m.declared = .whole
  · rw [if_pos hdeclared] at hall
    obtain ⟨left, hread, hend⟩ := method_of_declared types h hdeclared
    have hbehind : m.behind = .stopped := by
      cases hb : m.behind <;> simp_all [Ending.first]
    obtain ⟨more, rfl⟩ := hend hbehind
    exact ⟨signature, more, hread⟩
  · rw [if_neg hdeclared] at hall
    by_cases hreturn : m.returnType = .whole
    · unfold MethodEndings.declared at hall
      rw [hreturn] at hall
      have hfirst : Ending.first m.params = .stopped := hall
      obtain ⟨n, later, hparams⟩ := Ending.exists_of_first hfirst (by decide)
      obtain ⟨_, _, _, _, more, -, -, -, -, hread⟩ :=
        method_of_stopped_param types h hreturn hparams
      exact ⟨_, more, hread⟩
    · have hstopped : m.returnType = .stopped := by
        unfold MethodEndings.declared at hall
        cases hr : m.returnType <;> simp_all [Ending.first]
      obtain ⟨_, more, hread⟩ := method_of_stopped_return types h hstopped
      exact ⟨_, more, hread⟩

/-! Types. -/

/-- A type that only has something in front of the one inside is read as far as that one. -/
theorem exists_inside {T : Form TypeSig} {tag : UInt8} {data rest : List UInt8} {type : TypeSig}
    (htag : tag ∈ wrappingTags) (h : TypeLayer .none T (tag :: data) type rest) :
    ∃ inside inner, T inside inner rest ∧ ∀ F : Form TypeSig,
      (∀ inner' left, F inside inner' left → ∃ type', TypeLayer .all F (tag :: data) type' left) ∧
      ∀ type' left, TypeLayer .all F (tag :: data) type' left → ∃ inner', F inside inner' left := by
  have hmodifiers : Carries (ModifiersForm .none) (ModifiersForm .all) :=
    carries_modifiers fun _ => rfl
  have htoken : Carries (TokenForm .none) (TokenForm .all) := carries_token fun _ => rfl
  -- modifiers in front are the same for whoever reads on
  have hmodified : ∀ {data rest : List UInt8} {a : TypeSig}, Modified .none T data a rest →
      ∃ inside inner, T inside inner rest ∧ ∀ F : Form TypeSig, ∀ inner' left,
        F inside inner' left ↔ Modified .all F data inner' left := by
    rintro data rest a ⟨mods, mid, hmods, hend, ha⟩
    refine ⟨mid, a, ha, fun F inner' left => ⟨fun hF => ?_, ?_⟩⟩
    · exact ⟨mods, mid, hmodifiers.form hmods, hend, hF⟩
    · rintro ⟨mods', mid', hmods', hend', hF⟩
      obtain ⟨-, rfl⟩ := (@recognizes_modifiers 0).unique ⟨hmodifiers.form hmods, hend⟩
        ⟨hmods', hend'⟩
      exact hF
  cases h with
  | pointer h =>
    obtain ⟨inside, inner, hinner, hall⟩ := hmodified h
    refine ⟨inside, inner, hinner, fun F => ⟨fun inner' left hF => ?_, fun type' left h' => ?_⟩⟩
    · exact ⟨_, .pointer ((hall F _ _).mp hF)⟩
    · obtain ⟨inner', h', -⟩ := typeLayer_iff.mp h'
      exact ⟨inner', (hall F _ _).mpr h'⟩
  | vector h =>
    obtain ⟨inside, inner, hinner, hall⟩ := hmodified h
    refine ⟨inside, inner, hinner, fun F => ⟨fun inner' left hF => ?_, fun type' left h' => ?_⟩⟩
    · exact ⟨_, .vector ((hall F _ _).mp hF)⟩
    · obtain ⟨inner', h', -⟩ := typeLayer_iff.mp h'
      exact ⟨inner', (hall F _ _).mpr h'⟩
  | byRef h =>
    refine ⟨data, _, h, fun F => ⟨fun inner' left hF => ⟨_, .byRef hF⟩, fun type' left h' => ?_⟩⟩
    obtain ⟨inner', h', -⟩ := typeLayer_iff.mp h'
    exact ⟨inner', h'⟩
  | pinned h =>
    refine ⟨data, _, h, fun F => ⟨fun inner' left hF => ⟨_, .pinned hF⟩, fun type' left h' => ?_⟩⟩
    obtain ⟨inner', h', -⟩ := typeLayer_iff.mp h'
    exact ⟨inner', h'⟩
  | modified hmodifier hfirst h =>
    obtain ⟨inside, inner, hinner, hall⟩ := hmodified h
    refine ⟨inside, inner, hinner, fun F => ⟨fun inner' left hF => ?_, fun type' left h' => ?_⟩⟩
    · exact ⟨_, .modified hmodifier (htoken.form hfirst) ((hall F _ _).mp hF)⟩
    · have hrule : ∃ token mid, TokenForm .all data token mid ∧
          Modified .all F mid type' left := by
        rcases isModifier_iff.mp hmodifier with rfl | rfl
        · exact typeLayer_iff.mp h'
        · exact typeLayer_iff.mp h'
      obtain ⟨_, _, hfirst', h'⟩ := hrule
      obtain ⟨-, rfl⟩ := (@recognizes_token 0).unique (htoken.form hfirst) hfirst'
      exact ⟨type', (hall F _ _).mpr h'⟩
  | primitive h =>
    simp only [wrappingTags, List.mem_cons, List.not_mem_nil, or_false] at htag
    rcases htag with rfl | rfl | rfl | rfl | rfl | rfl <;> cases h
  | _ => exact absurd htag (by decide)

theorem items_append {β : Type} {G : Form β} {data mid rest : List UInt8} {before more : List β}
    (hbefore : ItemsForm G data before mid) (hmore : ItemsForm G mid more rest) :
    ItemsForm G data (before ++ more) rest := by
  induction hbefore with
  | nil => exact hmore
  | cons hfirst _ ih => exact .cons hfirst (ih hmore)

include types in
/-- By induction on the arguments, up to the one that is refused or the one behind a sentinel. -/
theorem not_items_of_refused {endings : List Ending} {data rest : List UInt8}
    {arguments : List TypeSig} (h : EndedItems E endings data arguments rest)
    (hrefused : Ending.ofArguments endings = .refused) (read : List TypeSig) (left : List UInt8)
    (hlength : read.length = arguments.length) : ¬ItemsForm F data read left := by
  induction h generalizing read with
  | nil => cases hrefused
  | @cons e endings data mid rest a more hfirst hmore ih =>
    intro hitems
    cases hitems with
    | nil => cases hlength
    | @cons _ mid' _ a' more' hfirst' hmore' =>
      cases endings with
      | nil =>
        obtain rfl : e = .refused := hrefused
        exact types.foretells.refused hfirst _ _ hfirst'
      | cons e' endings =>
        cases e with
        | whole =>
          obtain ⟨-, rfl⟩ := types.recognizes.unique (types.foretells.whole hfirst) hfirst'
          exact ih hrefused more' (by simpa using hlength) hmore'
        | stopped =>
          obtain ⟨_, _, hstopped⟩ := types.foretells.stopped hfirst
          obtain ⟨-, rfl⟩ := types.recognizes.unique hstopped hfirst'
          cases hmore with
          | cons _ _ =>
            cases hmore' with
            | nil => simp at hlength
            | cons hnext _ => exact ne_sentinel_of_started (types.started hnext) rfl
        | refused => exact types.foretells.refused hfirst _ _ hfirst'
        | garbled => cases hrefused

section
variable {e : Ending} {data rest : List UInt8} {type : TypeSig}

include types

theorem exists_layer_of_stopped (h : EndedLayer E e data type rest) (he : e = .stopped) :
    ∃ type' more, TypeLayer .all F data type' (ElementTag.sentinel :: more) := by
  cases h with
  | plain _ => cases he
  | wrapping htag h =>
    subst he
    obtain ⟨_, _, hinner, hall⟩ := exists_inside htag h
    obtain ⟨_, more, hinner'⟩ := types.foretells.stopped hinner
    obtain ⟨type', h'⟩ := (hall F).1 _ _ hinner'
    exact ⟨type', more, h'⟩
  | @array e _ _ _ _ => cases e <;> cases he
  | genericInstance htag hbase hcount harguments =>
    obtain ⟨n, rfl⟩ := Ending.eq_of_ofArguments_stopped he
    obtain ⟨before, last, after, mid, _, rfl, hlength, hbefore, hlast⟩ := harguments.split
    have hafter : after = [] := by
      have := harguments.length_eq
      simpa [hlength] using this
    subst hafter
    obtain ⟨last', more, hlast'⟩ := types.foretells.stopped hlast
    have hitems := items_append (items_mono types.foretells.whole hbefore) (.cons hlast' .nil)
    have hsame : (before ++ [last]).length = (before ++ [last']).length := by simp
    rw [hsame] at hcount
    exact ⟨_, more, .genericInstance htag (types.foretells.whole hbase) ⟨_, hcount, hitems⟩⟩
  | functionPointer h =>
    obtain ⟨read, more, hmethod⟩ := exists_method_of_stopped types h he
    exact ⟨_, more, .functionPointer hmethod⟩

theorem not_layer_of_refused (h : EndedLayer E e data type rest) (he : e = .refused)
    (read : TypeSig) (left : List UInt8) : ¬TypeLayer .all F data read left := by
  intro h'
  cases h with
  | plain _ => cases he
  | wrapping htag h =>
    subst he
    obtain ⟨_, _, hinner, hall⟩ := exists_inside htag h
    obtain ⟨_, hinner'⟩ := (hall F).2 _ _ h'
    exact types.foretells.refused hinner _ _ hinner'
  | @array e _ _ _ h =>
    obtain rfl : e = .refused := by cases e <;> first | rfl | cases he
    obtain ⟨_, _, helement', -⟩ := typeLayer_iff.mp h'
    cases h with
    | array helement _ _ _ => exact types.foretells.refused helement _ _ helement'
    | primitive h => cases h
    | modified hmodifier _ _ => cases hmodifier
  | genericInstance htag hbase hcount harguments =>
    obtain ⟨_, -, -, _, _, hbase', arguments', ⟨_, hcount', hitems'⟩, -⟩ := typeLayer_iff.mp h'
    obtain ⟨-, rfl⟩ := types.recognizes.unique (types.foretells.whole hbase) hbase'
    obtain ⟨hlength, rfl⟩ := (@recognizes_compressed level).unique hcount hcount'
    exact not_items_of_refused types harguments he arguments' _ hlength.symm hitems'
  | functionPointer h =>
    obtain ⟨_, hmethod, -⟩ := typeLayer_iff.mp h'
    exact not_method_of_refused types h (h.declared_of_refused he) _ _ hmethod

end

end

theorem started_ended (levels : Nat) (e : Ending) : Started (EndedType levels e) := by
  cases levels with
  | zero => exact fun h => h.elim
  | succ levels =>
    intro data type rest h
    cases h with
    | plain h => exact started_layer h
    | wrapping _ h => exact started_layer h
    | array h => exact started_layer h
    | genericInstance _ _ _ _ => exact ⟨_, _, rfl, by decide⟩
    | functionPointer _ => exact ⟨_, _, rfl, by decide⟩

/-- The types of a number of levels that the limit allows. -/
theorem recognizes_levels {levels : Nat} (h : levels < levelLimit) :
    Recognizes (type levels) 0 (TypeForm .all levels) := by
  have hmin : min levels (levelLimit - 1 - 0) = levels := by omega
  have hrecognizes := recognizes_type levels 0
  rwa [hmin] at hrecognizes

/-- By induction on the levels: a type is a layer around types that are understood. -/
theorem understood_types {levels : Nat} (h : levels < levelLimit) :
    Understood (type levels) 0 (EndedType levels) (TypeForm .all levels) where
  foretells := by
    induction levels with
    | zero => exact ⟨fun h => h.elim, fun h => h.elim, fun h => h.elim⟩
    | succ levels ih =>
      have hlevels : levels < levelLimit := by omega
      have types : Understood (type levels) 0 (EndedType levels) (TypeForm .all levels) :=
        ⟨ih hlevels, recognizes_levels hlevels, started_type _, started_ended _⟩
      refine ⟨fun {data type rest} hwhole => ?_, fun hstopped => ?_, fun hrefused => ?_⟩
      · rw [endedType_whole] at hwhole
        have hcarries : Carries (TypeForm .none (levels + 1)) (TypeForm .all (levels + 1)) :=
          CarriesSome.carries (carriesSome_type (fun _ => rfl) rfl _)
        exact hcarries.form hwhole
      · exact exists_layer_of_stopped types hstopped rfl
      · exact not_layer_of_refused types hrefused rfl
  recognizes := recognizes_levels h
  started := started_type _
  startedEnded := started_ended _

end SignatureReader

namespace MethodSig

open SignatureReader Step

theorem ofBytes_ok_iff {data : List UInt8} {signature : MethodSig} :
    ofBytes data = .ok signature ↔ ∃ left, SignatureForm .all data signature left := by
  have hrun : ∀ s, method.run (SignatureCursor.ofBytes data) = .ok signature s ↔
      ∃ c, s = ⟨c, 0⟩ ∧ c.data = data ∧ SignatureForm .all data signature c.rest :=
    fun _ => recognizes_signature.run_ok
  constructor
  · intro h
    unfold ofBytes outcome at h
    split at h
    · next s hread =>
      cases h
      obtain ⟨c, -, -, hform⟩ := (hrun s).mp hread
      exact ⟨c.rest, hform⟩
    · cases h
  · rintro ⟨left, hform⟩
    obtain ⟨c, hdata, rfl⟩ :=
      (Cursor.ofBytes data).exists_behind (recognizes_signature.suffix hform)
    have hread : method (SignatureCursor.ofBytes data) = .ok signature ⟨c, 0⟩ :=
      (hrun _).mpr ⟨c, rfl, hdata, hform⟩
    unfold ofBytes outcome
    rw [hread]

variable {m : MethodEndings} {data rest : List UInt8} {signature : MethodSig}

theorem understood : Understood (type (levelLimit - 1)) 0 (EndedType (levelLimit - 1))
    (TypeForm .all (levelLimit - 1)) := understood_types (by decide)

theorem ofBytes_of_declared (h : EndedSignature m data signature rest)
    (hdeclared : m.declared = .whole) : ofBytes data = .ok signature := by
  obtain ⟨left, hform, -⟩ := method_of_declared understood h hdeclared
  exact ofBytes_ok_iff.mpr ⟨left, hform⟩

theorem ofBytes_of_stopped_return (h : EndedSignature m data signature rest)
    (hreturn : m.returnType = .stopped) :
    ∃ p, ofBytes data = .ok { signature with returnType := p, params := [] } := by
  obtain ⟨p, more, hform⟩ := method_of_stopped_return understood h hreturn
  exact ⟨p, ofBytes_ok_iff.mpr ⟨_, hform⟩⟩

theorem ofBytes_of_stopped_param (h : EndedSignature m data signature rest)
    (hreturn : m.returnType = .whole) {n : Nat} {later : List Ending}
    (hparams : m.params = List.replicate n .whole ++ .stopped :: later) :
    ∃ before p after p', signature.params = before ++ p :: after ∧ before.length = n ∧
      p'.modifiers = p.modifiers ∧ p'.isByRef = p.isByRef ∧
      ofBytes data = .ok { signature with params := before ++ [p'] } := by
  obtain ⟨before, p, after, p', more, hsplit, hlength, hmods, hbyRef, hform⟩ :=
    method_of_stopped_param understood h hreturn hparams
  exact ⟨before, p, after, p', hsplit, hlength, hmods, hbyRef, ofBytes_ok_iff.mpr ⟨_, hform⟩⟩

theorem ofBytes_of_refused (h : EndedSignature m data signature rest)
    (hdeclared : m.declared = .refused) : ∃ e, ofBytes data = .error e := by
  cases hresult : ofBytes data with
  | error e => exact ⟨e, rfl⟩
  | ok read =>
    obtain ⟨left, hform⟩ := ofBytes_ok_iff.mp hresult
    exact absurd hform (not_method_of_refused understood h hdeclared read left)

/-- By cases on the first part that is not read to its end: only at the end of the list is
nothing lost behind it. -/
theorem returns_all_iff (h : EndedSignature m data signature rest)
    (hgarbled : m.declared ≠ .garbled) :
    (∃ read, ofBytes data = .ok read ∧ read.params.length = signature.params.length) ↔
      m.declared ≠ .refused ∧ (m.returnType = .whole ∨ signature.params = []) ∧
        ∀ e ∈ m.params.dropLast, e = .whole := by
  have hlength : m.params.length = signature.params.length := by
    cases h with
    | mk _ _ _ hlisted _ => exact hlisted.length_eq
  rcases m.declared_cases with hdeclared | hstopped | ⟨n, later, hfirst, hlater⟩ | hdeclared | h'
  · have hall := List.forall_mem_cons.mp (Ending.first_eq_whole_iff.mp hdeclared)
    have hlast : ∀ e ∈ m.params.dropLast, e = .whole := fun e he =>
      hall.2 e ((List.dropLast_sublist _).subset he)
    rw [ofBytes_of_declared h hdeclared, hdeclared, hall.1]
    exact ⟨fun _ => ⟨by decide, .inl rfl, hlast⟩, fun _ => ⟨signature, rfl, rfl⟩⟩
  · obtain ⟨p, hok⟩ := ofBytes_of_stopped_return h hstopped
    have hdeclared : m.declared = .stopped := by
      simp [MethodEndings.declared, hstopped, Ending.first]
    rw [hok, hdeclared, hstopped]
    constructor
    · rintro ⟨_, ⟨⟩, hcount⟩
      have hnone : signature.params = [] := List.eq_nil_of_length_eq_zero hcount.symm
      have hempty : m.params = [] := List.eq_nil_of_length_eq_zero (by simp [hlength, hnone])
      exact ⟨by decide, .inr hnone, by simp [hempty]⟩
    · rintro ⟨-, hnone | hnone, -⟩
      · cases hnone
      · exact ⟨_, rfl, by rw [hnone]⟩
  · obtain ⟨before, p, after, p', hsplit, hbefore, -, -, hok⟩ :=
      ofBytes_of_stopped_param h hfirst hlater
    have hdeclared : m.declared = .stopped := by
      have hparams : Ending.first m.params = .stopped := by
        rw [hlater, Ending.first_of_replicate]
        rfl
      rw [MethodEndings.declared, hfirst]
      exact hparams
    have hafter : after.length = later.length := by
      rw [hsplit, hlater] at hlength
      simp only [List.length_append, List.length_replicate, List.length_cons] at hlength
      omega
    rw [hok, hdeclared, hfirst, hsplit, hlater, Ending.forall_dropLast_iff (by decide),
      ← List.length_eq_zero_iff (l := later), ← hafter]
    constructor
    · rintro ⟨_, ⟨⟩, hcount⟩
      simp only [List.length_append, List.length_cons, List.length_nil] at hcount
      exact ⟨by decide, .inl rfl, by omega⟩
    · rintro ⟨-, -, hnone⟩
      refine ⟨_, rfl, ?_⟩
      simp only [List.length_append, List.length_cons, List.length_nil, hnone]
  · obtain ⟨e, herror⟩ := ofBytes_of_refused h hdeclared
    simp [herror, hdeclared]
  · exact absurd h' hgarbled

/-- What is read of a signature that may have variable arguments inside, at any depth. If there
are none in what it declares, or only behind its own sentinel, that is the signature. If the return
type ends in a sentinel, no parameter is read. If a parameter is the first to end in one, the
parameters up to this one are read and the ones behind it are lost, however many were counted. If
the first sentinel stands in front of an argument of a generic type, the signature is refused. So,
unless the sentinel is taken for the rank of an array, as many parameters are read as are declared
only if none but the last has variable arguments inside, nor the return type in front of a
parameter. -/
theorem params_up_to_sentinel (h : EndedSignature m data signature rest) :
    (m.declared = .whole → ofBytes data = .ok signature) ∧
    (m.returnType = .stopped →
      ∃ p, ofBytes data = .ok { signature with returnType := p, params := [] }) ∧
    (∀ n later, m.returnType = .whole → m.params = List.replicate n .whole ++ .stopped :: later →
      ∃ before p after p', signature.params = before ++ p :: after ∧ before.length = n ∧
        p'.modifiers = p.modifiers ∧ p'.isByRef = p.isByRef ∧
        ofBytes data = .ok { signature with params := before ++ [p'] }) ∧
    (m.declared = .refused → ∃ e, ofBytes data = .error e) ∧
    (m.declared ≠ .garbled →
      ((∃ read, ofBytes data = .ok read ∧ read.params.length = signature.params.length) ↔
        m.declared ≠ .refused ∧ (m.returnType = .whole ∨ signature.params = []) ∧
          ∀ e ∈ m.params.dropLast, e = .whole)) :=
  ⟨ofBytes_of_declared h, ofBytes_of_stopped_return h,
    fun _ _ hreturn hparams => ofBytes_of_stopped_param h hreturn hparams,
    ofBytes_of_refused h, returns_all_iff h⟩

/-- A parameter without anything in front of its type. -/
def plainParam (base : TypeSig) (blob : List UInt8) : ParamSig := ⟨[], false, base, blob, blob⟩

/-- A pointer to a vararg function without declared parameters, which is called with an integer. -/
def callbackBlob : List UInt8 := [0x1B, 0x05, 0x01, 0x01, 0x41, 0x08]

def callbackType : TypeSig :=
  .functionPointer ⟨false, false, true, 0, plainParam .void [0x01], []⟩

/-- Takes such a pointer and a string. -/
def callbackBytes : List UInt8 := [0x00, 0x02, 0x01] ++ callbackBlob ++ [0x0E]

def callbackSignature : MethodSig where
  hasThis := false
  explicitThis := false
  isVararg := false
  genericCount := 0
  returnType := plainParam .void [0x01]
  params := [plainParam callbackType callbackBlob, plainParam .string [0x0E]]

def callbackEndings : MethodEndings := ⟨.whole, [.stopped, .whole], .whole⟩

theorem ended_callback : EndedSignature callbackEndings callbackBytes callbackSignature [] := by
  have hmarked : ∀ {tag : UInt8} {tail : List UInt8}, ElementTag.isModifier tag = false →
      Unmodified (tag :: tail) := by
    rintro tag tail h _ ⟨⟩
    exact h
  have hplain : ∀ {e : Ending} {levels : Nat} {tag : UInt8} {front tail : List UInt8}
      {base : TypeSig}, ElementTag.isModifier tag = false → tag ≠ ElementTag.byRef →
      EndedType levels e (tag :: front ++ tail) base tail →
      EndedParam (EndedType levels) e (tag :: front ++ tail)
        (plainParam base (tag :: front)) tail :=
    fun hmodifier hbyRef h =>
      .byValue .nil (hmarked hmodifier) (fun heq => hbyRef (Option.some.inj heq)) h rfl rfl
  have hprimitive : ∀ {levels : Nat} {tag : UInt8} {tail : List UInt8} {base : TypeSig},
      ElementTag.isModifier tag = false → tag ≠ ElementTag.byRef →
      TypeSig.primitive? tag.toNat = some base →
      EndedParam (EndedType (levels + 1)) .whole (tag :: tail) (plainParam base [tag]) tail :=
    fun {_ _ tail _} hmodifier hbyRef h =>
      @hplain _ _ _ [] tail _ hmodifier hbyRef (.plain (.primitive h))
  have hvoid : ∀ {levels : Nat} {tail : List UInt8}, EndedParam (EndedType (levels + 1)) .whole
      (0x01 :: tail) (plainParam .void [0x01]) tail := hprimitive rfl (by decide) rfl
  have hstring : ∀ {levels : Nat} {tail : List UInt8}, EndedParam (EndedType (levels + 1)) .whole
      (0x0E :: tail) (plainParam .string [0x0E]) tail := hprimitive rfl (by decide) rfl
  have hint : ∀ {levels : Nat} {tail : List UInt8}, EndedParam (EndedType (levels + 1)) .whole
      (0x08 :: tail) (plainParam .int32 [0x08]) tail := hprimitive rfl (by decide) rfl
  have hextras : ∀ tail, ExtrasForm (EndedType 48) 0x05 .stopped 1
      (ElementTag.sentinel :: 0x08 :: tail) tail := fun tail =>
    .some rfl (List.cons_ne_nil _ _) (.cons hint .nil)
  have hone : ∀ tail, CompressedForm (0x01 :: tail) (([] : List ParamSig).length + 1) tail :=
    fun _ => @CompressedForm.one 1 _ (by decide)
  have htwo : ∀ tail, CompressedForm (0x02 :: tail) (callbackSignature.params.length + 0) tail :=
    fun _ => @CompressedForm.one 2 _ (by decide)
  have hpointer : ∀ tail, EndedType 49 .stopped (callbackBlob ++ tail) callbackType tail :=
    fun tail => @EndedLayer.functionPointer (EndedType 48) ⟨.whole, [], .stopped⟩ _ _ _
      (.mk (.absent rfl) (hone _) hvoid .nil (hextras tail))
  have hcallback : ∀ tail, EndedParam (EndedType 49) .stopped (callbackBlob ++ tail)
      (plainParam callbackType callbackBlob) tail := fun tail =>
    @hplain _ _ 0x1B [0x05, 0x01, 0x01, 0x41, 0x08] tail _ rfl (by decide) (hpointer tail)
  exact .mk (.absent rfl) (htwo _) hvoid
    (.cons (hcallback _) (.cons hstring .nil)) .none

/-- The string is lost. -/
theorem params_up_to_sentinel_callback :
    EndedSignature callbackEndings callbackBytes callbackSignature [] ∧
      ∃ p, ofBytes callbackBytes = .ok { callbackSignature with params := [p] } := by
  obtain ⟨-, -, hparam, -, -⟩ := params_up_to_sentinel ended_callback
  obtain ⟨before, _, _, p, -, hbefore, -, -, hok⟩ := hparam 0 [.whole] rfl rfl
  rw [List.eq_nil_of_length_eq_zero hbefore] at hok
  exact ⟨ended_callback, p, hok⟩

/-- Of the two parameters that are declared one is read. -/
theorem params_of_callback :
    EndedSignature callbackEndings callbackBytes callbackSignature [] ∧
      callbackSignature.params.length = 2 ∧
      ∃ read, ofBytes callbackBytes = .ok read ∧ read.params.length = 1 := by
  have hcount : (ofBytes callbackBytes).toOption.map (·.params.length) = some 1 := by
    decide +kernel
  refine ⟨ended_callback, rfl, ?_⟩
  cases hread : ofBytes callbackBytes with
  | error e => simp [hread, Except.toOption] at hcount
  | ok read => exact ⟨read, rfl, by simpa [hread, Except.toOption] using hcount⟩

end MethodSig

end CilInstrument
