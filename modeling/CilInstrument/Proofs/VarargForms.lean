import CilInstrument.Proofs.SignatureForms

/- The grammar of signatures with variable arguments: behind the parameters that a vararg
   signature declares there may be a sentinel and the parameters of a single call. They are
   counted with the others, but are not part of the value. Every form carries the `Ending`
   that a reader has there which stops in front of a sentinel and does not skip what stands
   behind it. Where no such pointer is inside, the grammar is that of `SignatureForms`
   (`endedType_whole`). -/
namespace CilInstrument

/-- How far one gets who stops at each sentinel. -/
inductive Ending where
  /-- To the end. -/
  | whole
  /-- Up to a sentinel. -/
  | stopped
  /-- Not at all: a sentinel stands where an argument of a generic type is due. -/
  | refused
  /-- Past a sentinel that is taken for the rank of an array. -/
  | garbled
  deriving DecidableEq

namespace Ending

/-- Of parts that stand one behind the other, the first that is not read to its end decides. -/
def first : List Ending → Ending
  | [] => whole
  | whole :: rest => first rest
  | e :: _ => e

/-- Behind the element of an array stands its rank, which may be any number. -/
def ofElement : Ending → Ending
  | stopped => garbled
  | e => e

/-- Behind an argument stands the next one, which is a type. -/
def ofArguments : List Ending → Ending
  | [] => whole
  | [e] => e
  | whole :: rest => ofArguments rest
  | stopped :: _ => refused
  | e :: _ => e

theorem first_append (before behind : List Ending) :
    first (before ++ behind) = if first before = whole then first behind else first before := by
  induction before with
  | nil => simp [first]
  | cons e rest ih =>
    cases e with
    | whole => exact ih
    | stopped => simp [first]
    | refused => simp [first]
    | garbled => simp [first]

theorem first_eq_whole_iff {endings : List Ending} :
    first endings = whole ↔ ∀ e ∈ endings, e = whole := by
  induction endings with
  | nil => simp [first]
  | cons e rest ih => cases e <;> simp [first, ih]

/-- Where the first part stands that is not read to its end. -/
theorem exists_of_first {endings : List Ending} {e : Ending} (h : first endings = e)
    (hne : e ≠ whole) : ∃ n later, endings = List.replicate n whole ++ e :: later := by
  induction endings with
  | nil => exact absurd h.symm hne
  | cons e' rest ih =>
    by_cases hwhole : e' = whole
    · subst hwhole
      obtain ⟨n, later, rfl⟩ := ih h
      exact ⟨n + 1, later, rfl⟩
    · refine ⟨0, rest, ?_⟩
      cases e' <;> simp_all [first]

theorem first_of_replicate (n : Nat) (e : Ending) (later : List Ending) :
    first (List.replicate n whole ++ e :: later) = first (e :: later) := by
  have hbefore : first (List.replicate n whole) = whole :=
    first_eq_whole_iff.mpr fun _ => List.eq_of_mem_replicate
  rw [first_append, if_pos hbefore]

/-- In front of the last part all are read to their ends only if the first that is not is the
last. -/
theorem forall_dropLast_iff {n : Nat} {e : Ending} {later : List Ending} (h : e ≠ whole) :
    (∀ e' ∈ (List.replicate n whole ++ e :: later).dropLast, e' = whole) ↔ later = [] := by
  cases later with
  | nil =>
    rw [List.dropLast_concat]
    exact ⟨fun _ => rfl, fun _ _ => List.eq_of_mem_replicate⟩
  | cons e' later =>
    refine ⟨fun hall => absurd (hall e ?_) h, fun hnone => by cases hnone⟩
    rw [List.dropLast_append_of_ne_nil (by simp)]
    exact List.mem_append_right _ (by simp)

theorem forall_whole_of_ofArguments {endings : List Ending} (h : ofArguments endings = whole) :
    ∀ e ∈ endings, e = whole := by
  induction endings with
  | nil => simp
  | cons e rest ih =>
    cases rest with
    | nil => simpa [ofArguments] using h
    | cons e' rest =>
      cases e with
      | whole => simpa using ih h
      | stopped => cases h
      | refused => cases h
      | garbled => cases h

/-- Only the last argument can be read up to a sentinel. -/
theorem eq_of_ofArguments_stopped {endings : List Ending} (h : ofArguments endings = stopped) :
    ∃ n, endings = List.replicate n whole ++ [stopped] := by
  induction endings with
  | nil => cases h
  | cons e rest ih =>
    cases rest with
    | nil =>
      obtain rfl : e = stopped := h
      exact ⟨0, rfl⟩
    | cons e' rest =>
      cases e with
      | whole =>
        obtain ⟨n, hrest⟩ := ih h
        exact ⟨n + 1, by rw [hrest]; rfl⟩
      | stopped => cases h
      | refused => cases h
      | garbled => cases h

end Ending

/-- The forms of what is read up to each ending. -/
abbrev Ended (α : Type) := Ending → Form α

/-- Values one after the other, each with its ending. -/
inductive EndedItems {α : Type} (F : Ended α) : List Ending → Form (List α)
  | nil {rest : List UInt8} : EndedItems F [] rest [] rest
  | cons {e : Ending} {endings : List Ending} {data mid rest : List UInt8} {a : α} {more : List α}
    (hfirst : F e data a mid) (hmore : EndedItems F endings mid more rest) :
    EndedItems F (e :: endings) data (a :: more) rest

/-- The parts of a signature, as far as they are read. -/
structure MethodEndings where
  returnType : Ending
  params : List Ending
  /-- Where the declared parameters end. -/
  behind : Ending

namespace MethodEndings

/-- The return type and the declared parameters. -/
def declared (m : MethodEndings) : Ending := .first (m.returnType :: m.params)

def all (m : MethodEndings) : Ending := .first (m.returnType :: (m.params ++ [m.behind]))

theorem all_eq (m : MethodEndings) :
    m.all = if m.declared = .whole then .first [m.behind] else m.declared := by
  unfold all declared
  rw [← List.cons_append, Ending.first_append]

/-- Either all that is declared is read to its end, or one part is the first that is not. -/
theorem declared_cases (m : MethodEndings) :
    m.declared = .whole ∨ m.returnType = .stopped ∨
      (∃ n later, m.returnType = .whole ∧
        m.params = List.replicate n .whole ++ .stopped :: later) ∨
      m.declared = .refused ∨ m.declared = .garbled := by
  cases hreturn : m.returnType with
  | whole =>
    have hdeclared : m.declared = .first m.params := by rw [declared, hreturn]; rfl
    cases hparams : Ending.first m.params with
    | stopped =>
      obtain ⟨n, later, hlater⟩ := Ending.exists_of_first hparams (by decide)
      exact .inr (.inr (.inl ⟨n, later, rfl, hlater⟩))
    | _ => simp [hdeclared, hparams]
  | stopped => simp
  | refused => simp [declared, hreturn, Ending.first]
  | garbled => simp [declared, hreturn, Ending.first]

end MethodEndings

section
variable (T : Ended TypeSig)

/-- A parameter or a return type. -/
def EndedParam : Ended ParamSig := fun e => ParamForm .none (T e)

/-- Parameters behind a sentinel, which a vararg signature may have. -/
inductive ExtrasForm (convention : UInt8) : Ending → (count : Nat) → (data rest : List UInt8) → Prop
  | none {rest : List UInt8} : ExtrasForm convention .whole 0 rest rest
  | some {endings : List Ending} {data rest : List UInt8} {extras : List ParamSig}
    (hvararg : convention &&& 0x0F = 0x05) (hne : extras ≠ [])
    (hextras : EndedItems (EndedParam T) endings data extras rest) :
    ExtrasForm convention .stopped extras.length (ElementTag.sentinel :: data) rest

/-- A method signature, whose count is of all its parameters. -/
inductive EndedMethod (m : MethodEndings) : Form MethodSig
  | mk {convention : UInt8} {data counts returned listed behind rest : List UInt8}
    {genericCount extras : Nat} {returnType : ParamSig} {params : List ParamSig}
    (hgenerics : GenericsForm convention data genericCount counts)
    (hcount : CompressedForm counts (params.length + extras) returned)
    (hreturn : EndedParam T m.returnType returned returnType listed)
    (hparams : EndedItems (EndedParam T) m.params listed params behind)
    (hextras : ExtrasForm T convention m.behind extras behind rest) :
    EndedMethod m (convention :: data) {
      hasThis := convention &&& 0x20 != 0
      explicitThis := convention &&& 0x40 != 0
      isVararg := convention &&& 0x0F == 0x05
      genericCount, returnType, params } rest

/-- The first bytes of types that only have something in front of the type inside: pointers,
references, vectors, modified and pinned types. -/
def wrappingTags : List UInt8 := [0x0F, 0x10, 0x1D, 0x1F, 0x20, 0x45]

/-- A type around the types inside it. -/
inductive EndedLayer : Ended TypeSig
  | plain {data rest : List UInt8} {type : TypeSig}
    (h : TypeLayer .none (T .whole) data type rest) :
    EndedLayer .whole data type rest
  | wrapping {e : Ending} {tag : UInt8} {data rest : List UInt8} {type : TypeSig}
    (htag : tag ∈ wrappingTags) (h : TypeLayer .none (T e) (tag :: data) type rest) :
    EndedLayer e (tag :: data) type rest
  | array {e : Ending} {data rest : List UInt8} {type : TypeSig}
    (h : TypeLayer .none (T e) (0x14 :: data) type rest) :
    EndedLayer e.ofElement (0x14 :: data) type rest
  | genericInstance {tag : UInt8} {endings : List Ending} {data counted listed rest : List UInt8}
    {base : TypeSig} {arguments : List TypeSig}
    (htag : tag = ElementTag.classType ∨ tag = ElementTag.valueType)
    (hbase : T .whole (tag :: data) base counted)
    (hcount : CompressedForm counted arguments.length listed)
    (harguments : EndedItems T endings listed arguments rest) :
    EndedLayer (.ofArguments endings) (0x15 :: tag :: data) (.genericInstance base arguments) rest
  | functionPointer {m : MethodEndings} {data rest : List UInt8} {signature : MethodSig}
    (h : EndedMethod T m data signature rest) :
    EndedLayer m.all (0x1B :: data) (.functionPointer signature) rest

end

/-- The types of at most so many levels. -/
def EndedType : (levels : Nat) → Ended TypeSig
  | 0 => fun _ _ _ _ => False
  | levels + 1 => EndedLayer (EndedType levels)

/-- The method signatures whose types have fewer levels than the limit. -/
def EndedSignature (m : MethodEndings) : Form MethodSig :=
  EndedMethod (EndedType (SignatureReader.levelLimit - 1)) m

/-! Lists. -/

namespace EndedItems

variable {α : Type} {F : Ended α}

theorem length_eq {endings : List Ending} {data rest : List UInt8} {items : List α}
    (h : EndedItems F endings data items rest) : endings.length = items.length := by
  induction h with
  | nil => rfl
  | cons _ _ ih => simp [ih]

theorem items_of_whole {endings : List Ending} {data rest : List UInt8} {items : List α}
    (h : EndedItems F endings data items rest) (hwhole : ∀ e ∈ endings, e = .whole) :
    ItemsForm (F .whole) data items rest := by
  induction h with
  | nil => exact .nil
  | cons hfirst _ ih =>
    obtain ⟨rfl, hmore⟩ := List.forall_mem_cons.mp hwhole
    exact .cons hfirst (ih hmore)

/-- The list is cut at the first value that is not read to its end. -/
theorem split {n : Nat} {e : Ending} {later : List Ending} {data rest : List UInt8} {items : List α}
    (h : EndedItems F (List.replicate n .whole ++ e :: later) data items rest) :
    ∃ before a after mid next, items = before ++ a :: after ∧ before.length = n ∧
      ItemsForm (F .whole) data before mid ∧ F e mid a next := by
  induction n generalizing data items with
  | zero =>
    cases h with
    | cons hfirst hmore => exact ⟨[], _, _, _, _, rfl, rfl, .nil, hfirst⟩
  | succ n ih =>
    cases h with
    | cons hfirst hmore =>
      obtain ⟨before, a, after, mid, next, rfl, hlength, hbefore, ha⟩ := ih hmore
      exact ⟨_ :: before, a, after, mid, next, rfl, by simp [hlength], .cons hfirst hbefore, ha⟩

end EndedItems

/-! Where nothing is left out, this is the grammar without sentinels. -/

section
variable {T : Ended TypeSig}

theorem paramsForm_of_items {L : Liberties} {T : Form TypeSig} {data rest : List UInt8}
    {params : List ParamSig} (h : ItemsForm (ParamForm L T) data params rest) :
    ParamsForm L T params.length data params rest := by
  induction h with
  | nil => exact .nil
  | cons hfirst _ ih => exact .cons hfirst ih

theorem EndedMethod.method_of_whole {m : MethodEndings} {data rest : List UInt8}
    {signature : MethodSig} (h : EndedMethod T m data signature rest) (hwhole : m.all = .whole) :
    MethodForm .none (T .whole) data signature rest := by
  have hall := Ending.first_eq_whole_iff.mp hwhole
  obtain ⟨returnType, params, behind⟩ := m
  simp only [List.mem_cons, List.mem_append, List.not_mem_nil, or_false] at hall
  obtain rfl := hall returnType (.inl rfl)
  obtain rfl := hall behind (.inr (.inr rfl))
  cases h with
  | mk hgenerics hcount hreturn hparams hextras =>
    cases hextras
    have hitems := hparams.items_of_whole fun e he => hall e (.inr (.inl he))
    exact .mk hgenerics hcount hreturn (paramsForm_of_items hitems)

/-- Behind the declared parameters nothing can go wrong any more. -/
theorem EndedMethod.declared_of_refused {m : MethodEndings} {data rest : List UInt8}
    {signature : MethodSig} (h : EndedMethod T m data signature rest) (hall : m.all = .refused) :
    m.declared = .refused := by
  rw [m.all_eq] at hall
  by_cases hdeclared : m.declared = .whole
  · rw [if_pos hdeclared] at hall
    obtain ⟨returnType, params, behind⟩ := m
    cases h with
    | mk _ _ _ _ hextras => cases hextras <;> cases hall
  · rwa [if_neg hdeclared] at hall

/-- By cases on the rule: all types inside are read to their ends. -/
theorem EndedLayer.layer_of_whole {e : Ending} {data rest : List UInt8} {type : TypeSig}
    (h : EndedLayer T e data type rest) (he : e = .whole) :
    TypeLayer .none (T .whole) data type rest := by
  cases h with
  | plain h => exact h
  | wrapping _ h =>
    subst he
    exact h
  | @array e _ _ _ h =>
    obtain rfl : e = .whole := by cases e <;> first | rfl | cases he
    exact h
  | genericInstance htag hbase hcount harguments =>
    have hitems := harguments.items_of_whole (Ending.forall_whole_of_ofArguments he)
    exact .genericInstance htag hbase ⟨_, hcount, hitems⟩
  | functionPointer h => exact .functionPointer (h.method_of_whole he)

theorem endedLayer_whole_iff {data rest : List UInt8} {type : TypeSig} :
    EndedLayer T .whole data type rest ↔ TypeLayer .none (T .whole) data type rest :=
  ⟨fun h => h.layer_of_whole rfl, .plain⟩

end

theorem endedType_whole (levels : Nat) : EndedType levels .whole = TypeForm .none levels := by
  induction levels with
  | zero => rfl
  | succ levels ih =>
    funext data type rest
    show EndedLayer (EndedType levels) .whole data type rest =
      TypeLayer .none (TypeForm .none levels) data type rest
    rw [endedLayer_whole_iff, ih]

end CilInstrument
