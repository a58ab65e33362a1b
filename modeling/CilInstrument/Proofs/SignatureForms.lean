import CilInstrument.Signature.Reading

/- The grammar of method signatures. A form says which bytes spell a value and what is
   left behind them; the rules follow the encoding of signature blobs and know nothing of
   reading. Types are counted in levels: `TypeForm L n` are the types with at most `n`
   types inside each other, each made of one `TypeLayer` around types of a level less.
   Modifiers and the by-reference marker belong to the outermost place that can take them,
   which is what `Unmodified` asks of the bytes behind them. Two liberties are left to
   choose, a sentinel in place of the last parameters and rows that are too large for a
   token. Without sentinels a form does not look at what stands behind it (`Carries`). -/
namespace CilInstrument

/-- Which values the bytes begin with, and the bytes that are left behind each. -/
abbrev Form (α : Type) := (data : List UInt8) → α → (rest : List UInt8) → Prop

/-- The form of what is made from the values of a form. -/
def Form.map {α β : Type} (F : Form α) (f : α → β) : Form β := fun data b rest =>
  ∃ a, F data a rest ∧ b = f a

/-- What is let pass beyond well-formed signatures. -/
structure Liberties where
  /-- A sentinel may stand in place of the parameters that are still to come. -/
  sentinel : Bool
  /-- A packed token may have a row of more than 24 bits. -/
  wideRows : Bool

namespace Liberties

def none : Liberties := ⟨false, false⟩

def all : Liberties := ⟨true, true⟩

end Liberties

/-! Integers and tokens. -/

/-- An integer in each of the widths that can hold it. -/
inductive CompressedForm : Form Nat
  | one {n : Nat} {rest : List UInt8} (h : n < 0x80) : CompressedForm (UInt8.ofNat n :: rest) n rest
  | two {n : Nat} {rest : List UInt8} (h : n < 0x4000) :
    CompressedForm (UInt8.ofNat (0x80 + n / 0x100) :: UInt8.ofNat n :: rest) n rest
  | four {n : Nat} {rest : List UInt8} (h : n ≤ Compressed.max) :
    CompressedForm (UInt8.ofNat (0xC0 + n / 0x1000000) :: UInt8.ofNat (n / 0x10000) ::
      UInt8.ofNat (n / 0x100) :: UInt8.ofNat n :: rest) n rest

theorem CompressedForm.le_max {data rest : List UInt8} {n : Nat} (h : CompressedForm data n rest) :
    n ≤ Compressed.max := by
  unfold Compressed.max
  cases h with
  | one h => omega
  | two h => omega
  | four h => exact h

/-- The tables of packed tokens, in the order of their tags. -/
def packedTables : List Nat := [0x02, 0x01, 0x1B]

/-- A token, whose row is packed together with the tag of its table. -/
inductive TokenForm (L : Liberties) : Form Token
  | packed {data rest : List UInt8} {tag : Nat} {token : Token}
    (htable : packedTables[tag]? = some token.table)
    (h : CompressedForm data (token.row * 4 + tag) rest) : TokenForm L data token rest
  | wide {data rest : List UInt8} {n : Nat} {table : UInt32} (hwide : L.wideRows = true)
    (htable : Compressed.tokenTable? n = some table) (hrow : 0x1000000 ≤ n / 4)
    (h : CompressedForm data n rest) :
    TokenForm L data ⟨table ||| UInt32.ofNat (n / 4)⟩ rest

/-! Modifiers and lists. -/

/-- A run of custom modifiers. -/
inductive ModifiersForm (L : Liberties) : Form (List Token)
  | nil {rest : List UInt8} : ModifiersForm L rest [] rest
  | cons {tag : UInt8} {data mid rest : List UInt8} {token : Token} {more : List Token}
    (htag : ElementTag.isModifier tag = true) (htoken : TokenForm L data token mid)
    (hmore : ModifiersForm L mid more rest) : ModifiersForm L (tag :: data) (token :: more) rest

/-- No modifier stands here. -/
def Unmodified (data : List UInt8) : Prop :=
  ∀ tag ∈ data.head?, ElementTag.isModifier tag = false

/-- A value behind all the modifiers that stand in front of it, which are not kept. -/
def Modified {α : Type} (L : Liberties) (F : Form α) : Form α := fun data a rest =>
  ∃ mods mid, ModifiersForm L data mods mid ∧ Unmodified mid ∧ F mid a rest

/-- Values one after the other. -/
inductive ItemsForm {α : Type} (F : Form α) : Form (List α)
  | nil {rest : List UInt8} : ItemsForm F rest [] rest
  | cons {data mid rest : List UInt8} {a : α} {more : List α} (hfirst : F data a mid)
    (hmore : ItemsForm F mid more rest) : ItemsForm F data (a :: more) rest

/-- Values behind their number. -/
def CountedForm {α : Type} (F : Form α) : Form (List α) := fun data items rest =>
  ∃ mid, CompressedForm data items.length mid ∧ ItemsForm F mid items rest

/-! Methods and types. `T` is the form of the types inside. -/

section
variable (L : Liberties) (T : Form TypeSig)

/-- A parameter or a return type: modifiers, the by-reference marker, the type. -/
inductive ParamForm : Form ParamSig
  | byValue {data mid rest blob typeBlob : List UInt8} {mods : List Token} {base : TypeSig}
    (hmods : ModifiersForm L data mods mid) (hend : Unmodified mid)
    (hplain : mid.head? ≠ some ElementTag.byRef) (htype : T mid base rest)
    (hblob : data = blob ++ rest) (htypeBlob : mid = typeBlob ++ rest) :
    ParamForm data ⟨mods, false, base, blob, typeBlob⟩ rest
  | byRef {data mid rest blob typeBlob : List UInt8} {mods : List Token} {base : TypeSig}
    (hmods : ModifiersForm L data mods (ElementTag.byRef :: mid)) (htype : T mid base rest)
    (hblob : data = blob ++ rest) (htypeBlob : mid = typeBlob ++ rest) :
    ParamForm data ⟨mods, true, base, blob, typeBlob⟩ rest

/-- As many parameters as were counted. -/
inductive ParamsForm : (count : Nat) → Form (List ParamSig)
  | nil {rest : List UInt8} : ParamsForm 0 rest [] rest
  | cons {count : Nat} {data mid rest : List UInt8} {p : ParamSig} {more : List ParamSig}
    (hfirst : ParamForm L T data p mid) (hmore : ParamsForm count mid more rest) :
    ParamsForm (count + 1) data (p :: more) rest
  | sentinel {count : Nat} {rest : List UInt8} (h : L.sentinel = true) :
    ParamsForm (count + 1) (ElementTag.sentinel :: rest) [] (ElementTag.sentinel :: rest)

/-- The number of generic parameters, which is there if the convention says so. -/
inductive GenericsForm (convention : UInt8) : Form Nat
  | absent {rest : List UInt8} (h : convention &&& 0x10 = 0) : GenericsForm convention rest 0 rest
  | counted {data rest : List UInt8} {n : Nat} (h : convention &&& 0x10 ≠ 0)
    (hcount : CompressedForm data n rest) : GenericsForm convention data n rest

/-- A method signature: convention, counts, return type, parameters. -/
inductive MethodForm : Form MethodSig
  | mk {convention : UInt8} {data counts returned listed rest : List UInt8}
    {genericCount count : Nat} {returnType : ParamSig} {params : List ParamSig}
    (hgenerics : GenericsForm convention data genericCount counts)
    (hcount : CompressedForm counts count returned)
    (hreturn : ParamForm L T returned returnType listed)
    (hparams : ParamsForm L T count listed params rest) :
    MethodForm (convention :: data) {
      hasThis := convention &&& 0x20 != 0
      explicitThis := convention &&& 0x40 != 0
      isVararg := convention &&& 0x0F == 0x05
      genericCount, returnType, params } rest

/-- The types that are a single byte. -/
def TypeSig.primitive? : (tag : Nat) → Option TypeSig
  | 0x01 => some .void
  | 0x02 => some .boolean
  | 0x03 => some .char
  | 0x04 => some .int8
  | 0x05 => some .uint8
  | 0x06 => some .int16
  | 0x07 => some .uint16
  | 0x08 => some .int32
  | 0x09 => some .uint32
  | 0x0A => some .int64
  | 0x0B => some .uint64
  | 0x0C => some .float32
  | 0x0D => some .float64
  | 0x0E => some .string
  | 0x16 => some .typedReference
  | 0x18 => some .nativeInt
  | 0x19 => some .nativeUInt
  | 0x1C => some .object
  | _ => none

/-- A type around the types inside it. -/
inductive TypeLayer : Form TypeSig
  | primitive {tag : UInt8} {rest : List UInt8} {type : TypeSig}
    (h : TypeSig.primitive? tag.toNat = some type) : TypeLayer (tag :: rest) type rest
  | pointer {data rest : List UInt8} {target : TypeSig} (h : Modified L T data target rest) :
    TypeLayer (0x0F :: data) (.pointer target) rest
  | byRef {data rest : List UInt8} {target : TypeSig} (h : T data target rest) :
    TypeLayer (ElementTag.byRef :: data) (.byRef target) rest
  | valueType {data rest : List UInt8} {token : Token} (h : TokenForm L data token rest) :
    TypeLayer (ElementTag.valueType :: data) (.valueType token) rest
  | classType {data rest : List UInt8} {token : Token} (h : TokenForm L data token rest) :
    TypeLayer (ElementTag.classType :: data) (.classType token) rest
  | typeParameter {data rest : List UInt8} {n : Nat} (h : CompressedForm data n rest) :
    TypeLayer (0x13 :: data) (.typeParameter n) rest
  /-- The sizes and the lower bounds of an array are not kept. -/
  | array {data ranked sized bounded rest : List UInt8} {element : TypeSig} {rank : Nat}
    {sizes lowerBounds : List Nat} (helement : T data element ranked)
    (hrank : CompressedForm ranked rank sized)
    (hsizes : CountedForm CompressedForm sized sizes bounded)
    (hlower : CountedForm CompressedForm bounded lowerBounds rest) :
    TypeLayer (0x14 :: data) (.array element rank) rest
  | genericInstance {tag : UInt8} {data counted rest : List UInt8} {base : TypeSig}
    {arguments : List TypeSig} (htag : tag = ElementTag.classType ∨ tag = ElementTag.valueType)
    (hbase : T (tag :: data) base counted) (harguments : CountedForm T counted arguments rest) :
    TypeLayer (0x15 :: tag :: data) (.genericInstance base arguments) rest
  | functionPointer {data rest : List UInt8} {signature : MethodSig}
    (h : MethodForm L T data signature rest) :
    TypeLayer (0x1B :: data) (.functionPointer signature) rest
  | vector {data rest : List UInt8} {element : TypeSig} (h : Modified L T data element rest) :
    TypeLayer (0x1D :: data) (.vector element) rest
  | methodParameter {data rest : List UInt8} {n : Nat} (h : CompressedForm data n rest) :
    TypeLayer (0x1E :: data) (.methodParameter n) rest
  | modified {tag : UInt8} {data mid rest : List UInt8} {token : Token} {type : TypeSig}
    (htag : ElementTag.isModifier tag = true) (htoken : TokenForm L data token mid)
    (h : Modified L T mid type rest) : TypeLayer (tag :: data) type rest
  | pinned {data rest : List UInt8} {target : TypeSig} (h : T data target rest) :
    TypeLayer (0x45 :: data) (.pinned target) rest

end

/-- The types of at most so many levels. -/
def TypeForm (L : Liberties) : (levels : Nat) → Form TypeSig
  | 0 => fun _ _ _ => False
  | levels + 1 => TypeLayer L (TypeForm L levels)

/-- The method signatures whose types have fewer levels than the limit. -/
def SignatureForm (L : Liberties) : Form MethodSig :=
  MethodForm L (TypeForm L (SignatureReader.levelLimit - 1))

/-- The bytes are a method signature, all of them and without liberties. -/
def Spells (front : List UInt8) (signature : MethodSig) : Prop :=
  SignatureForm .none front signature []

/-! Forms that do not look at what stands behind them. -/

/-- The bytes of a form are the same in front of anything else. -/
def Carries {α : Type} (F F' : Form α) : Prop :=
  ∀ {data : List UInt8} {a : α} {rest : List UInt8}, F data a rest →
    ∃ front, data = front ++ rest ∧ ∀ other, F' (front ++ other) a other

/-- The same, for forms that take at least a byte. -/
def CarriesSome {α : Type} (F F' : Form α) : Prop :=
  ∀ {data : List UInt8} {a : α} {rest : List UInt8}, F data a rest →
    ∃ tag front, data = tag :: front ++ rest ∧ ∀ other, F' (tag :: front ++ other) a other

theorem CarriesSome.carries {α : Type} {F F' : Form α} (h : CarriesSome F F') : Carries F F' :=
  fun hF =>
    let ⟨tag, front, hdata, hother⟩ := h hF
    ⟨tag :: front, hdata, hother⟩

theorem Carries.form {α : Type} {F F' : Form α} (h : Carries F F') {data rest : List UInt8} {a : α}
    (hF : F data a rest) : F' data a rest := by
  obtain ⟨front, rfl, hother⟩ := h hF
  exact hother rest

theorem carries_compressed : Carries CompressedForm CompressedForm := by
  intro data n rest h
  cases h with
  | one h => exact ⟨[_], rfl, fun _ => .one h⟩
  | two h => exact ⟨[_, _], rfl, fun _ => .two h⟩
  | four h => exact ⟨[_, _, _, _], rfl, fun _ => .four h⟩

theorem carries_generics (convention : UInt8) :
    Carries (GenericsForm convention) (GenericsForm convention) := by
  intro data n rest h
  cases h with
  | absent h => exact ⟨[], rfl, fun _ => .absent h⟩
  | counted h hcount =>
    obtain ⟨front, rfl, hfront⟩ := carries_compressed hcount
    exact ⟨front, rfl, fun other => .counted h (hfront other)⟩

section
variable {α : Type} {F F' : Form α}

theorem carries_items (hF : Carries F F') : Carries (ItemsForm F) (ItemsForm F') := by
  intro data items rest h
  induction h with
  | nil => exact ⟨[], rfl, fun _ => .nil⟩
  | cons hfirst _ ih =>
    obtain ⟨first, rfl, hhead⟩ := hF hfirst
    obtain ⟨front, rfl, hfront⟩ := ih
    refine ⟨first ++ front, (List.append_assoc _ _ _).symm, fun other => ?_⟩
    rw [List.append_assoc]
    exact .cons (hhead _) (hfront other)

theorem carries_counted (hF : Carries F F') : Carries (CountedForm F) (CountedForm F') := by
  rintro data items rest ⟨mid, hcount, hitems⟩
  obtain ⟨count, rfl, hnumber⟩ := carries_compressed hcount
  obtain ⟨front, rfl, hfront⟩ := carries_items hF hitems
  refine ⟨count ++ front, (List.append_assoc _ _ _).symm, fun other => ?_⟩
  rw [List.append_assoc]
  exact ⟨_, hnumber _, hfront other⟩

end

section
variable {L L' : Liberties} (hwide : L.wideRows = true → L'.wideRows = true)
include hwide

theorem carries_token : Carries (TokenForm L) (TokenForm L') := by
  intro data token rest h
  cases h with
  | packed htable h =>
    obtain ⟨front, rfl, hfront⟩ := carries_compressed h
    exact ⟨front, rfl, fun other => .packed htable (hfront other)⟩
  | wide hL htable hrow h =>
    obtain ⟨front, rfl, hfront⟩ := carries_compressed h
    exact ⟨front, rfl, fun other => .wide (hwide hL) htable hrow (hfront other)⟩

theorem carries_modifiers : Carries (ModifiersForm L) (ModifiersForm L') := by
  intro data mods rest h
  induction h with
  | nil => exact ⟨[], rfl, fun _ => .nil⟩
  | @cons tag _ _ _ _ _ htag htoken _ ih =>
    obtain ⟨first, rfl, hhead⟩ := carries_token hwide htoken
    obtain ⟨front, rfl, hfront⟩ := ih
    refine ⟨tag :: first ++ front, by simp, fun other => ?_⟩
    rw [List.append_assoc]
    exact .cons htag (hhead _) (hfront other)

variable {T T' : Form TypeSig} (hT : CarriesSome T T')
include hT

/-- A type behind modifiers starts with the same byte whatever stands behind it. -/
theorem carries_modified : Carries (Modified L T) (Modified L' T') := by
  rintro data a rest ⟨mods, mid, hmods, hend, ha⟩
  obtain ⟨before, rfl, hbefore⟩ := carries_modifiers hwide hmods
  obtain ⟨tag, front, rfl, hfront⟩ := hT ha
  refine ⟨before ++ (tag :: front), (List.append_assoc _ _ _).symm, fun other => ?_⟩
  rw [List.append_assoc]
  exact ⟨mods, _, hbefore _, hend, hfront other⟩

theorem carries_param : Carries (ParamForm L T) (ParamForm L' T') := by
  intro data p rest h
  cases h with
  | byValue hmods hend hplain htype hblob htypeBlob =>
    obtain ⟨before, rfl, hbefore⟩ := carries_modifiers hwide hmods
    obtain ⟨tag, front, rfl, hfront⟩ := hT htype
    rw [← List.append_assoc] at hblob
    obtain rfl := List.append_cancel_right hblob
    obtain rfl := List.append_cancel_right htypeBlob
    refine ⟨before ++ (tag :: front), (List.append_assoc _ _ _).symm, fun other => ?_⟩
    have hmods' := hbefore (tag :: front ++ other)
    rw [← List.append_assoc] at hmods'
    exact .byValue hmods' hend hplain (hfront other) rfl rfl
  | byRef hmods htype hblob htypeBlob =>
    obtain ⟨before, rfl, hbefore⟩ := carries_modifiers hwide hmods
    obtain ⟨front, rfl, hfront⟩ := hT.carries htype
    rw [← List.cons_append, ← List.append_assoc] at hblob
    obtain rfl := List.append_cancel_right hblob
    obtain rfl := List.append_cancel_right htypeBlob
    refine ⟨before ++ (ElementTag.byRef :: front), by simp, fun other => ?_⟩
    have hmods' := hbefore (ElementTag.byRef :: front ++ other)
    rw [← List.append_assoc] at hmods'
    exact .byRef hmods' (hfront other) rfl rfl

variable (hstop : L.sentinel = false)
include hstop

theorem carries_params (count : Nat) : Carries (ParamsForm L T count) (ParamsForm L' T' count) := by
  intro data params rest h
  induction h with
  | nil => exact ⟨[], rfl, fun _ => .nil⟩
  | cons hfirst _ ih =>
    obtain ⟨first, rfl, hhead⟩ := carries_param hwide hT hfirst
    obtain ⟨front, rfl, hfront⟩ := ih
    refine ⟨first ++ front, (List.append_assoc _ _ _).symm, fun other => ?_⟩
    rw [List.append_assoc]
    exact .cons (hhead _) (hfront other)
  | sentinel h =>
    rw [hstop] at h
    cases h

theorem carries_method : Carries (MethodForm L T) (MethodForm L' T') := by
  intro data signature rest h
  cases h with
  | @mk convention _ _ _ _ _ _ _ _ _ hgenerics hcount hreturn hparams =>
    obtain ⟨first, rfl, hfirst⟩ := carries_generics convention hgenerics
    obtain ⟨second, rfl, hsecond⟩ := carries_compressed hcount
    obtain ⟨third, rfl, hthird⟩ := carries_param hwide hT hreturn
    obtain ⟨fourth, rfl, hfourth⟩ := carries_params hwide hT hstop _ hparams
    refine ⟨convention :: (first ++ (second ++ (third ++ fourth))), by simp, fun other => ?_⟩
    simp only [List.cons_append, List.append_assoc]
    exact .mk (hfirst _) (hsecond _) (hthird _) (hfourth other)

theorem carriesSome_layer : CarriesSome (TypeLayer L T) (TypeLayer L' T') := by
  intro data type rest h
  cases h with
  | primitive h => exact ⟨_, [], rfl, fun _ => .primitive h⟩
  | pointer h =>
    obtain ⟨front, rfl, hfront⟩ := carries_modified hwide hT h
    exact ⟨_, front, rfl, fun other => .pointer (hfront other)⟩
  | byRef h =>
    obtain ⟨front, rfl, hfront⟩ := hT.carries h
    exact ⟨_, front, rfl, fun other => .byRef (hfront other)⟩
  | valueType h =>
    obtain ⟨front, rfl, hfront⟩ := carries_token hwide h
    exact ⟨_, front, rfl, fun other => .valueType (hfront other)⟩
  | classType h =>
    obtain ⟨front, rfl, hfront⟩ := carries_token hwide h
    exact ⟨_, front, rfl, fun other => .classType (hfront other)⟩
  | typeParameter h =>
    obtain ⟨front, rfl, hfront⟩ := carries_compressed h
    exact ⟨_, front, rfl, fun other => .typeParameter (hfront other)⟩
  | array helement hrank hsizes hlower =>
    obtain ⟨first, rfl, hfirst⟩ := hT.carries helement
    obtain ⟨second, rfl, hsecond⟩ := carries_compressed hrank
    obtain ⟨third, rfl, hthird⟩ := carries_counted carries_compressed hsizes
    obtain ⟨fourth, rfl, hfourth⟩ := carries_counted carries_compressed hlower
    refine ⟨_, first ++ (second ++ (third ++ fourth)), by simp; rfl, fun other => ?_⟩
    simp only [List.cons_append, List.append_assoc]
    exact .array (hfirst _) (hsecond _) (hthird _) (hfourth other)
  | @genericInstance tag _ _ _ _ _ htag hbase harguments =>
    obtain ⟨tag', front, hdata, hfront⟩ := hT hbase
    rw [List.cons_append, List.cons.injEq] at hdata
    obtain ⟨rfl, rfl⟩ := hdata
    obtain ⟨behind, rfl, hbehind⟩ := carries_counted hT.carries harguments
    refine ⟨0x15, tag :: (front ++ behind), by simp, fun other => ?_⟩
    simp only [List.cons_append, List.append_assoc]
    exact .genericInstance htag (hfront _) (hbehind other)
  | functionPointer h =>
    obtain ⟨front, rfl, hfront⟩ := carries_method hwide hT hstop h
    exact ⟨_, front, rfl, fun other => .functionPointer (hfront other)⟩
  | vector h =>
    obtain ⟨front, rfl, hfront⟩ := carries_modified hwide hT h
    exact ⟨_, front, rfl, fun other => .vector (hfront other)⟩
  | methodParameter h =>
    obtain ⟨front, rfl, hfront⟩ := carries_compressed h
    exact ⟨_, front, rfl, fun other => .methodParameter (hfront other)⟩
  | modified htag htoken h =>
    obtain ⟨first, rfl, hfirst⟩ := carries_token hwide htoken
    obtain ⟨front, rfl, hfront⟩ := carries_modified hwide hT h
    refine ⟨_, first ++ front, by simp; rfl, fun other => ?_⟩
    simp only [List.cons_append, List.append_assoc]
    exact .modified htag (hfirst _) (hfront other)
  | pinned h =>
    obtain ⟨front, rfl, hfront⟩ := hT.carries h
    exact ⟨_, front, rfl, fun other => .pinned (hfront other)⟩

omit hT

/-- By induction on the levels: a type is a layer around types that do not look further. -/
theorem carriesSome_type (levels : Nat) : CarriesSome (TypeForm L levels) (TypeForm L' levels) := by
  induction levels with
  | zero => exact fun h => h.elim
  | succ levels ih => exact carriesSome_layer hwide ih hstop

theorem carries_signature : Carries (SignatureForm L) (SignatureForm L') :=
  carries_method hwide (carriesSome_type hwide hstop _) hstop

end

/-- A signature is one in front of anything else, whatever is let pass. -/
theorem Spells.form {front : List UInt8} {signature : MethodSig} (h : Spells front signature)
    (L : Liberties) (rest : List UInt8) : SignatureForm L (front ++ rest) signature rest := by
  have hcarried : Carries (SignatureForm .none) (SignatureForm L) :=
    carries_signature (fun h => absurd h (by decide)) rfl
  obtain ⟨front', hfront, hother⟩ := hcarried h
  rw [hfront, List.append_nil]
  exact hother rest

/-- Without liberties a form is a signature with something behind it. -/
theorem signatureForm_none_iff {data rest : List UInt8} {signature : MethodSig} :
    SignatureForm .none data signature rest ↔
      ∃ front, data = front ++ rest ∧ Spells front signature := by
  constructor
  · intro h
    have hcarried : Carries (SignatureForm .none) (SignatureForm .none) := carries_signature id rfl
    obtain ⟨front, rfl, hother⟩ := hcarried h
    have hform := hother []
    rw [List.append_nil] at hform
    exact ⟨front, rfl, hform⟩
  · rintro ⟨front, rfl, h⟩
    exact h.form .none rest

end CilInstrument
