import CilInstrument.Proofs.ArrayLayout
import CilInstrument.Proofs.KnownNames
import CilInstrument.Proofs.ParameterBlobs

/- What the array of the parameters' types tells of a signature. Its plan asks for the types
   without the by-reference markers, and if the host has one token for each name this is all
   that it depends on; as code is read back from its bytes, two arrays have the same bytes
   just if they were planned alike. So two lists of parameters give the same array if and
   only if their types are the same without the markers (`Instrument.parameterTypes_same_iff`),
   and an overload that differs in a marker alone is not told apart. -/
namespace CilInstrument

open Step

/-! Code that is asked for opcode by opcode. -/

namespace Intent

/-- An instruction that is asked for by its opcode. -/
def isExact : Intent → Bool
  | instruction _ _ => true
  | access _ _ | jump _ _ | ownCode _ => false

theorem isPlain_of_isExact {intent : Intent} (h : intent.isExact = true) :
    intent.isPlain = true := by
  cases intent with
  | instruction _ _ => rfl
  | _ => cases h

/-- The bytes of such an instruction. -/
def bytes : Intent → List UInt8
  | instruction op operand => op.encoding ++ operand.bytes
  | access _ _ | jump _ _ | ownCode _ => []

theorem emitted_of_met {intents : List Intent} {items : List CodeItem}
    (h : List.Forall₂ IsMetBy intents items) (hexact : ∀ intent ∈ intents, intent.isExact = true) :
    Linking.emitted items = intents.flatMap bytes := by
  induction h with
  | nil => rfl
  | @cons intent item intents items hfirst _ ih =>
    have hrest := ih fun x hx => hexact x (List.mem_cons_of_mem _ hx)
    have hone : Linking.emittedItem item = intent.bytes := by
      cases hfirst with
      | instruction _ => rfl
      | access | jump _ | ownCode => cases hexact _ List.mem_cons_self
    rw [Linking.emitted, List.flatMap_cons, List.flatMap_cons, ← hrest, hone]
    rfl

/-- The instructions that were read say by which opcodes they were asked for. -/
theorem eq_of_said {place : Nat → Option Nat} {intents intents' : List Intent}
    {stream : List Instruction} (h : List.Forall₂ (IsSaidBy place) intents stream)
    (h' : List.Forall₂ (IsSaidBy place) intents' stream)
    (hexact : ∀ intent ∈ intents, intent.isExact = true)
    (hexact' : ∀ intent ∈ intents', intent.isExact = true) : intents = intents' := by
  induction h generalizing intents' with
  | nil =>
    cases h'
    rfl
  | @cons intent i intents stream hfirst _ ih =>
    cases h' with
    | @cons intent' _ intents' _ hfirst' hrest' =>
      have hrest : intents = intents' :=
        ih hrest' (fun x hx => hexact x (List.mem_cons_of_mem _ hx))
          fun x hx => hexact' x (List.mem_cons_of_mem _ hx)
      have hone : intent = intent' := by
        have hx := hexact intent List.mem_cons_self
        have hx' := hexact' intent' List.mem_cons_self
        cases intent with
        | instruction op operand =>
          cases intent' with
          | instruction op' operand' =>
            obtain ⟨hop, hargument⟩ := hfirst
            obtain ⟨hop', hargument'⟩ := hfirst'
            rw [hop] at hop'
            rw [hargument] at hargument'
            cases hop'
            cases hargument'
            rfl
          | _ => cases hx'
        | _ => cases hx
      rw [hone, hrest]

end Intent

/-- Two rows of such instructions behind the same code have the same bytes just if they are
the same. -/
theorem Builder.Adds.emitted_eq_iff {b t t' : Builder} {intents intents' : List Intent}
    (h : Adds intents b t) (h' : Adds intents' b t')
    (hexact : ∀ intent ∈ intents, intent.isExact = true)
    (hexact' : ∀ intent ∈ intents', intent.isExact = true) :
    t.emitted = t'.emitted ↔ intents = intents' := by
  constructor
  · intro heq
    obtain ⟨code, hcode, hreads⟩ := h.reads fun x hx => Intent.isPlain_of_isExact (hexact x hx)
    obtain ⟨code', hcode', hreads'⟩ :=
      h'.reads fun x hx => Intent.isPlain_of_isExact (hexact' x hx)
    obtain rfl : code = code' := List.append_cancel_left (hcode.symm.trans (heq.trans hcode'))
    obtain ⟨-, stream, hstream⟩ := hreads b.place
    obtain ⟨-, stream', hstream'⟩ := hreads' b.place
    obtain rfl : stream = stream' := Option.some.inj (hstream.read.symm.trans hstream'.read)
    exact Intent.eq_of_said hstream.said hstream'.said hexact hexact'
  · rintro rfl
    obtain ⟨more, hitems, hmet⟩ := h
    obtain ⟨more', hitems', hmet'⟩ := h'
    have hbytes := (Intent.emitted_of_met hmet hexact).trans
      (Intent.emitted_of_met hmet' hexact').symm
    unfold emitted
    rw [hitems, hitems', Linking.emitted, List.flatMap_append, Linking.emitted,
      List.flatMap_append]
    exact congrArg _ hbytes

/-! Plans for a host that knows every name. -/

theorem TokenTable.IsOf.total {σ : Type} [Resolver σ] {names : TokenTable} (h : names.IsOf σ) :
    Resolver.Total σ where
  string value host := ⟨_, h.string value host⟩
  type name host := ⟨_, h.type name host⟩
  member member host := ⟨_, h.member member host⟩
  typeSpec blob host := ⟨_, h.typeSpec blob host⟩

namespace Emit

variable {σ α β : Type} {d : Nat}

/-- Whatever the host's state is, it gives this answer. -/
def Answers (question : Ask σ α) (a : α) : Prop :=
  ∀ host, ∃ host', question.run host = .ok a host'

namespace Answers

theorem pure (a : α) : Answers (Pure.pure a : Ask σ α) a := fun host => ⟨host, rfl⟩

theorem bind {question : Ask σ α} {f : α → Ask σ β} {a : α} {b : β} (h : Answers question a)
    (hf : Answers (f a) b) : Answers (question >>= f) b := by
  intro host
  obtain ⟨host', hrun⟩ := h host
  obtain ⟨host'', hrun'⟩ := hf host'
  exact ⟨host'', run_bind_ok.mpr ⟨a, host', hrun, hrun'⟩⟩

end Answers

/-- The instructions for the elements from `index` on. -/
def rowIntents : (index : Nat) → List (List Intent) → List Intent
  | _, [] => []
  | index, load :: rest => elementIntents index load ++ rowIntents (index + 1) rest

theorem answers_rowPlan {plans : List (Ask σ (List Intent))} {loads : List (List Intent)}
    (h : List.Forall₂ Answers plans loads) (index : Nat) :
    Answers (rowPlan index plans) (rowIntents index loads) := by
  induction h generalizing index with
  | nil => exact .pure []
  | cons hfirst _ ih => exact .bind hfirst (.bind (ih (index + 1)) (.pure _))

end Emit

/-! The types of parameters. -/

/-- The instructions that load the type with this token. -/
def TokenTable.typeIntents (names : TokenTable) (type : Token) : List Intent :=
  [.instruction .ldtoken (.token type),
    .instruction .call (.token (names.member RuntimeLibrary.typeFromHandle))]

/-- The instructions for the array of the types with these tokens. -/
def TokenTable.typeArrayIntents (names : TokenTable) (types : List Token) : List Intent :=
  .instruction .ldcI4 (.int (Int32.ofNat types.length)) ::
    .instruction .newarr (.token (names.type RuntimeLibrary.typeType)) ::
      Emit.rowIntents 0 (types.map names.typeIntents)

namespace TokenTable

variable (names : TokenTable)

theorem isExact_rowIntents (types : List Token) (index : Nat) :
    ∀ intent ∈ Emit.rowIntents index (types.map names.typeIntents), intent.isExact = true := by
  induction types generalizing index with
  | nil => exact fun _ h => absurd h List.not_mem_nil
  | cons type types ih =>
    intro intent hintent
    rcases List.mem_append.mp hintent with h | h
    · simp only [Emit.elementIntents, typeIntents, List.cons_append, List.nil_append,
        List.mem_cons, List.not_mem_nil, or_false] at h
      rcases h with rfl | rfl | rfl | rfl | rfl <;> rfl
    · exact ih (index + 1) intent h

theorem isExact_typeArrayIntents (types : List Token) :
    ∀ intent ∈ names.typeArrayIntents types, intent.isExact = true :=
  List.forall_mem_cons.mpr ⟨rfl, List.forall_mem_cons.mpr ⟨rfl, names.isExact_rowIntents types 0⟩⟩

theorem rowIntents_inj {types types' : List Token} {index : Nat}
    (h : Emit.rowIntents index (types.map names.typeIntents) =
      Emit.rowIntents index (types'.map names.typeIntents)) : types = types' := by
  induction types generalizing index types' with
  | nil =>
    cases types' with
    | nil => rfl
    | cons type types' => cases h
  | cons type types ih =>
    cases types' with
    | nil => cases h
    | cons type' types' =>
      simp only [List.map_cons, Emit.rowIntents, Emit.elementIntents, typeIntents,
        List.cons_append, List.nil_append, List.cons.injEq, Intent.instruction.injEq,
        Operand.token.injEq, true_and] at h
      rw [h.1, ih h.2]

/-- The array of types says what types they are. -/
theorem typeArrayIntents_inj {types types' : List Token}
    (h : names.typeArrayIntents types = names.typeArrayIntents types') : types = types' :=
  names.rowIntents_inj (List.cons.inj (List.cons.inj h).2).2

end TokenTable

namespace Emit

open Builder (Adds)

variable {σ : Type} [Resolver σ] {d : Nat}

/-- The plan for the type of a parameter, which is asked for without the marker. -/
def typePlan (param : ParamSig) : Ask σ (List Intent) := do
  let type ← Resolver.typeSpecToken param.typeBlob
  let member ← Resolver.memberToken RuntimeLibrary.typeFromHandle
  return [.instruction .ldtoken (.token type), .instruction .call (.token member)]

/-- The plan for the array of the types of parameters. -/
def typeArrayPlan (params : List ParamSig) : Ask σ (List Intent) :=
  arrayPlan RuntimeLibrary.typeType (params.map typePlan)

theorem realizes_loadTypeOf (htotal : Resolver.Total σ) (param : ParamSig)
    (hlimit : d + 1 ≤ Builder.depthLimit) :
    Realizes (typePlan param) d (d + 1) (loadTypeOf param : Emit σ Unit) := by
  have hload : ∀ type, Realizes (Pure.pure [.instruction .ldtoken (.token type)]) d (d + 1)
      (build (Build.withToken .ldtoken type) : Emit σ Unit) := fun type =>
    @Realizes.instruction σ d .ldtoken (.token type) ⟨0, 1⟩ rfl rfl (Nat.zero_le d) hlimit
  have hemit : ∀ member, Realizes (Pure.pure [.instruction .call (.token member)]) (d + 1) (d + 1)
      (build (Build.emit .call ⟨1, 1⟩ (.token member)) : Emit σ Unit) := fun member =>
    .one (.instruction rfl) rfl rfl (Nat.le_add_left _ _) hlimit
  have hcall : Realizes (Resolver.memberToken RuntimeLibrary.typeFromHandle >>= fun member =>
      Pure.pure [.instruction .call (.token member)]) (d + 1) (d + 1)
      (call .call RuntimeLibrary.typeFromHandle : Emit σ Unit) := by
    unfold call
    rw [RuntimeLibrary.typeFromHandle_effect]
    exact .ask (htotal.member _) hemit
  refine (Realizes.ask (htotal.typeSpec _) fun type => (hload type).bind hcall).congr fun host => ?_
  unfold typePlan
  simp only [EStateM.run_bind, EStateM.run_pure]
  cases (Resolver.typeSpecToken param.typeBlob).run host with
  | ok type host' =>
    dsimp only
    cases (Resolver.memberToken RuntimeLibrary.typeFromHandle).run host' <;> rfl
  | error e host' => rfl

theorem realizes_typeArray (htotal : Resolver.Total σ) {params : List ParamSig}
    (hlength : params.length < 0x80000000) (hlimit : d + 4 ≤ Builder.depthLimit) :
    Realizes (typeArrayPlan params) d (d + 1) (typeArray params : Emit σ Unit) := by
  refine Realizes.array ?_ hlimit (htotal.type _) ?_
  · rwa [List.length_map]
  · rw [List.forall₂_map_left_iff, List.forall₂_map_right_iff, List.forall₂_same]
    intro param _
    exact realizes_loadTypeOf htotal param hlimit

theorem answers_typeArrayPlan {names : TokenTable} (hnames : names.IsOf σ)
    (params : List ParamSig) :
    Answers (typeArrayPlan params : Ask σ (List Intent))
      (names.typeArrayIntents (params.map fun p => names.typeSpec p.typeBlob)) := by
  have hrow : List.Forall₂ Answers (params.map typePlan : List (Ask σ (List Intent)))
      ((params.map fun p => names.typeSpec p.typeBlob).map names.typeIntents) := by
    rw [List.map_map, List.forall₂_map_left_iff, List.forall₂_map_right_iff, List.forall₂_same]
    intro param _
    exact Answers.bind (hnames.typeSpec _) (.bind (hnames.member _) (.pure _))
  refine .bind (hnames.type _) (.bind (answers_rowPlan hrow 0) ?_)
  rw [List.length_map, TokenTable.typeArrayIntents, List.length_map]
  exact .pure _

/-- Two arrays behind the same code have the same bytes just if they ask for the same tokens. -/
theorem typeArray_emitted_iff {names : TokenTable} (hnames : names.IsOf σ)
    {params params' : List ParamSig} (hlength : params.length < 0x80000000)
    (hlength' : params'.length < 0x80000000) {s s' : Emission σ}
    (hreachable : s.builder.reachable = true)
    (hdepth : s.builder.depth + 4 ≤ Builder.depthLimit) (hbuilder : s'.builder = s.builder) :
    ∃ t t', (typeArray params).run s = .ok () t ∧ (typeArray params').run s' = .ok () t' ∧
      (t.builder.emitted = t'.builder.emitted ↔
        params.map (fun p => names.typeSpec p.typeBlob) =
          params'.map fun p => names.typeSpec p.typeBlob) := by
  have hmade : ∀ {params : List ParamSig}, params.length < 0x80000000 → ∀ {u : Emission σ},
      u.builder = s.builder → ∃ t, (typeArray params).run u = .ok () t ∧
        Adds (names.typeArrayIntents (params.map fun p => names.typeSpec p.typeBlob))
          s.builder t.builder := by
    intro params hlength u hu
    obtain ⟨intents, t, hrun, hplan, happended⟩ :=
      realizes_typeArray hnames.total hlength hdepth u (by rw [hu]; exact hreachable) (by rw [hu])
    obtain ⟨host, hanswer⟩ := answers_typeArrayPlan hnames params u.host
    cases hplan.symm.trans hanswer
    exact ⟨t, hrun, hu ▸ happended.adds⟩
  obtain ⟨t, hrun, hadds⟩ := hmade hlength rfl
  obtain ⟨t', hrun', hadds'⟩ := hmade hlength' hbuilder
  refine ⟨t, t', hrun, hrun', ?_⟩
  rw [hadds.emitted_eq_iff hadds' (names.isExact_typeArrayIntents _)
    (names.isExact_typeArrayIntents _)]
  exact ⟨names.typeArrayIntents_inj, congrArg _⟩

end Emit

namespace Instrument

open Emit

variable {σ : Type} [Resolver σ]

/-- Types with tokens of their own are the same if their tokens are. -/
theorem typeBlobs_eq_of_tokens {names : TokenTable} {params params' : List ParamSig}
    (hdistinct : ∀ p ∈ params, ∀ q ∈ params',
      names.typeSpec p.typeBlob = names.typeSpec q.typeBlob → p.typeBlob = q.typeBlob)
    (h : params.map (fun p => names.typeSpec p.typeBlob) =
      params'.map fun p => names.typeSpec p.typeBlob) :
    params.map (·.typeBlob) = params'.map (·.typeBlob) := by
  induction params generalizing params' with
  | nil => rw [List.map_eq_nil_iff.mp h.symm]
  | cons p params ih =>
    cases params' with
    | nil => cases h
    | cons q params' =>
      obtain ⟨hfirst, hrest⟩ := List.cons.inj h
      have hmore := ih (fun x hx y hy => hdistinct x (List.mem_cons_of_mem _ hx) y
        (List.mem_cons_of_mem _ hy)) hrest
      rw [List.map_cons, List.map_cons, hmore,
        hdistinct p List.mem_cons_self q List.mem_cons_self hfirst]

/-- The arrays of the parameters' types of two methods, as blocks and emitted at once. Where
names have one token each, and types with different bytes that are asked for have different
tokens, both blocks go through wherever there is room for them. Behind the same code they emit
the same bytes just if the two lists of types, without by-reference markers, are the same. -/
theorem parameterTypes_same_iff {names : TokenTable} (hnames : names.IsOf σ) {s s' : Session σ}
    {data data' : List UInt8} (hread : MethodSig.ofBytes data = .ok s.target.signature)
    (hread' : MethodSig.ofBytes data' = .ok s'.target.signature)
    (hdistinct : ∀ p ∈ s.target.signature.params, ∀ q ∈ s'.target.signature.params,
      names.typeSpec p.typeBlob = names.typeSpec q.typeBlob → p.typeBlob = q.typeBlob) :
    ∃ block block', parameterTypes.run s = .ok block s ∧ parameterTypes.run s' = .ok block' s' ∧
      emitParameterTypes.run s = (emit block).run s ∧
      emitParameterTypes.run s' = (emit block').run s' ∧
      ∀ u u' : Emission σ, u.builder.reachable = true →
        u.builder.depth + 4 ≤ Builder.depthLimit → u'.builder = u.builder →
        ∃ t t', block.run u = .ok () t ∧ block'.run u' = .ok () t' ∧
          (t.builder.emitted = t'.builder.emitted ↔
            s.target.signature.params.map (·.typeBlob) =
              s'.target.signature.params.map (·.typeBlob)) := by
  have hlength := MethodSig.length_params_le hread
  have hlength' := MethodSig.length_params_le hread'
  unfold Compressed.max at hlength hlength'
  refine ⟨_, _, rfl, rfl, rfl, rfl, fun u u' hreachable hdepth hbuilder => ?_⟩
  obtain ⟨t, t', hrun, hrun', hsame⟩ := typeArray_emitted_iff hnames (Nat.lt_of_le_of_lt hlength
    (by decide)) (Nat.lt_of_le_of_lt hlength' (by decide)) hreachable hdepth hbuilder
  refine ⟨t, t', hrun, hrun', hsame.trans ?_⟩
  constructor
  · exact typeBlobs_eq_of_tokens hdistinct
  · intro h
    have htypes := congrArg (List.map names.typeSpec) h
    rwa [List.map_map, List.map_map] at htypes

end Instrument

/-! A host with tokens of their own for different types. -/

/-- A host that makes the token of a type from its bytes. -/
structure SpelledTypes where

namespace SpelledTypes

/-- The tokens by name. -/
def names : TokenTable where
  string _ := ⟨0x70000001⟩
  type _ := ⟨0x01000001⟩
  member _ := ⟨0x0A000001⟩
  typeSpec blob := ⟨UInt32.ofNat (0x1B000000 + LittleEndian.decode blob)⟩

instance : Resolver SpelledTypes where
  stringToken value := pure (names.string value)
  typeToken name := pure (names.type name)
  memberToken member := pure (names.member member)
  typeSpecToken blob := pure (names.typeSpec blob)
  typeSignature _ := pure [0x1C]

theorem names_isOf : names.IsOf SpelledTypes where
  string _ host := ⟨host, rfl⟩
  type _ host := ⟨host, rfl⟩
  member _ host := ⟨host, rfl⟩
  typeSpec _ host := ⟨host, rfl⟩

/-- A session for a method with this signature and the code `ret`. -/
def session (signature : MethodSig) : Session SpelledTypes where
  target := ⟨.default, "M", .tiny, ⟨.promoted, 8, 1, ⟨0⟩⟩, [0x2A], signature⟩
  locals := .empty
  emission := ⟨⟨⟩, .start .empty⟩
  shared := .empty

end SpelledTypes

namespace Instrument

open Emit SpelledTypes

/-- A number, a text, and a reference to a number. -/
def numberParam : ParamSig := MethodSig.plainParam .int32 [0x08]

def textParam : ParamSig := MethodSig.plainParam .string [0x0E]

def referenceParam : ParamSig := ⟨[], true, .int32, [0x10, 0x08], [0x08]⟩

/-- Types of one byte are read alone. -/
theorem ofBytes_primitive {tag : UInt8} {type : TypeSig}
    (htype : TypeSig.primitive? tag.toNat = some type) (hmod : ElementTag.isModifier tag = false)
    (href : tag ≠ ElementTag.byRef) :
    MethodSig.ofBytes [0x00, 0x01, 0x01, tag] =
      .ok (.taking (MethodSig.plainParam type [tag])) := by
  have hend : Unmodified [tag] := by
    rintro _ ⟨⟩
    exact hmod
  exact @MethodSig.ofBytes_taking (MethodSig.plainParam type [tag])
    (.byValue .nil hend (fun heq => href (Option.some.inj heq)) (.primitive htype) rfl rfl)

theorem ofBytes_number : MethodSig.ofBytes [0x00, 0x01, 0x01, 0x08] = .ok (.taking numberParam) :=
  ofBytes_primitive rfl rfl (by decide)

theorem ofBytes_text : MethodSig.ofBytes [0x00, 0x01, 0x01, 0x0E] = .ok (.taking textParam) :=
  ofBytes_primitive rfl rfl (by decide)

theorem ofBytes_reference :
    MethodSig.ofBytes [0x00, 0x01, 0x01, 0x10, 0x08] = .ok (.taking referenceParam) :=
  @MethodSig.ofBytes_taking referenceParam (.byRef .nil (.primitive rfl) rfl rfl)

/-- A number and a text are told apart. -/
theorem parameterTypes_same_iff_numberText :
    ∃ t t', emitParameterTypes.run (session (.taking numberParam)) = .ok () t ∧
      emitParameterTypes.run (session (.taking textParam)) = .ok () t' ∧
      t.builder.emitted ≠ t'.builder.emitted := by
  have hdistinct : ∀ p ∈ (MethodSig.taking numberParam).params,
      ∀ q ∈ (MethodSig.taking textParam).params,
        names.typeSpec p.typeBlob = names.typeSpec q.typeBlob → p.typeBlob = q.typeBlob := by
    intro p hp q hq h
    cases List.mem_singleton.mp hp
    cases List.mem_singleton.mp hq
    exact absurd h (by decide +kernel)
  obtain ⟨block, block', -, -, hemit, hemit', hruns⟩ :=
    @parameterTypes_same_iff SpelledTypes _ names names_isOf (session (.taking numberParam))
      (session (.taking textParam)) _ _ ofBytes_number ofBytes_text hdistinct
  obtain ⟨t, t', hrun, hrun', hsame⟩ := hruns (session (.taking numberParam)).emission
    (session (.taking textParam)).emission rfl (by decide) rfl
  refine ⟨_, _, by rw [hemit, run_emit, hrun], by rw [hemit', run_emit, hrun'], fun heq => ?_⟩
  exact absurd (hsame.mp heq) (by decide)

/-- A number and a reference to a number are not told apart, though the two types have different
tokens. -/
theorem parameterTypes_of_reference :
    MethodSig.ofBytes [0x00, 0x01, 0x01, 0x08] = .ok (.taking numberParam) ∧
    MethodSig.ofBytes [0x00, 0x01, 0x01, 0x10, 0x08] = .ok (.taking referenceParam) ∧
    numberParam.isByRef = false ∧ referenceParam.isByRef = true ∧
    names.typeSpec numberParam.blob ≠ names.typeSpec referenceParam.blob ∧
    ∃ t t', emitParameterTypes.run (session (.taking numberParam)) = .ok () t ∧
      emitParameterTypes.run (session (.taking referenceParam)) = .ok () t' ∧
      t.builder.emitted = t'.builder.emitted := by
  have hok : emitParameterTypes.succeeds (session (.taking numberParam)) = true := by
    decide +kernel
  have hok' : emitParameterTypes.succeeds (session (.taking referenceParam)) = true := by
    decide +kernel
  have hsame : (emitParameterTypes.after (session (.taking numberParam))).builder.emitted =
      (emitParameterTypes.after (session (.taking referenceParam))).builder.emitted := by
    decide +kernel
  obtain ⟨_, hrun⟩ := exists_ok_of_succeeds hok
  obtain ⟨_, hrun'⟩ := exists_ok_of_succeeds hok'
  exact ⟨ofBytes_number, ofBytes_reference, rfl, rfl, by decide +kernel, _, _, hrun, hrun', hsame⟩

end Instrument

end CilInstrument
