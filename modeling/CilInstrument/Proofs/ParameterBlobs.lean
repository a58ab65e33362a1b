import CilInstrument.Proofs.VarargPointers

/- The bytes of parameters. A parameter keeps the bytes that it was read from, and as long as
   no function pointer inside stops at a sentinel, these do not hang on what stood around
   them: put in front of anything else they spell the same parameter (`ParamForm.alone`). So
   behind its counts a signature is the row of these bytes, and each of them is read again as
   the parameter that it came with (`blobs_self_contained`). -/
namespace CilInstrument

open SignatureReader

/-- A signature without sentinels, but for one that may stand in place of its own last
parameters. -/
def OuterSentinelForm (wideRows : Bool) : Form MethodSig :=
  MethodForm ⟨true, wideRows⟩ (TypeForm ⟨false, wideRows⟩ (levelLimit - 1))

/-- A static method without a result that takes this parameter. -/
def MethodSig.taking (p : ParamSig) : MethodSig where
  hasThis := false
  explicitThis := false
  isVararg := false
  genericCount := 0
  returnType := plainParam .void [0x01]
  params := [p]

/-! One parameter. -/

section
variable {L : Liberties} {T T' : Form TypeSig} {data rest : List UInt8} {p : ParamSig}

theorem ParamForm.blob_append (h : ParamForm L T data p rest) : data = p.blob ++ rest := by
  cases h with
  | byValue _ _ _ _ hblob _ => exact hblob
  | byRef _ _ hblob _ => exact hblob

/-- Its bytes spell the parameter in front of anything else. -/
theorem ParamForm.alone (L' : Liberties) (hwide : L.wideRows = true → L'.wideRows = true)
    (hT : CarriesSome T T') (h : ParamForm L T data p rest) (other : List UInt8) :
    ParamForm L' T' (p.blob ++ other) p other := by
  obtain ⟨front, hfront, hother⟩ := carries_param hwide hT h
  obtain rfl := List.append_cancel_right (hfront.symm.trans h.blob_append)
  exact hother other

/-- What its bytes are made of. -/
theorem ParamForm.blob_parts (h : ParamForm L T p.blob p []) :
    ∃ front, p.blob = front ++ (if p.isByRef then [ElementTag.byRef] else []) ++ p.typeBlob ∧
      ModifiersForm L front p.modifiers [] ∧ T p.typeBlob p.base [] := by
  generalize hdata : p.blob = data at h
  have hcarries : Carries (ModifiersForm L) (ModifiersForm L) := carries_modifiers id
  cases h with
  | byValue hmods _ _ htype _ htypeBlob =>
    obtain ⟨front, hfront, hother⟩ := hcarries hmods
    rw [List.append_nil] at htypeBlob
    subst htypeBlob
    refine ⟨front, ?_, ?_, htype⟩
    · simpa using hfront
    · simpa using hother []
  | byRef hmods htype _ htypeBlob =>
    obtain ⟨front, hfront, hother⟩ := hcarries hmods
    rw [List.append_nil] at htypeBlob
    subst htypeBlob
    refine ⟨front, ?_, ?_, htype⟩
    · simpa using hfront
    · simpa using hother []

end

/-! Rows of parameters. -/

/-- The bytes of the parameters stand one behind the other. -/
theorem ParamsForm.blobs {L : Liberties} {T : Form TypeSig} {count : Nat}
    {data rest : List UInt8} {params : List ParamSig} (h : ParamsForm L T count data params rest) :
    data = params.flatMap (·.blob) ++ rest ∧
      (∀ p ∈ params, ∃ data rest, ParamForm L T data p rest) ∧
      (params.length = count ∨
        params.length < count ∧ rest.head? = some ElementTag.sentinel) := by
  induction h with
  | nil => exact ⟨rfl, by simp, .inl rfl⟩
  | cons hfirst _ ih =>
    obtain ⟨hdata, hparams, hcount⟩ := ih
    refine ⟨?_, ?_, ?_⟩
    · rw [hfirst.blob_append, hdata, List.flatMap_cons, List.append_assoc]
    · exact List.forall_mem_cons.mpr ⟨⟨_, _, hfirst⟩, hparams⟩
    · rw [List.length_cons]
      rcases hcount with hcount | ⟨hcount, hend⟩
      · exact .inl (congrArg (· + 1) hcount)
      · exact .inr ⟨Nat.succ_lt_succ hcount, hend⟩
  | sentinel _ => exact ⟨rfl, by simp, .inr ⟨Nat.succ_pos _, rfl⟩⟩

/-- The number of parameters is one that can be written. -/
theorem MethodSig.length_params_le {data : List UInt8} {signature : MethodSig}
    (h : ofBytes data = .ok signature) : signature.params.length ≤ Compressed.max := by
  obtain ⟨_, hform⟩ := ofBytes_ok_iff.mp h
  cases hform with
  | mk _ hcount _ hparams =>
    have hmax := hcount.le_max
    obtain ⟨-, -, hlength⟩ := hparams.blobs
    dsimp only
    omega

/-- Whatever is let pass may be let pass. -/
theorem ParamsForm.all {wideRows : Bool} {T T' : Form TypeSig} (hT : CarriesSome T T')
    {count : Nat} {data rest : List UInt8} {params : List ParamSig}
    (h : ParamsForm ⟨true, wideRows⟩ T count data params rest) :
    ParamsForm .all T' count data params rest := by
  induction h with
  | nil => exact .nil
  | cons hfirst _ ih =>
    have hcarries : Carries (ParamForm ⟨true, wideRows⟩ T) (ParamForm .all T') :=
      carries_param (fun _ => rfl) hT
    exact .cons (hcarries.form hfirst) ih
  | sentinel _ => exact .sentinel rfl

namespace OuterSentinelForm

variable {wideRows : Bool} {data rest : List UInt8} {signature : MethodSig}

theorem carriesSome_all : CarriesSome (TypeForm ⟨false, wideRows⟩ (levelLimit - 1))
    (TypeForm .all (levelLimit - 1)) :=
  carriesSome_type (fun _ => rfl) rfl _

theorem signatureForm (h : OuterSentinelForm wideRows data signature rest) :
    SignatureForm .all data signature rest := by
  have hcarries : Carries
      (ParamForm ⟨true, wideRows⟩ (TypeForm ⟨false, wideRows⟩ (levelLimit - 1)))
      (ParamForm .all (TypeForm .all (levelLimit - 1))) :=
    carries_param (fun _ => rfl) carriesSome_all
  cases h with
  | mk hgenerics hcount hreturn hparams =>
    exact .mk hgenerics hcount (hcarries.form hreturn) (hparams.all carriesSome_all)

/-- A signature is its convention, its counts and the bytes of its parameters. -/
theorem parts (h : OuterSentinelForm wideRows data signature rest) :
    ∃ convention counts counted count,
      data = convention :: (counts ++
        (signature.returnType.blob ++ signature.params.flatMap (·.blob))) ++ rest ∧
      GenericsForm convention counts signature.genericCount counted ∧
      CompressedForm counted count [] ∧
      (signature.params.length = count ∨
        signature.params.length < count ∧ rest.head? = some ElementTag.sentinel) := by
  cases h with
  | @mk convention _ _ _ _ _ _ count _ _ hgenerics hcount hreturn hparams =>
    obtain ⟨hlisted, -, hlength⟩ := hparams.blobs
    obtain ⟨first, rfl, hfirst⟩ := carries_generics convention hgenerics
    obtain ⟨second, rfl, hsecond⟩ := carries_compressed hcount
    have hnumber := hsecond []
    rw [List.append_nil] at hnumber
    refine ⟨convention, first ++ second, second, count, ?_, hfirst second, hnumber, hlength⟩
    rw [hreturn.blob_append, hlisted]
    simp only [List.cons_append, List.append_assoc]

theorem param_of_mem (h : OuterSentinelForm wideRows data signature rest) {p : ParamSig}
    (hp : p ∈ signature.returnType :: signature.params) :
    ∃ data rest, ParamForm ⟨true, wideRows⟩ (TypeForm ⟨false, wideRows⟩ (levelLimit - 1))
      data p rest := by
  cases h with
  | mk _ _ hreturn hparams =>
    rcases List.mem_cons.mp hp with rfl | hp
    · exact ⟨_, _, hreturn⟩
    · exact hparams.blobs.2.1 p hp

end OuterSentinelForm

namespace MethodSig

/-- A parameter that is spelled by its bytes is read behind the head of a signature. -/
theorem ofBytes_taking {p : ParamSig}
    (h : ParamForm .all (TypeForm .all (levelLimit - 1)) p.blob p []) :
    ofBytes ([0x00, 0x01, 0x01] ++ p.blob) = .ok (taking p) := by
  have hone : CompressedForm (0x01 :: 0x01 :: p.blob) 1 (0x01 :: p.blob) :=
    @CompressedForm.one 1 _ (by decide)
  have hvoid : ParamForm .all (TypeForm .all (levelLimit - 1)) (0x01 :: p.blob)
      (plainParam .void [0x01]) p.blob := by
    refine .byValue .nil ?_ (fun heq => ?_) (.primitive rfl) rfl rfl
    · rintro _ ⟨⟩
      rfl
    · cases heq
  exact ofBytes_ok_iff.mpr ⟨[], .mk (.absent rfl) hone hvoid (.cons h .nil)⟩

/-- Parameters are self-contained. What was read of a signature in which no function pointer
has a sentinel is its convention, its counts, the bytes of the return type and then those of
the parameters, none left out between them, up to where reading stopped: behind as many
parameters as were counted, or in front of a sentinel. The bytes of each are its modifiers,
the by-reference marker if it has one, and its type; and read alone, as the only parameter of
a signature, they give the same parameter. -/
theorem blobs_self_contained {wideRows : Bool} {data : List UInt8} {signature : MethodSig}
    {s : SignatureCursor}
    (hread : method.run (SignatureCursor.ofBytes data) = .ok signature s)
    (houter : ∃ signature rest, OuterSentinelForm wideRows data signature rest) :
    (∃ convention counts counted count,
      data.take s.cursor.pos = convention :: (counts ++
        (signature.returnType.blob ++ signature.params.flatMap (·.blob))) ∧
      GenericsForm convention counts signature.genericCount counted ∧
      CompressedForm counted count [] ∧
      (signature.params.length = count ∨ signature.params.length < count ∧
        data[s.cursor.pos]? = some ElementTag.sentinel)) ∧
    ∀ p ∈ signature.returnType :: signature.params,
      (∃ front, p.blob = front ++ (if p.isByRef then [ElementTag.byRef] else []) ++ p.typeBlob ∧
        ModifiersForm ⟨false, wideRows⟩ front p.modifiers [] ∧
        TypeForm ⟨false, wideRows⟩ (levelLimit - 1) p.typeBlob p.base []) ∧
      ofBytes ([0x00, 0x01, 0x01] ++ p.blob) = .ok (taking p) := by
  obtain ⟨signature', rest, hform⟩ := houter
  have hspelled := OuterSentinelForm.signatureForm hform
  -- what was read is the signature that the bytes spell
  obtain ⟨c, rfl, hdata, hsignature⟩ := recognizes_signature.run_ok.mp hread
  obtain ⟨rfl, rfl⟩ := recognizes_signature.unique hspelled hsignature
  replace hdata : c.data = data := hdata
  have hrest : data.drop c.pos = c.rest := by rw [← hdata, ← c.rest_eq]
  refine ⟨?_, fun p hp => ?_⟩
  · obtain ⟨convention, counts, counted, count, hparts, hgenerics, hcount, hlength⟩ :=
      OuterSentinelForm.parts hform
    refine ⟨convention, counts, counted, count, ?_, hgenerics, hcount, ?_⟩
    · have hall := (List.take_append_drop c.pos data).trans hparts
      rw [hrest] at hall
      exact List.append_cancel_right hall
    · rwa [← hrest, List.head?_drop] at hlength
  · obtain ⟨_, _, hparam⟩ := OuterSentinelForm.param_of_mem hform hp
    have hsame : CarriesSome (TypeForm ⟨false, wideRows⟩ (levelLimit - 1))
        (TypeForm ⟨false, wideRows⟩ (levelLimit - 1)) :=
      carriesSome_type (fun h => h) rfl _
    have halone := @ParamForm.alone ⟨true, wideRows⟩ _ _ _ _ _ ⟨false, wideRows⟩ (fun h => h) hsame
      hparam []
    have hall := hparam.alone .all (fun _ => rfl) OuterSentinelForm.carriesSome_all []
    rw [List.append_nil] at halone hall
    exact ⟨halone.blob_parts, ofBytes_taking hall⟩

/-- A method that takes an integer and returns nothing, as a modified reference to its
address. -/
def modifiedCallback : ParamSig where
  modifiers := [⟨0x01000002⟩]
  isByRef := true
  base := .functionPointer (taking (plainParam .int32 [0x08]))
  blob := [0x1F, 0x09, 0x10, 0x1B, 0x00, 0x01, 0x01, 0x08]
  typeBlob := [0x1B, 0x00, 0x01, 0x01, 0x08]

/-- Two of three parameters, the third of which is behind the sentinel. -/
def outerSentinelSignature : MethodSig where
  hasThis := false
  explicitThis := false
  isVararg := true
  genericCount := 0
  returnType := plainParam .void [0x01]
  params := [modifiedCallback, plainParam (.vector .int32) [0x1D, 0x08]]

def outerSentinelBytes : List UInt8 :=
  [0x05, 0x03, 0x01] ++ modifiedCallback.blob ++ [0x1D, 0x08, 0x41, 0x08]

theorem outerSentinelForm_signature :
    OuterSentinelForm false outerSentinelBytes outerSentinelSignature [0x41, 0x08] := by
  have hplain : ∀ {tag : UInt8} {tail : List UInt8}, ElementTag.isModifier tag = false →
      Unmodified (tag :: tail) := by
    rintro tag tail h _ ⟨⟩
    exact h
  have hvalue : ∀ {tag : UInt8} {tail : List UInt8}, tag ≠ ElementTag.byRef →
      (tag :: tail).head? ≠ some ElementTag.byRef :=
    fun h heq => h (Option.some.inj heq)
  have hvoid : ∀ (L : Liberties) (levels : Nat) (rest : List UInt8),
      ParamForm L (TypeForm ⟨false, false⟩ (levels + 1)) (0x01 :: rest)
        (plainParam .void [0x01]) rest := fun L levels rest =>
    .byValue .nil (hplain rfl) (hvalue (by decide)) (.primitive rfl) rfl rfl
  have hnumber : ∀ (levels : Nat) (rest : List UInt8),
      ParamForm ⟨false, false⟩ (TypeForm ⟨false, false⟩ (levels + 1)) (0x08 :: rest)
        (plainParam .int32 [0x08]) rest := fun levels rest =>
    .byValue .nil (hplain rfl) (hvalue (by decide)) (.primitive rfl) rfl rfl
  have htoken : TokenForm ⟨true, false⟩ (0x09 :: 0x10 :: 0x1B :: 0x00 :: 0x01 :: 0x01 :: 0x08 ::
      0x1D :: 0x08 :: 0x41 :: 0x08 :: []) ⟨0x01000002⟩
      (0x10 :: 0x1B :: 0x00 :: 0x01 :: 0x01 :: 0x08 :: 0x1D :: 0x08 :: 0x41 :: 0x08 :: []) :=
    @TokenForm.packed _ _ _ 1 _ rfl (.one (by decide))
  have hcallback : ParamForm ⟨true, false⟩ (TypeForm ⟨false, false⟩ 49)
      (modifiedCallback.blob ++ [0x1D, 0x08, 0x41, 0x08]) modifiedCallback
      [0x1D, 0x08, 0x41, 0x08] :=
    .byRef (.cons rfl htoken .nil)
      (.functionPointer (.mk (.absent rfl) (@CompressedForm.one 1 _ (by decide)) (hvoid _ 47 _)
        (.cons (hnumber 47 _) .nil))) rfl rfl
  have hvector : ParamForm ⟨true, false⟩ (TypeForm ⟨false, false⟩ 49)
      [0x1D, 0x08, 0x41, 0x08] (plainParam (.vector .int32) [0x1D, 0x08]) [0x41, 0x08] :=
    .byValue .nil (hplain rfl) (hvalue (by decide))
      (.vector ⟨[], _, .nil, hplain rfl, .primitive rfl⟩) rfl rfl
  exact .mk (.absent rfl) (@CompressedForm.one 3 _ (by decide)) (hvoid _ 48 _)
    (.cons hcallback (.cons hvector (.sentinel rfl)))

/-- The return type and both parameters, the modified reference among them, are read again
alone. -/
theorem blobs_self_contained_outerSentinel :
    (∃ s, method.run (SignatureCursor.ofBytes outerSentinelBytes) =
      .ok outerSentinelSignature s) ∧
    ∀ p ∈ outerSentinelSignature.returnType :: outerSentinelSignature.params,
      ofBytes ([0x00, 0x01, 0x01] ++ p.blob) = .ok (taking p) := by
  obtain ⟨c, hdata, hrest⟩ :
      ∃ c : Cursor, c.data = outerSentinelBytes ∧ c.rest = [0x41, 0x08] :=
    (Cursor.ofBytes outerSentinelBytes).exists_behind ⟨outerSentinelBytes.take 13, rfl⟩
  have hread : method.run (SignatureCursor.ofBytes outerSentinelBytes) =
      .ok outerSentinelSignature ⟨c, 0⟩ := by
    refine recognizes_signature.run_ok.mpr ⟨c, rfl, hdata, ?_⟩
    rw [hrest]
    exact outerSentinelForm_signature.signatureForm
  obtain ⟨-, hparams⟩ := blobs_self_contained hread ⟨_, _, outerSentinelForm_signature⟩
  exact ⟨⟨_, hread⟩, fun p hp => (hparams p hp).2⟩

end MethodSig

end CilInstrument
