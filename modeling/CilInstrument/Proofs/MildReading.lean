import CilInstrument.Body.MethodBody
import CilInstrument.Proofs.MildSteps
import CilInstrument.Proofs.Recognition
import CilInstrument.Signature.Locals

/- Reading fails mildly: signatures of methods and of locals always, and taking a body apart
   but for one fatal error, which is about its first byte (`MethodBody.decompose_fatal`). -/
namespace CilInstrument

open Step

/-! Bytes, integers and tokens. -/

namespace Reader

theorem bytes_mild (n : Nat) : Mild (bytes n) := by
  intro c e t h
  replace h : bytes n c = .error e t := h
  unfold bytes at h
  split at h
  · cases h
  · cases h
    rfl

theorem byte_mild : Mild byte := by
  intro c e t h
  replace h : byte c = .error e t := h
  unfold byte at h
  split at h
  · cases h
    rfl
  · cases h

theorem peek_mild : Mild peek := by
  intro c e t h
  replace h : peek c = .error e t := h
  unfold peek at h
  split at h
  · cases h
    rfl
  · cases h

theorem hasMore_mild : Mild hasMore := by
  intro c e t h
  cases h

theorem advance_mild (n : Nat) : Mild (advance n) := (bytes_mild n).discard

theorem unsigned_mild (width : Nat) : Mild (unsigned width) :=
  (bytes_mild width).bind fun _ => .pure _

theorem uint16_mild : Mild uint16 := (unsigned_mild 2).bind fun _ => .pure _

theorem uint32_mild : Mild uint32 := (unsigned_mild 4).bind fun _ => .pure _

theorem compressed_mild : Mild compressed := by
  refine byte_mild.bind fun first => .ite (.pure _) (.ite ?_ (.ite ?_ (.throw rfl)))
  · exact byte_mild.bind fun b1 => .pure _
  · exact byte_mild.bind fun b1 => byte_mild.bind fun b2 => byte_mild.bind fun b3 => .pure _

theorem compressedToken_mild : Mild compressedToken := by
  refine compressed_mild.bind fun n => ?_
  cases Compressed.tokenTable? n with
  | some table => exact .pure _
  | none => exact .throw rfl

end Reader

/-! Signatures. -/

namespace SignatureReader

variable {α : Type}

theorem ofReader_mild {read : Reader α} (h : Mild read) : Mild (ofReader read) := by
  intro s e t hrun
  cases hread : read.run s.cursor with
  | ok a c =>
    rw [show s = ⟨s.cursor, s.level⟩ from rfl, run_ofReader_of_ok hread] at hrun
    cases hrun
  | error e' c =>
    rw [show s = ⟨s.cursor, s.level⟩ from rfl, run_ofReader_of_error hread] at hrun
    cases hrun
    exact h _ _ _ hread

theorem position_mild : Mild position := by
  intro s e t h
  cases h

theorem nested_mild {read : SignatureReader α} (h : Mild read) : Mild (nested read) := by
  intro s e t hrun
  replace hrun : nested read s = .error e t := hrun
  unfold nested at hrun
  simp only at hrun
  split at hrun
  · cases hrun
    rfl
  · split at hrun
    · cases hrun
    · next hread =>
      cases hrun
      exact h _ _ _ hread

theorem modifiers_mild : Mild modifiers := by
  have hgo : ∀ turns found, Mild (modifiers.go turns found) := by
    intro turns
    induction turns with
    | nil => exact fun found => .pure _
    | cons _ turns ih =>
      intro found
      refine (ofReader_mild Reader.hasMore_mild).bind fun more => .ite (.pure _) ?_
      refine (ofReader_mild Reader.peek_mild).bind fun tag => .ite ?_ (.pure _)
      refine (ofReader_mild (Reader.advance_mild 1)).bind fun _ => ?_
      exact (ofReader_mild Reader.compressedToken_mild).bind fun token => ih _
  intro s e t h
  exact hgo _ _ s e t h

variable {readType : SignatureReader TypeSig}

theorem param_mild (h : Mild readType) : Mild (param readType) := by
  refine position_mild.bind fun start => modifiers_mild.bind fun mods => ?_
  refine (ofReader_mild Reader.peek_mild).bind fun tag => ?_
  have hrest : ∀ result : Cursor → TypeSig → Cursor → ParamSig, Mild (do
      let typeStart ← position
      let base ← readType
      let stop ← position
      return result typeStart base stop : SignatureReader ParamSig) :=
    fun _ => position_mild.bind fun _ => h.bind fun _ => position_mild.bind fun _ => .pure _
  exact .ite ((ofReader_mild (Reader.advance_mild 1)).bind fun _ => hrest _) (hrest _)

theorem params_mild (h : Mild readType) (count : Nat) : Mild (params readType count) := by
  have hgo : ∀ found, Mild (params.go readType count found) := by
    induction count with
    | zero => exact fun found => .pure _
    | succ count ih =>
      intro found
      refine (ofReader_mild Reader.peek_mild).bind fun tag => .ite (.pure _) ?_
      exact (param_mild h).bind fun p => ih _
  exact hgo #[]

theorem methodOf_mild (h : Mild readType) : Mild (methodOf readType) := by
  refine (ofReader_mild Reader.byte_mild).bind fun convention => ?_
  have hrest : ∀ genericCount : Nat, Mild (do
      let count ← ofReader Reader.compressed
      let returnType ← param readType
      let params ← params readType count
      return {
        hasThis := convention &&& 0x20 != 0
        explicitThis := convention &&& 0x40 != 0
        isVararg := convention &&& 0x0F == 0x05
        genericCount, returnType, params } : SignatureReader MethodSig) :=
    fun _ => (ofReader_mild Reader.compressed_mild).bind fun count =>
      (param_mild h).bind fun _ => (params_mild h count).bind fun _ => .pure _
  exact .ite ((ofReader_mild Reader.compressed_mild).bind fun count => hrest count)
    (.bind (.pure 0) fun count => hrest count)

theorem typeBody_mild (h : Mild readType) (tag : UInt8) : Mild (typeBody readType tag) := by
  have hcompressed := ofReader_mild Reader.compressed_mild
  have htoken := ofReader_mild Reader.compressedToken_mild
  unfold typeBody
  split
  all_goals first
    | exact .pure _
    | exact .throw rfl
    | exact h.bind fun _ => .pure _
    | exact htoken.bind fun _ => .pure _
    | exact hcompressed.bind fun _ => .pure _
    | exact modifiers_mild.discard.bind fun _ => h.bind fun _ => .pure _
    | exact (methodOf_mild h).bind fun _ => .pure _
    | exact htoken.discard.bind fun _ => modifiers_mild.discard.bind fun _ => h
    | skip
  · refine h.bind fun element => hcompressed.bind fun rank => hcompressed.bind fun sizes => ?_
    refine (hcompressed.collect sizes).discard.bind fun _ => hcompressed.bind fun bounds => ?_
    exact (hcompressed.collect bounds).discard.bind fun _ => .pure _
  · refine (ofReader_mild Reader.peek_mild).bind fun next => .check rfl ?_
    exact h.bind fun base => hcompressed.bind fun count => (h.collect count).bind fun _ => .pure _

theorem type_mild (room : Nat) : Mild (type room) := by
  induction room with
  | zero => exact nested_mild (.throw rfl)
  | succ room ih =>
    exact nested_mild ((ofReader_mild Reader.byte_mild).bind fun tag => typeBody_mild ih tag)

end SignatureReader

theorem MethodSig.ofBytes_mildly (data : List UInt8) : FailsMildly (MethodSig.ofBytes data) :=
  (SignatureReader.methodOf_mild (SignatureReader.type_mild _)).outcome _

theorem LocalsSignature.ofBytes_mildly (blob : List UInt8) :
    FailsMildly (LocalsSignature.ofBytes blob) := by
  refine Mild.outcome (.bind Reader.byte_mild fun first => .check rfl ?_) _
  exact .bind .get fun _ => Reader.compressed_mild.bind fun _ => .bind .get fun _ => .pure _

/-! Taking a body apart. -/

theorem ExceptionClause.read_mild (layout : SectionLayout) : Mild (read layout) := by
  have h16 := Reader.uint16_mild
  have h32 := Reader.uint32_mild
  cases layout with
  | fat =>
    exact h32.bind fun _ => h32.bind fun _ => h32.bind fun _ => h32.bind fun _ =>
      h32.bind fun _ => h32.bind fun _ => .pure _
  | small =>
    exact h16.bind fun _ => h16.bind fun _ => Reader.byte_mild.bind fun _ => h16.bind fun _ =>
      Reader.byte_mild.bind fun _ => h32.bind fun _ => .pure _

theorem ExceptionTable.readChain_mildly (data : List UInt8) (found : Array ExceptionClause) :
    FailsMildly (readChain data found) := by
  fun_induction readChain data found with
  | case1 | case6 => exact .ok _
  | case2 _ _ _ _ _ _ _ _ hsize =>
    rw [if_pos hsize]
    exact .error rfl
  | case3 _ _ _ _ _ _ _ _ e hread hsize =>
    rw [if_neg hsize, hread]
    exact .error (((ExceptionClause.read_mild _).collect _).outcome _ e hread)
  | case4 _ _ _ _ _ _ _ _ clauses hread _ hmore hsize ih =>
    rw [if_neg hsize, hread]
    simp only [hmore, if_true]
    exact ih
  | case5 _ _ _ _ _ _ _ _ clauses hread hmore hsize =>
    rw [if_neg hsize, hread]
    simp only [hmore]
    exact .ok _

theorem ExceptionTable.ofBytes_mildly (data : List UInt8) : FailsMildly (ofBytes data) :=
  .bind (readChain_mildly data #[]) fun _ => .ok _

theorem MethodHeader.ofBytes_mildly (data : List UInt8) : FailsMildly (ofBytes data) := by
  unfold ofBytes
  split
  · exact .ite (.error rfl) (.ok _)
  · exact .error rfl

namespace MethodBody

theorem ofTiny_mildly (data : List UInt8) (codeSize : Nat) : FailsMildly (ofTiny data codeSize) :=
  .ite (.error rfl) (.ok _)

theorem ofFat_mildly (data : List UInt8) : FailsMildly (ofFat data) := by
  refine (MethodHeader.ofBytes_mildly data).bind fun header => .ite (.error rfl) (.ite (.ok _) ?_)
  exact .ite (.error rfl) ((ExceptionTable.ofBytes_mildly _).bind fun _ => .ok _)

/-- Taking a body apart is fatal only for a first byte of no known format. -/
theorem decompose_fatal {data : List UInt8} {e : Error} (h : decompose data = .error e)
    (hfatal : e.isFatal = true) :
    ∃ first rest, data = first :: rest ∧ HeaderFormat.ofFirstByte? first = none ∧
      e = .fatal (.unknownHeaderFormat first) := by
  cases data with
  | nil =>
    cases h
    cases hfatal
  | cons first rest =>
    simp only [decompose] at h
    split at h
    · exact absurd hfatal (by rw [ofTiny_mildly _ _ e h]; decide)
    · exact absurd hfatal (by rw [ofFat_mildly _ e h]; decide)
    · next hformat =>
      cases h
      exact ⟨first, rest, rfl, hformat, rfl⟩

end MethodBody

end CilInstrument
