import CilInstrument.Proofs.BodyBytes
import CilInstrument.Proofs.LocalsGrowth
import CilInstrument.Proofs.StoredMethod

/- Taking a written body apart undoes a session. A session starts from the parts of a
   stored body (`start_ok`), calls keep what the builder owes to it (`Change.sound`), and
   the final step puts a header, the code and a section together (`finishFat_ok`). The
   laws of the bytes then say that what was handed to the host has exactly these parts
   (`rewritten_of_finishFat`), whatever was called in between. -/
namespace CilInstrument

open Step

/-! What the builder owes to the body. -/

/-- What holds of every builder for a body with the given clauses. -/
structure Builder.Sound (inherited : List ExceptionClause) (b : Builder) : Prop where
  inherited : b.exceptions.inherited = inherited
  added : ∀ c ∈ b.exceptions.added.toList, c.IsKnown
  maxDepth : b.maxDepth ≤ Builder.depthLimit
  offset : b.ownCodeOffset < 0x100000000

theorem Builder.Sound.start {exceptions : ExceptionTable} (h : exceptions.Known) :
    (Builder.start exceptions).Sound exceptions.inherited where
  inherited := rfl
  added := h.added
  maxDepth := Nat.zero_le _
  offset := show (0 : Nat) < 0x100000000 by decide

theorem Change.sound {b b' : Builder} {inherited : List ExceptionClause} (h : Change b b')
    (hb : b.Sound inherited) : b'.Sound inherited := by
  -- the offset of the own code changes once, to the size at that time
  have hoffset : b'.ownCodeOffset < 0x100000000 := by
    have hold := hb.offset
    unfold Builder.ownCodeOffset at hold ⊢
    rcases h.spliceOffset with hsame | ⟨-, hsome, hsize⟩
    · rw [hsame]
      exact hold
    · rw [hsome]
      exact hsize
  rcases h.exceptions with hsame | ⟨clause, hflags, hadd⟩
  · refine ⟨?_, ?_, h.maxDepth_le hb.maxDepth, hoffset⟩
    · rw [hsame]
      exact hb.inherited
    · rw [hsame]
      exact hb.added
  · refine ⟨?_, ?_, h.maxDepth_le hb.maxDepth, hoffset⟩
    · rw [hadd]
      exact hb.inherited
    · rw [hadd]
      intro c hc
      rcases List.mem_append.mp (Array.toList_push ▸ hc) with hc | hc
      · exact hb.added c hc
      · rw [List.mem_singleton.mp hc]
        unfold ExceptionClause.IsKnown
        rw [hflags]
        rfl

theorem Builder.Sound.of_changes {b b' : Builder} {inherited : List ExceptionClause}
    (h : Relation.ReflTransGen Change b b') (hb : b.Sound inherited) : b'.Sound inherited := by
  induction h with
  | refl => exact hb
  | tail _ hchange ih => exact hchange.sound ih

/-- The section that a builder gives is read back as the moved clauses of the body and the
added ones. -/
theorem Builder.Sound.ofBytes_of_sectionBytes {b : Builder} {inherited : List ExceptionClause}
    {sections : List UInt8} (hb : b.Sound inherited) (hinherited : ∀ c ∈ inherited, c.IsKnown)
    (h : b.sectionBytes = .ok sections) :
    ∃ moved, List.Forall₂ (ExceptionClause.MovedBy b.ownCodeOffset) inherited moved ∧
      (∀ c ∈ moved ++ b.exceptions.added.toList, c.IsKnown) ∧
      sections.length = ExceptionTable.sectionLength (moved ++ b.exceptions.added.toList) ∧
      ExceptionTable.ofBytes sections = .ok ⟨moved ++ b.exceptions.added.toList, #[]⟩ := by
  unfold Builder.sectionBytes at h
  split at h
  · cases h
  have hknown : b.exceptions.Known := ⟨hb.inherited ▸ hinherited, hb.added⟩
  have hencode := ExceptionTable.ofBytes_of_encode hknown h
  rw [hb.inherited, UInt32.toNat_ofNat_of_lt' hb.offset] at hencode
  exact hencode

/-! The start. -/

theorem LocalsSignature.isModified_of_ofBytes {blob : List UInt8} {l : LocalsSignature}
    (h : ofBytes blob = .ok l) : l.isModified = false := by
  obtain ⟨_, _, _, -, -, rfl⟩ := ofBytes_ok.mp h
  rfl

namespace Setting

variable {σ : Type}

theorem run_ask {α : Type} (question : Ask σ α) (s : Setting σ) :
    (Setting.ask question).run s =
      match question.run s.host with
      | .ok a host => .ok a { s with host }
      | .error e host => .error e { s with host } := rfl

theorem ask_ok {α : Type} {question : Ask σ α} {s t : Setting σ} {a : α}
    (h : (Setting.ask question).run s = .ok a t) : question.run s.host = .ok a t.host := by
  rw [Setting.run_ask] at h
  split at h
  · next heq =>
    cases h
    exact heq
  · cases h

theorem decompose_ok {method : String} {data : List UInt8} {s t : Setting σ}
    {body : MethodBody} (h : (Setting.decompose method data).run s = .ok body t) :
    MethodBody.decompose data = .ok body := by
  unfold Setting.decompose at h
  split at h
  · next heq =>
    cases h
    exact heq
  · obtain ⟨_, _, -, hthrow⟩ := run_bind_ok.mp h
    cases hthrow

end Setting

/-- A session starts from the parts of the stored body. -/
theorem Session.start_ok {σ : Type} [Host σ] {config : Config} {setting : Setting σ} {s : Session σ}
    (h : Session.start config setting = .ok s) :
    ∃ data host body, (Host.methodBytes : Ask σ (List UInt8)).run setting.host = .ok data host ∧
      MethodBody.decompose data = .ok body ∧ s.target.header = body.header ∧
      s.target.ownCode = body.code ∧ s.builder = Builder.start body.exceptions ∧
      s.locals.isModified = false := by
  unfold Session.start at h
  split at h
  · next target locals builder host shared hread =>
    cases h
    replace hread : (Setting.readMethod config).run setting =
      .ok (target, locals, builder) ⟨host, shared⟩ := hread
    unfold Setting.readMethod at hread
    obtain ⟨_, _, hget, hread⟩ := run_bind_ok.mp hread
    cases hget
    obtain ⟨_, _, hlog, hread⟩ := run_bind_ok.mp hread
    cases hlog
    obtain ⟨data, t, hask, hread⟩ := run_bind_ok.mp hread
    obtain ⟨body, _, hdecompose, hread⟩ := run_bind_ok.mp hread
    obtain ⟨_, _, -, hread⟩ := run_bind_ok.mp hread
    have hbytes := Setting.ask_ok hask
    refine ⟨data, t.host, body, hbytes, Setting.decompose_ok hdecompose, ?_⟩
    -- without a signature of its own the method starts from no locals
    simp only at hread
    split at hread
    · obtain ⟨_, _, hlocals, hread⟩ := run_bind_ok.mp hread
      cases hlocals
      obtain ⟨_, _, -, hread⟩ := run_bind_ok.mp hread
      obtain ⟨_, _, -, hread⟩ := run_bind_ok.mp hread
      obtain ⟨_, _, -, hread⟩ := run_bind_ok.mp hread
      cases hread
      exact ⟨rfl, rfl, rfl, rfl⟩
    · obtain ⟨blob, _, -, hread⟩ := run_bind_ok.mp hread
      obtain ⟨_, _, hlocals, hread⟩ := run_bind_ok.mp hread
      obtain ⟨_, _, -, hread⟩ := run_bind_ok.mp hread
      obtain ⟨_, _, -, hread⟩ := run_bind_ok.mp hread
      obtain ⟨_, _, -, hread⟩ := run_bind_ok.mp hread
      cases hread
      exact ⟨rfl, rfl, rfl, LocalsSignature.isModified_of_ofBytes (run_ofExcept_ok.mp hlocals).1⟩
  · cases h

/-! The final step. -/

namespace Session

variable {σ : Type} [Host σ]

/-- The header that a session writes in front of its code. -/
def fatHeader (s : Session σ) (code sections : List UInt8) (token : Token) : MethodHeader where
  flags := s.target.header.flags.setMoreSections !sections.isEmpty
  maxStack := UInt16.ofNat (max s.target.header.maxStack.toNat s.builder.maxDepth)
  codeSize := UInt32.ofNat code.length
  localsToken := token

/-- The token for the locals, and the host behind asking for it: the token there was if no
local was added, else the host's answer for the grown signature. -/
def NamesLocals (s : Session σ) (token : Token) (host : σ) : Prop :=
  s.locals.isModified = false ∧ token = s.target.header.localsToken ∧ host = s.host ∨
  s.locals.isModified = true ∧ (Host.internSignature s.locals.toBytes).run s.host = .ok token host

end Session

namespace Instrument

variable {σ : Type} [Host σ]

omit [Host σ] in
theorem ask_ok {α : Type} {question : Ask σ α} {s t : Session σ} {a : α}
    (h : (ask question).run s = .ok a t) : question.run s.host = .ok a t.host := by
  unfold ask at h
  rw [run_emit, Emit.run_ask] at h
  show question.run s.emission.host = _
  cases hrun : question.run s.emission.host with
  | ok a' host =>
    rw [hrun] at h
    cases h
    rfl
  | error e host =>
    rw [hrun] at h
    cases h

theorem localsToken_ok {s t : Session σ} {token : Token} (h : localsToken.run s = .ok token t) :
    s.NamesLocals token t.host := by
  obtain ⟨_, _, hget, h⟩ := run_bind_ok.mp h
  cases hget
  cases hmodified : s.locals.isModified with
  | false =>
    simp only [hmodified, Bool.not_false, if_true] at h
    cases h
    exact .inl ⟨hmodified, rfl, rfl⟩
  | true =>
    simp only [hmodified, Bool.not_true, Bool.false_eq_true, if_false] at h
    obtain ⟨after, u, hask, h⟩ := run_bind_ok.mp h
    obtain ⟨_, _, hlog, h⟩ := run_bind_ok.mp h
    cases hlog
    cases h
    have hrun : (Host.internSignature s.locals.toBytes).run s.host = .ok token u.host := ask_ok hask
    exact .inr ⟨hmodified, hrun⟩

theorem writeBack_ok {body : List UInt8} {s t : Session σ} (h : (writeBack body).run s = .ok () t) :
    (Host.writeMethod body).run s.host = .ok () t.host := by
  obtain ⟨_, _, hlog, h⟩ := run_bind_ok.mp h
  cases hlog
  cases hrun : (Host.writeMethod body).run s.host with
  | ok u host =>
    replace hrun : Host.writeMethod body s.emission.host = .ok u host := hrun
    simp only [EStateM.run, bind, EStateM.bind, hrun] at h
    cases h
    rfl
  | error e host =>
    replace hrun : Host.writeMethod body s.emission.host = .error e host := hrun
    simp only [EStateM.run, bind, EStateM.bind, hrun] at h
    cases h

theorem finishFat_ok {s t : Session σ} (h : finishFat.run s = .ok () t) :
    ∃ code sections token host, s.builder.bytes = .ok code ∧ s.builder.sectionBytes = .ok sections ∧
      code.length < 0x100000000 ∧ s.NamesLocals token host ∧
      (Host.writeMethod (MethodBody.fatBytes (s.fatHeader code sections token) code sections)).run
        host = .ok () t.host := by
  obtain ⟨_, _, hlog, h⟩ := run_bind_ok.mp h
  cases hlog
  obtain ⟨_, _, hget, h⟩ := run_bind_ok.mp h
  cases hget
  obtain ⟨code, _, hrun, h⟩ := run_bind_ok.mp h
  obtain ⟨hcode, rfl⟩ := run_ofExcept_ok.mp hrun
  obtain ⟨sections, _, hrun, h⟩ := run_bind_ok.mp h
  obtain ⟨hsections, rfl⟩ := run_ofExcept_ok.mp hrun
  obtain ⟨codeSize, _, hrun, h⟩ := run_bind_ok.mp h
  obtain ⟨hsize, rfl⟩ := run_ofExcept_ok.mp hrun
  obtain ⟨_, _, htarget, h⟩ := run_bind_ok.mp h
  cases htarget
  obtain ⟨token, u, htoken, h⟩ := run_bind_ok.mp h
  have hnames := localsToken_ok htoken
  have hwrite := writeBack_ok h
  unfold codeOffset at hsize
  split at hsize
  · next hlt =>
    cases hsize
    exact ⟨code, sections, token, u.host, hcode, hsections, hlt, hnames, hwrite⟩
  · cases hsize

end Instrument

/-! The body that is written. -/

section Written
variable {σ : Type}

/-- `result` is what `written` is taken apart into, and all of it is owed to the original
body, to the session that wrote it, and to the token for its locals. -/
structure Rewritten (original : MethodBody) (s : Session σ) (token : Token)
    (written : List UInt8) (result : MethodBody) : Prop where
  decomposed : MethodBody.decompose written = .ok result
  format : result.format = .fat
  code : s.builder.bytes = .ok result.code
  flags : result.header.flags.others = original.header.flags.others
  moreSections : result.header.flags.moreSections = !result.exceptions.inherited.isEmpty
  maxStack : result.header.maxStack.toNat = max original.header.maxStack.toNat s.builder.maxDepth
  codeSize : result.header.codeSize.toNat = result.code.length
  localsToken : result.header.localsToken = token
  clauses : ∃ moved,
    List.Forall₂ (ExceptionClause.MovedBy s.builder.ownCodeOffset) original.exceptions.inherited
      moved ∧
    result.exceptions = ⟨moved ++ s.builder.exceptions.added.toList, #[]⟩
  known : ∀ c ∈ result.exceptions.inherited, c.IsKnown
  sectionOffset : result.sectionOffset =
    if result.exceptions.inherited.isEmpty then none
    else some (align4 (MethodHeader.size + result.code.length))
  padding : result.exceptions.inherited ≠ [] → ∀ i, MethodHeader.size + result.code.length ≤ i →
    i < align4 (MethodHeader.size + result.code.length) → written[i]? = some 0
  length : written.length =
    if result.exceptions.inherited.isEmpty then MethodHeader.size + result.code.length
    else align4 (MethodHeader.size + result.code.length) +
      ExceptionTable.sectionLength result.exceptions.inherited

/-- Bytes put together from a session's parts have these parts. -/
theorem rewritten_of_parts {original : MethodBody} {s : Session σ} {code sections : List UInt8}
    (token : Token) (hheader : s.target.header = original.header)
    (hfat : original.header.flags.IsFat)
    (hknown : ∀ c ∈ original.exceptions.inherited, c.IsKnown)
    (hsound : s.builder.Sound original.exceptions.inherited) (hcode : s.builder.bytes = .ok code)
    (hsections : s.builder.sectionBytes = .ok sections) (hsize : code.length < 0x100000000) :
    ∃ result, Rewritten original s token
      (MethodBody.fatBytes (s.fatHeader code sections token) code sections) result := by
  obtain ⟨moved, hmoved, hall, hlength, htable⟩ := hsound.ofBytes_of_sectionBytes hknown hsections
  have hempty := ExceptionTable.isEmpty_of_sectionLength hlength
  have hmore : (s.fatHeader code sections token).flags.moreSections = !sections.isEmpty :=
    HeaderFlags.moreSections_setMoreSections _ _
  have hcodeSize : (s.fatHeader code sections token).codeSize.toNat = code.length :=
    UInt32.toNat_ofNat_of_lt' hsize
  -- both depths fit the field of the header
  have hdeep : max s.target.header.maxStack.toNat s.builder.maxDepth < 0x10000 :=
    Nat.max_lt.mpr ⟨UInt16.toNat_lt _, Nat.lt_succ_of_le hsound.maxDepth⟩
  have hfatHeader : (s.fatHeader code sections token).flags.IsFat := by
    refine HeaderFlags.IsFat.setMoreSections ?_ _
    rw [hheader]
    exact hfat
  have hdecompose := MethodBody.decompose_fatBytes hfatHeader hcodeSize hmore htable
  rw [hempty] at hdecompose
  refine ⟨_, {
    decomposed := hdecompose
    format := rfl
    code := hcode
    flags := ?_
    moreSections := by rw [hmore, hempty]
    maxStack := ?_
    codeSize := hcodeSize
    localsToken := rfl
    clauses := ⟨moved, hmoved, rfl⟩
    known := hall
    sectionOffset := rfl
    padding := ?_
    length := ?_ }⟩
  · show HeaderFlags.others (HeaderFlags.setMoreSections _ _) = _
    rw [HeaderFlags.others_setMoreSections, hheader]
  · show (UInt16.ofNat _).toNat = _
    rw [UInt16.toNat_ofNat_of_lt' hdeep, hheader]
  · intro hne i hlow hhigh
    refine MethodBody.getElem?_fatBytes hlow ?_
    rw [MethodBody.add_gap (by rw [hempty, List.isEmpty_iff]; exact hne)]
    exact hhigh
  · rw [MethodBody.length_fatBytes, hlength]
    show _ = if (moved ++ s.builder.exceptions.added.toList).isEmpty = true then _ else _
    split
    · next hnone =>
      rw [MethodBody.gap_of_isEmpty (hempty.trans hnone), List.isEmpty_iff.mp hnone]
      rfl
    · next hsome =>
      rw [MethodBody.add_gap (by rw [hempty]; exact hsome)]

/-- Whatever was called in between: if the final step goes through, the bytes that the host
accepted are taken apart into the code that was built, the original header with the new
sizes, and the original clauses, moved, in front of the added ones. -/
theorem rewritten_of_finishFat [Host σ] {config : Config} {setting : Setting σ}
    {s₀ s' : Session σ} {calls : List (Call σ)} (hstart : Session.start config setting = .ok s₀)
    (hfinish : Instrument.finishFat.run (Call.run calls s₀) = .ok () s') :
    ∃ data stored original token host written result,
      (Host.methodBytes : Ask σ (List UInt8)).run setting.host = .ok data stored ∧
      MethodBody.decompose data = .ok original ∧
      (Call.appended calls s₀ = [] ∧ token = original.header.localsToken ∧
          host = (Call.run calls s₀).host ∨
        Call.appended calls s₀ ≠ [] ∧
          (Host.internSignature (Call.run calls s₀).locals.toBytes).run (Call.run calls s₀).host =
            .ok token host) ∧
      (Host.writeMethod written).run host = .ok () s'.host ∧
      Rewritten original (Call.run calls s₀) token written result := by
  obtain ⟨data, stored, original, hbytes, horiginal, hheader, -, hbuilder, hunmodified⟩ :=
    Session.start_ok hstart
  obtain ⟨hfat, hknown, -⟩ := MethodBody.isFat_of_decompose horiginal
  have hfollows := Call.follows_run calls s₀
  -- what the start gives, every call keeps
  have hsound : (Call.run calls s₀).builder.Sound original.exceptions.inherited := by
    refine .of_changes hfollows.builder ?_
    show s₀.builder.Sound original.exceptions.inherited
    rw [hbuilder]
    exact .start hknown
  have hheader' : (Call.run calls s₀).target.header = original.header := by
    rw [hfollows.target, hheader]
  obtain ⟨code, sections, token, host, hcode, hsections, hsize, hnames, hwrite⟩ :=
    Instrument.finishFat_ok hfinish
  obtain ⟨result, hresult⟩ := rewritten_of_parts token hheader' hfat hknown.inherited
    hsound hcode hsections hsize
  refine ⟨data, stored, original, token, host, _, result, hbytes, horiginal, ?_, hwrite, hresult⟩
  have hmodified := hfollows.isModified
  rw [hunmodified, Bool.false_or] at hmodified
  rcases hnames with ⟨hsame, htoken, hhost⟩ | ⟨hgrown, htoken⟩
  · rw [hmodified, Bool.not_eq_false', List.isEmpty_iff] at hsame
    exact .inl ⟨hsame, by rw [htoken, hheader'], hhost⟩
  · rw [hmodified, Bool.not_eq_true', ← Bool.not_eq_true, List.isEmpty_iff] at hgrown
    exact .inr ⟨hgrown, htoken⟩

end Written

/-- A method with a local, whose code has a finally clause in a small section. -/
def StoredMethod.guarded : StoredMethod where
  name := "M"
  signature := [0x00, 0x00, 0x01]
  body := [0x1B, 0x30, 0x02, 0x00, 0x07, 0x00, 0x00, 0x00, 0x01, 0x00, 0x00, 0x11,
    0x14, 0x26, 0xDE, 0x01, 0xDC, 0x00, 0x2A, 0x00,
    0x01, 0x10, 0x00, 0x00, 0x02, 0x00, 0x00, 0x00, 0x04, 0x04, 0x00, 0x01, 0x00, 0x00, 0x00, 0x00]
  signatures := [[0x07, 0x01, 0x08]]

/-- A local and a region in front of the method's own code; two of the calls fail. -/
def guardedCalls : List (Call StoredMethod) :=
  [.addLocal [], .addLocal [0x1C],
   .tryCatch (Action.block (.plain .nop)) (Action.block (.plain .pop)) false,
   .placeOwnCode, .placeOwnCode]

def guardedSession? : Option (Session StoredMethod) :=
  (Session.start .default ⟨StoredMethod.guarded, .empty⟩).toOption

theorem rewritten_of_finishFat_guarded :
    ∃ s₀ s', Session.start .default ⟨StoredMethod.guarded, .empty⟩ = .ok s₀ ∧
      Instrument.finishFat.run (Call.run guardedCalls s₀) = .ok () s' ∧
      Call.appended guardedCalls s₀ = [1] ∧
      ∃ original token host written result,
        MethodBody.decompose StoredMethod.guarded.body = .ok original ∧
        (Host.internSignature (Call.run guardedCalls s₀).locals.toBytes).run
          (Call.run guardedCalls s₀).host = .ok token host ∧
        (Host.writeMethod written).run host = .ok () s'.host ∧
        Rewritten original (Call.run guardedCalls s₀) token written result := by
  have hruns : guardedSession?.map (fun s => Call.appended guardedCalls s == [1] &&
      Instrument.finishFat.succeeds (Call.run guardedCalls s)) = some true := by decide +kernel
  unfold guardedSession? at hruns
  cases hstart : Session.start .default ⟨StoredMethod.guarded, .empty⟩ with
  | error e =>
    rw [hstart] at hruns
    cases hruns
  | ok s₀ =>
    rw [hstart] at hruns
    obtain ⟨happended, hsucceeds⟩ := (Bool.and_eq_true _ _).mp (Option.some.inj hruns)
    replace happended : Call.appended guardedCalls s₀ = [1] := eq_of_beq happended
    obtain ⟨_, hfinish⟩ := exists_ok_of_succeeds hsucceeds
    obtain ⟨data, stored, original, token, host, written, result, hbytes, horiginal, hnames, hwrite,
      hrewritten⟩ := rewritten_of_finishFat hstart hfinish
    cases hbytes
    rcases hnames with ⟨hnone, -⟩ | ⟨-, htoken⟩
    · rw [happended] at hnone
      cases hnone
    · exact ⟨s₀, _, rfl, hfinish, happended, original, token, host, written, result, horiginal,
        htoken, hwrite, hrewritten⟩

end CilInstrument
