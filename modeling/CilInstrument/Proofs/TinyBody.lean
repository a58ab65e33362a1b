import CilInstrument.Proofs.FinalStep
import CilInstrument.Proofs.RecordedHost

/- The two final steps agree. A tiny header has room for a short code with a shallow stack,
   and for nothing else; whether a body is like that is decided from the session alone
   (`tinyBody_ok`). So from one and the same session either both final steps write the
   same code without clauses and locals, or only the fat one does and what it wrote does not
   fit a tiny header (`tiny_and_fat_agree`). -/
namespace CilInstrument

open Step

/-! What fits a tiny header. -/

/-- The body could be stored with a tiny header. -/
structure MethodBody.FitsTiny (body : MethodBody) : Prop where
  code : body.code.length ≤ MethodHeader.tinyMaxCode
  clauses : body.exceptions.inherited = []
  localsToken : body.header.localsToken = Token.null
  maxStack : body.header.maxStack.toNat ≤ MethodHeader.tinyMaxStack

theorem MethodBody.decompose_tiny {code : List UInt8} (h : code.length ≤ MethodHeader.tinyMaxCode) :
    decompose (UInt8.ofNat (code.length * 4 + 2) :: code) =
      .ok ⟨.tiny, MethodHeader.promoteTiny code.length, code, .empty, none⟩ := by
  have hfirst : (UInt8.ofNat (code.length * 4 + 2)).toNat = code.length * 4 + 2 := by
    unfold MethodHeader.tinyMaxCode at h
    exact UInt8.toNat_ofNat_of_lt' (by show _ < 256; omega)
  have hformat : HeaderFormat.ofFirstByte? (UInt8.ofNat (code.length * 4 + 2)) = some .tiny := by
    unfold HeaderFormat.ofFirstByte?
    rw [hfirst, show (code.length * 4 + 2) % 4 = 2 by omega]
    rfl
  have hsize : (code.length * 4 + 2) / 4 = code.length := by omega
  simp only [decompose, hformat, hfirst, hsize, ofTiny]
  rw [if_neg (by simp [Nat.add_comm])]
  simp

theorem Builder.sectionBytes_of_no_clauses {b : Builder} (h : b.hasClauses = false) :
    b.sectionBytes = .ok [] := by
  have hempty : b.exceptions.isEmpty = true := by simpa [Builder.hasClauses] using h
  have hinherited : b.exceptions.inherited.isEmpty = true := ((Bool.and_eq_true _ _).mp hempty).1
  unfold sectionBytes ExceptionTable.encode
  simp [hinherited, hempty]

theorem Token.isNull_iff {t : Token} : t.isNull = true ↔ t = Token.null := by
  cases t
  simp [isNull, null]

namespace Session

variable {σ : Type}

/-- Nothing is in the way of a tiny header. -/
theorem tinyObstacle?_none {s : Session σ} :
    Instrument.tinyObstacle? s = none ↔ s.locals.isModified = false ∧
      s.target.header.localsToken = Token.null ∧ s.builder.hasClauses = false ∧
      s.builder.maxDepth ≤ MethodHeader.tinyMaxStack ∧
      (s.builder.hasOwnCode = true → s.target.header.maxStack.toNat ≤ MethodHeader.tinyMaxStack) := by
  have hnone : ∀ {c : Prop} [Decidable c] {obstacle : TinyObstacle} {rest : Option TinyObstacle},
      (if c then some obstacle else rest) = none ↔ ¬c ∧ rest = none := by
    intro c _ obstacle rest
    split <;> simp [*]
  simp only [Instrument.tinyObstacle?, hnone, ← Token.isNull_iff]
  simp [and_assoc]

end Session

/-! Both final steps of one session. -/

/-- The host takes every body. -/
def Host.TakesBodies (σ : Type) [Host σ] : Prop :=
  ∀ bytes (host : σ), ∃ host', (Host.writeMethod bytes).run host = .ok () host'

/-- What the two bodies have in common that one session writes with either header, and what
the tiny header stands for. -/
structure WrittenAlike (original : MethodBody) (b : Builder) (tiny fat : MethodBody) : Prop where
  code : tiny.code = fat.code
  tinyClauses : tiny.exceptions = .empty
  fatClauses : fat.exceptions = .empty
  tinyToken : tiny.header.localsToken = Token.null
  fatToken : fat.header.localsToken = Token.null
  format : tiny.format = .tiny
  maxStack : tiny.header.maxStack.toNat = MethodHeader.tinyMaxStack
  maxDepth_le : b.maxDepth ≤ tiny.header.maxStack.toNat
  ownCode_le : b.hasOwnCode = true →
    original.header.maxStack.toNat ≤ tiny.header.maxStack.toNat

namespace Instrument

variable {σ : Type} [Host σ]

theorem finishTiny_writes {s : Session σ} {body : List UInt8} (h : s.tinyBody = .ok body) :
    Writes finishTiny s body := by
  have hrun := run_finishTiny s
  rw [h] at hrun
  exact .of_run hrun rfl (writeBack_writes body _)

theorem tinyBody_of_ok {s t : Session σ} (h : finishTiny.run s = .ok () t) :
    ∃ body, s.tinyBody = .ok body := by
  rw [run_finishTiny] at h
  cases hbody : s.tinyBody with
  | ok body => exact ⟨body, rfl⟩
  | error e =>
    rw [hbody] at h
    cases h

/-- What is written to a recorded host is noted. -/
theorem Writes.noted {x : Instrument (Recording σ) Unit} {s : Session (Recording σ)}
    {written : List UInt8} (h : Writes x s written) (htakes : Host.TakesBodies σ) :
    ∃ t, x.run s = .ok () t ∧ t.requests = s.requests ++ [.body written none] := by
  obtain ⟨host, hhost⟩ := htakes written s.host.host
  have hwrite : (Host.writeMethod written : Ask (Recording σ) Unit).run s.host = _ :=
    Recording.run_note (.body written) (Host.writeMethod written) s.host
  rw [hhost] at hwrite
  obtain ⟨t, hrun, ht⟩ := h.accepted hwrite
  refine ⟨t, hrun, ?_⟩
  show t.host.requests = _
  rw [ht]
  rfl

end Instrument

/-- What was written has clauses exactly if the builder had. -/
theorem Rewritten.no_clauses_iff {σ : Type} {original result : MethodBody} {s : Session σ}
    {token : Token} {written : List UInt8} (h : Rewritten original s token written result)
    (hsound : s.builder.Sound original.exceptions.inherited) :
    result.exceptions.inherited = [] ↔ s.builder.hasClauses = false := by
  obtain ⟨moved, hmoved, htable⟩ := h.clauses
  have hlength : moved.length = s.builder.exceptions.inherited.length := by
    rw [hsound.inherited, hmoved.length_eq]
  have hmoved_nil : moved = [] ↔ s.builder.exceptions.inherited = [] := by
    rw [List.eq_nil_iff_length_eq_zero, hlength, ← List.eq_nil_iff_length_eq_zero]
  rw [htable]
  simp [hmoved_nil, Builder.hasClauses, ExceptionTable.isEmpty]

section
variable {σ : Type} [Host σ]

/-- A session that is written with a tiny header could be written with a fat one. -/
theorem Session.Continues.fat_of_tiny {original : MethodBody} {s : Session (Recording σ)}
    (h : s.Continues original) (htakes : Host.TakesBodies σ) {tiny : List UInt8}
    (htiny : s.tinyBody = .ok tiny) :
    ∃ t fat tinyBody fatBody, Instrument.finishFat.run s = .ok () t ∧
      t.requests = s.requests ++ [.body fat none] ∧
      MethodBody.decompose tiny = .ok tinyBody ∧ MethodBody.decompose fat = .ok fatBody ∧
      WrittenAlike original s.builder tinyBody fatBody := by
  obtain ⟨hnone, code, hcode, hsize, rfl⟩ := tinyBody_ok.mp htiny
  obtain ⟨hlocals, htoken, hclauses, hdepth, hown⟩ := tinyObstacle?_none.mp hnone
  have hsections := Builder.sectionBytes_of_no_clauses hclauses
  have hlt : code.length < 0x100000000 := by
    unfold MethodHeader.tinyMaxCode at hsize
    omega
  obtain ⟨t, hrun, hrequests⟩ :=
    (Instrument.finishFat_writes hcode hsections hlt hlocals).noted htakes
  obtain ⟨result, hresult⟩ := rewritten_of_parts s.target.header.localsToken h.header h.isFat
    h.known.inherited h.sound hcode hsections hlt
  refine ⟨t, _, _, result, hrun, hrequests, MethodBody.decompose_tiny hsize, hresult.decomposed, ?_⟩
  obtain ⟨moved, -, htable⟩ := hresult.clauses
  have hnoclauses := (hresult.no_clauses_iff h.sound).mpr hclauses
  have hresultCode := hresult.code
  rw [hcode] at hresultCode
  exact {
    code := Except.ok.inj hresultCode
    tinyClauses := rfl
    fatClauses := by
      rw [htable] at hnoclauses ⊢
      exact congrArg (ExceptionTable.mk · #[]) hnoclauses
    tinyToken := rfl
    fatToken := hresult.localsToken.trans htoken
    format := rfl
    maxStack := rfl
    maxDepth_le := hdepth
    ownCode_le := by
      rw [← h.header]
      exact hown }

/-- A session without a new local whose body, written with a fat header, fits a tiny one could
be written with that. -/
theorem Session.Continues.tiny_of_fat {original : MethodBody} {s t : Session (Recording σ)}
    (h : s.Continues original) (hlocals : s.locals.isModified = false)
    (htakes : Host.TakesBodies σ) (hrun : Instrument.finishFat.run s = .ok () t) :
    ∃ fat fatBody, t.requests = s.requests ++ [.body fat none] ∧
      MethodBody.decompose fat = .ok fatBody ∧
      (fatBody.FitsTiny → ∃ t', Instrument.finishTiny.run s = .ok () t') := by
  obtain ⟨code, sections, token, host, hcode, hsections, hlt, hnames, -⟩ :=
    Instrument.finishFat_ok hrun
  obtain ⟨t', hrun', hrequests⟩ :=
    (Instrument.finishFat_writes hcode hsections hlt hlocals).noted htakes
  obtain ⟨result, hresult⟩ := rewritten_of_parts s.target.header.localsToken h.header h.isFat
    h.known.inherited h.sound hcode hsections hlt
  rw [hrun] at hrun'
  cases hrun'
  refine ⟨_, result, hrequests, hresult.decomposed, fun hfits => ?_⟩
  have hresultCode := hresult.code
  rw [hcode] at hresultCode
  obtain rfl := Except.ok.inj hresultCode
  -- the largest depth of the fat header bounds both depths that a tiny one is asked for
  have hdepth := hfits.maxStack
  rw [hresult.maxStack] at hdepth
  have hobstacle : Instrument.tinyObstacle? s = none := by
    refine tinyObstacle?_none.mpr ⟨hlocals, ?_, ?_, ?_, fun _ => ?_⟩
    · exact hresult.localsToken.symm.trans hfits.localsToken
    · exact (hresult.no_clauses_iff h.sound).mp hfits.clauses
    · exact Nat.le_trans (Nat.le_max_right _ _) hdepth
    · rw [h.header]
      exact Nat.le_trans (Nat.le_max_left _ _) hdepth
  have htiny : s.tinyBody = .ok (UInt8.ofNat (result.code.length * 4 + 2) :: result.code) :=
    tinyBody_ok.mpr ⟨hobstacle, result.code, hcode, hfits.code, rfl⟩
  obtain ⟨u, hu, -⟩ := (Instrument.finishTiny_writes htiny).noted htakes
  exact ⟨u, hu⟩

/-- From every session, whatever was called since it started: if it can be written with a tiny
header, it can be written with a fat one, and both bodies are taken apart into the same code
without clauses and locals; if no local was added and what is written with a fat header fits a
tiny one, it can be written with that. -/
theorem Instrument.tiny_and_fat_agree {config : Config} {setting : Setting σ}
    {s₀ : Session (Recording σ)} (htakes : Host.TakesBodies σ)
    (hstart : Session.start config setting.recorded = .ok s₀) (calls : List (Call σ)) :
    let s := Call.run (calls.map Call.recorded) s₀
    ∃ data stored original, (Host.methodBytes : Ask σ (List UInt8)).run setting.host = .ok data stored ∧
      MethodBody.decompose data = .ok original ∧
      (∀ t, finishTiny.run s = .ok () t → ∃ t' tiny fat tinyBody fatBody,
        finishFat.run s = .ok () t' ∧ t.requests = [.body tiny none] ∧
        t'.requests = [.body fat none] ∧ MethodBody.decompose tiny = .ok tinyBody ∧
        MethodBody.decompose fat = .ok fatBody ∧
        WrittenAlike original s.builder tinyBody fatBody) ∧
      (Call.appended (calls.map Call.recorded) s₀ = [] → ∀ t', finishFat.run s = .ok () t' →
        ∃ fat fatBody, t'.requests = [.body fat none] ∧ MethodBody.decompose fat = .ok fatBody ∧
          (fatBody.FitsTiny → ∃ t, finishTiny.run s = .ok () t)) := by
  intro s
  obtain ⟨data, stored, original, hbytes, horiginal, -, hcontinues, hgrown⟩ :=
    Session.exists_continues hstart (calls.map Call.recorded)
  have hnone : s.requests = [] := by
    rw [Call.requests_run]
    exact Session.requests_start hstart
  refine ⟨data, stored.host, original, Recording.pass_ok hbytes, horiginal, ?_, ?_⟩
  · intro t hrun
    obtain ⟨tiny, htiny⟩ := tinyBody_of_ok hrun
    obtain ⟨t', fat, tinyBody, fatBody, hrun', hfat, hdecomposed⟩ :=
      hcontinues.fat_of_tiny htakes htiny
    obtain ⟨u, hu, hnoted⟩ := (finishTiny_writes htiny).noted htakes
    rw [hrun] at hu
    cases hu
    rw [hnone, List.nil_append] at hfat hnoted
    exact ⟨t', tiny, fat, tinyBody, fatBody, hrun', hnoted, hfat, hdecomposed⟩
  · intro happended t' hrun
    have hlocals : s.locals.isModified = false := by
      rw [← Bool.not_eq_true, hgrown, happended]
      exact not_not_intro rfl
    obtain ⟨fat, fatBody, hfat, hdecomposed⟩ := hcontinues.tiny_of_fat hlocals htakes hrun
    rw [hnone, List.nil_append] at hfat
    exact ⟨fat, fatBody, hfat, hdecomposed⟩

end

/-- An instruction in front of the method's own code. -/
def leadingCalls : List (Call StoredMethod) :=
  [.emit (Action.block (.plain .nop)), .placeOwnCode]

/-- A method that only returns has room for one more instruction, with either header. -/
theorem Instrument.tiny_and_fat_agree_empty :
    ∃ s₀, Session.start .default (Setting.recorded ⟨StoredMethod.empty, .empty⟩) = .ok s₀ ∧
      let s := Call.run (leadingCalls.map Call.recorded) s₀
      ∃ t t' fat original tinyBody fatBody, finishTiny.run s = .ok () t ∧
        finishFat.run s = .ok () t' ∧ t.requests = [.body [0x0A, 0x00, 0x2A] none] ∧
        t'.requests = [.body fat none] ∧ MethodBody.decompose fat = .ok fatBody ∧
        WrittenAlike original s.builder tinyBody fatBody ∧ fatBody.FitsTiny ∧
        ∃ u, finishTiny.run s = .ok () u := by
  have hruns : (Session.start .default (Setting.recorded ⟨StoredMethod.empty, .empty⟩)).toOption.map
      (fun s₀ =>
        let s := Call.run (leadingCalls.map Call.recorded) s₀
        finishTiny.succeeds s && ((finishTiny.after s).requests == [.body [0x0A, 0x00, 0x2A] none] &&
          (Call.appended (leadingCalls.map Call.recorded) s₀ == [] &&
            (finishFat.after s).requests == [.body [0x13, 0x30, 0x08, 0x00, 0x02, 0x00, 0x00, 0x00,
              0x00, 0x00, 0x00, 0x00, 0x00, 0x2A] none]))) = some true := by
    decide +kernel
  obtain ⟨s₀, hstart, hchecks⟩ := exists_ok_of_map hruns
  obtain ⟨hsucceeds, hchecks⟩ := (Bool.and_eq_true _ _).mp hchecks
  obtain ⟨htinyRequests, hchecks⟩ := (Bool.and_eq_true _ _).mp hchecks
  obtain ⟨happended, hfatRequests⟩ := (Bool.and_eq_true _ _).mp hchecks
  obtain ⟨_, hrun⟩ := exists_ok_of_succeeds hsucceeds
  obtain ⟨data, stored, original, -, -, hforward, hconverse⟩ :=
    tiny_and_fat_agree (fun bytes host => ⟨_, rfl⟩) hstart leadingCalls
  obtain ⟨t', tiny, fat, tinyBody, fatBody, hfat, -, hrequests, -, hdecompose, halike⟩ :=
    hforward _ hrun
  obtain ⟨fat', fatBody', hrequests', hdecompose', hback⟩ :=
    hconverse (eq_of_beq happended) t' hfat
  -- both directions are about the same fourteen bytes
  have hwritten := eq_of_beq hfatRequests
  rw [after_of_ok hfat] at hwritten
  rw [hwritten] at hrequests hrequests'
  cases hrequests
  cases hrequests'
  cases hdecompose
  cases hdecompose'
  have hfits : MethodBody.FitsTiny ⟨.fat, ⟨⟨0x13⟩, 8, 2, Token.null⟩, [0x00, 0x2A], .empty, none⟩ :=
    ⟨by decide, rfl, rfl, by decide⟩
  exact ⟨s₀, hstart, _, t', _, original, tinyBody, _, hrun, hfat, eq_of_beq htinyRequests, hwritten,
    rfl, halike, hfits, hback hfits⟩

end CilInstrument
