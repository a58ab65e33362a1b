import CilInstrument.Proofs.SignatureTrace

/- The work of reading a signature, paid for in bytes. A signature may announce half a billion
   parameters, arguments, sizes or bounds on every level; but nothing is begun that has not been
   paid for by a byte that was consumed before it, or is consumed at once. `Pays` is the
   account: what a run notes, and what it has left, it takes from what it had at the start and
   from the bytes that it consumes. A parameter and the type in it share a byte, so an account
   charges only one of the two; everything else has a byte of its own. Both accounts together
   pay for all that is begun, with two for every byte (`method_work`), and with one it can not
   be paid for (`method_work_shared`). -/
namespace CilInstrument

namespace Visit

def isParam : Visit → Bool
  | param => true
  | _ => false

def isModifier : Visit → Bool
  | modifier => true
  | _ => false

def isBound : Visit → Bool
  | bound => true
  | _ => false

end Visit

namespace SignatureTrace

open Traced Step SignatureReader

variable {α β : Type}

/-- From every state, `credit` and the bytes consumed are enough for what is noted and charged,
and for `left` if the run goes through. -/
structure Pays (charged : Visit → Bool) (credit left : Nat) (x : TracedReader α) : Prop where
  ok : ∀ {s t a}, x.step.run s = .ok a t → s.cursor.Onward t.cursor ∧
    (x.log s).countP charged + s.cursor.pos + left ≤ t.cursor.pos + credit
  error : ∀ {s t e}, x.step.run s = .error e t → s.cursor.Onward t.cursor ∧
    (x.log s).countP charged + s.cursor.pos ≤ t.cursor.pos + credit

theorem countP_cons (charged : Visit → Bool) (event : Visit) (log : List Visit) :
    (event :: log).countP charged = log.countP charged + (charged event).toNat := by
  rw [List.countP_cons]
  cases charged event <;> rfl

namespace Pays

variable {charged : Visit → Bool} {credit credit' left left' : Nat} {x : TracedReader α}

/-- More credit is welcome, and of what is left not all has to be used. -/
theorem mono (h : Pays charged credit left x) (hcredit : credit ≤ credit')
    (hleft : left' + credit ≤ left + credit') : Pays charged credit' left' x where
  ok := by
    intro s t a hrun
    obtain ⟨honward, hpaid⟩ := h.ok hrun
    exact ⟨honward, by omega⟩
  error := by
    intro s t e hrun
    obtain ⟨honward, hpaid⟩ := h.error hrun
    exact ⟨honward, by omega⟩

/-- What is not noted costs nothing, and the bytes that it consumes are gained. -/
theorem quiet {x : SignatureReader α} {gain : Nat}
    (hok : ∀ {s t a}, x.run s = .ok a t →
      s.cursor.Onward t.cursor ∧ s.cursor.pos + gain ≤ t.cursor.pos)
    (herror : ∀ {s t e}, x.run s = .error e t → s.cursor.Onward t.cursor) :
    Pays charged credit (credit + gain) (quiet x) where
  ok := by
    intro s t a h
    obtain ⟨honward, hle⟩ := hok h
    exact ⟨honward, show 0 + s.cursor.pos + (credit + gain) ≤ t.cursor.pos + credit by omega⟩
  error := by
    intro s t e h
    have hle := (herror h).pos_le
    exact ⟨herror h, show 0 + s.cursor.pos ≤ t.cursor.pos + credit by omega⟩

theorem pure (a : α) : Pays charged credit credit (pure a) := by
  refine @quiet _ charged credit (Pure.pure a) 0 ?_ ?_
  · intro s t b h
    cases h
    exact ⟨.refl _, Nat.le_refl _⟩
  · intro s t e h
    cases h

theorem throw (e : Error) :
    Pays charged credit left (Traced.quiet (throw e) : TracedReader α) := by
  refine (@quiet _ charged credit (MonadExcept.throw e) left ?_ ?_).mono (Nat.le_refl _) (by omega)
  · intro s t a h
    cases h
  · intro s t e' h
    cases h
    exact .refl _

theorem position : Pays charged credit credit (Traced.quiet position) := by
  refine @quiet _ charged credit SignatureReader.position 0 ?_ ?_
  · intro s t c h
    cases h
    exact ⟨.refl _, Nat.le_refl _⟩
  · intro s t e h
    cases h

theorem plain {r : Reader α} {gain : Nat} (h : r.Moves gain) :
    Pays charged credit (credit + gain) (plain r) := by
  refine quiet ?_ ?_
  · intro s t a hrun
    exact h.ok (run_plain_ok hrun).1
  · intro s t e hrun
    exact (h.error (run_plain_error hrun).1).1

theorem note (event : Visit) :
    Pays charged (credit + (charged event).toNat) credit (note event) where
  ok := by
    intro s t a h
    cases h
    refine ⟨.refl _, ?_⟩
    show [event].countP charged + _ + _ ≤ _
    rw [countP_cons, List.countP_nil]
    omega
  error := fun h => by cases h

theorem bind {f : α → TracedReader β} {between : Nat} (hx : Pays charged credit between x)
    (hf : ∀ a, Pays charged between left (f a)) : Pays charged credit left (x >>= f) where
  ok := by
    intro s t b h
    obtain ⟨a, u, hrun, hrest⟩ := run_bind_ok.mp h
    obtain ⟨honward, hpaid⟩ := hx.ok hrun
    obtain ⟨honward', hpaid'⟩ := (hf a).ok hrest
    rw [log_bind_of_ok hrun, List.countP_append]
    exact ⟨honward.trans honward', by omega⟩
  error := by
    intro s t e h
    rcases run_bind_error.mp h with h | ⟨a, u, hrun, hrest⟩
    · rw [log_bind_of_error h]
      exact hx.error h
    · obtain ⟨honward, hpaid⟩ := hx.ok hrun
      obtain ⟨honward', hpaid'⟩ := (hf a).error hrest
      rw [log_bind_of_ok hrun, List.countP_append]
      exact ⟨honward.trans honward', by omega⟩

theorem ite {c : Prop} [Decidable c] {y : TracedReader α} (hx : Pays charged credit left x)
    (hy : Pays charged credit left y) : Pays charged credit left (if c then x else y) := by
  split
  · exact hx
  · exact hy

/-- A condition is checked first. -/
theorem check {c : Prop} [Decidable c] {e : Error} (hx : Pays charged credit left x) :
    Pays charged credit left
      (if c then (Traced.quiet (MonadExcept.throw e) : TracedReader PUnit) >>= fun _ => x else x) :=
  .ite (.bind (@throw PUnit charged credit credit e) fun _ => hx) hx

/-- What pays for itself does so as often as it is wanted. -/
theorem collect (hx : Pays charged credit credit x) (count : Nat) :
    Pays charged credit credit (collect count x) := by
  have hgo : ∀ found, Pays charged credit credit (collect.go x count found) := by
    induction count with
    | zero => exact fun found => .pure _
    | succ count ih => exact fun found => .bind hx fun a => ih _
  exact hgo #[]

/-- To begin a type costs what the type costs, also if its level is refused. -/
theorem nested {refuses : Nat → Bool} {price : Nat}
    (hprice : ∀ level, (charged (.type level)).toNat ≤ price) (hx : Pays charged 0 left x) :
    Pays charged price left (nested refuses x) where
  ok := by
    rintro ⟨c, level⟩ t a h
    cases hlevel : refuses (level + 1) with
    | true =>
      rw [run_nested_of_refused hlevel] at h
      cases h
    | false =>
      cases hrun : x.step.run ⟨c, level + 1⟩ with
      | ok b u =>
        rw [run_nested_of_ok hlevel hrun] at h
        cases h
        obtain ⟨honward, hpaid⟩ := hx.ok hrun
        have hcost := hprice (level + 1)
        rw [log_nested hlevel, countP_cons]
        exact ⟨honward, by dsimp only at hpaid ⊢; omega⟩
      | error e u =>
        rw [run_nested_of_error hlevel hrun] at h
        cases h
  error := by
    rintro ⟨c, level⟩ t e h
    have hcost := hprice (level + 1)
    cases hlevel : refuses (level + 1) with
    | true =>
      rw [run_nested_of_refused hlevel] at h
      cases h
      rw [log_nested_of_refused hlevel, countP_cons]
      exact ⟨.refl _, by rw [List.countP_nil]; dsimp only; omega⟩
    | false =>
      cases hrun : x.step.run ⟨c, level + 1⟩ with
      | ok b u =>
        rw [run_nested_of_ok hlevel hrun] at h
        cases h
      | error e' u =>
        rw [run_nested_of_error hlevel hrun] at h
        cases h
        obtain ⟨honward, hpaid⟩ := hx.error hrun
        rw [log_nested hlevel, countP_cons]
        exact ⟨honward, by dsimp only at hpaid ⊢; omega⟩

/-- A note costs a byte at most. -/
theorem noted (event : Visit) : Pays charged (credit + 1) credit (Traced.note event) := by
  have hle := Bool.toNat_le (charged event)
  refine (@note charged credit event).mono ?_ ?_ <;> omega

theorem modifiers : Pays charged credit credit modifiers := by
  have hgo : ∀ turns found, Pays charged credit credit (modifiers.go turns found) := by
    intro turns
    induction turns with
    | nil => exact fun found => .pure _
    | cons _ turns ih =>
      intro found
      refine .bind (plain .hasMore) fun more => .ite (.pure _) ?_
      refine .bind (plain .peek) fun tag => .ite ?_ (.pure _)
      refine .bind (plain (.advance 1)) fun _ => .bind (noted _) fun _ => ?_
      exact .bind (plain Reader.Moves.compressedToken.weaken) fun token => ih _
  exact .bind position fun start => hgo _ _

theorem compressed : Pays charged credit credit (SignatureTrace.plain Reader.compressed) :=
  plain Reader.Moves.compressed.weaken

theorem token : Pays charged credit credit (SignatureTrace.plain Reader.compressedToken) :=
  plain Reader.Moves.compressedToken.weaken

theorem bound : Pays charged (credit + 1) (credit + 1) bound :=
  .bind (noted _) fun _ => plain .compressed

section
variable {price : Nat} {rt : TracedReader TypeSig} (h : Pays charged price 1 rt)
include h

theorem param : Pays charged (price + (charged .param).toNat) 1 (param rt) := by
  refine .bind (note _) fun _ => .bind position fun start => .bind modifiers fun mods => ?_
  refine .bind (plain .peek) fun tag => ?_
  have hrest : ∀ result : Cursor → TypeSig → Cursor → ParamSig, Pays charged price 1 (do
      let typeStart ← Traced.quiet SignatureReader.position
      let type ← rt
      let stop ← Traced.quiet SignatureReader.position
      return result typeStart type stop) :=
    fun _ => .bind position fun _ => .bind h fun _ => .bind position fun _ => .pure _
  exact .ite (.bind (plain (Reader.Moves.advance 1).weaken) fun _ => hrest _) (hrest _)

variable (hshared : price + (charged .param).toNat ≤ 1)
include hshared

theorem params (count : Nat) : Pays charged 1 1 (params.go rt count #[]) := by
  have hgo : ∀ found, Pays charged 1 1 (params.go rt count found) := by
    induction count with
    | zero => exact fun found => .pure _
    | succ count ih =>
      intro found
      refine .bind (plain .peek) fun tag => .ite (.pure _) ?_
      exact .bind ((param h).mono hshared (by omega)) fun p => ih _
  exact hgo #[]

/-- The first byte of a signature and the number of its parameters pay for nothing else. -/
theorem methodOf : Pays charged 0 2 (methodOf rt) := by
  have hcount : Pays charged 1 2 (SignatureTrace.plain Reader.compressed) := plain .compressed
  have hreturn : Pays charged 2 2 (SignatureTrace.param rt) :=
    (param h).mono (by omega) (by omega)
  have hparams : ∀ count, Pays charged 2 2 (params.go rt count #[]) := fun count =>
    (params h hshared count).mono (by omega) (by omega)
  refine .bind (plain .byte) fun convention => ?_
  have hrest : ∀ genericCount : Nat, Pays charged 1 2 (do
      let count ← SignatureTrace.plain Reader.compressed
      let returnType ← SignatureTrace.param rt
      let params ← params.go rt count #[]
      return {
        hasThis := convention &&& 0x20 != 0
        explicitThis := convention &&& 0x40 != 0
        isVararg := convention &&& 0x0F == 0x05
        genericCount, returnType, params } : TracedReader MethodSig) :=
    fun _ => .bind hcount fun count => .bind hreturn fun _ => .bind (hparams count) fun _ => .pure _
  exact .ite (.bind compressed fun count => hrest count) (.bind (.pure 0) fun count => hrest count)

/-- The first byte of a type pays for what is behind it. -/
theorem typeBody (tag : UInt8) : Pays charged 1 1 (typeBody rt tag) := by
  have htype : Pays charged 1 1 rt := h.mono (by omega) (by omega)
  have hmethod : Pays charged 1 1 (SignatureTrace.methodOf rt) :=
    (methodOf h hshared).mono (by omega) (by omega)
  unfold SignatureTrace.typeBody
  split
  all_goals first
    | exact .pure _
    | exact .throw _
    | exact .bind htype fun _ => .pure _
    | exact .bind token fun _ => .pure _
    | exact .bind compressed fun _ => .pure _
    | exact .bind hmethod fun _ => .pure _
    | exact .bind modifiers fun _ => .bind htype fun _ => .pure _
    | exact .bind (noted _) fun _ => .bind (plain .compressedToken) fun _ => .bind modifiers
        fun _ => htype
    | skip
  · refine .bind htype fun element => .bind compressed fun rank => .bind compressed fun sizes => ?_
    refine .bind (bound.collect sizes) fun _ => .bind compressed fun bounds => ?_
    exact .bind (bound.collect bounds) fun _ => .pure _
  · refine .bind (plain .peek) fun next => .check ?_
    exact .bind htype fun _ => .bind compressed fun count => .bind (htype.collect count) fun _ =>
      .pure _

end

/-- Whatever levels are refused, a type takes a byte of its own, and what is charged for its
begin is paid for in advance. -/
theorem type {price : Nat} (hprice : ∀ level, (charged (.type level)).toNat ≤ price)
    (hshared : price + (charged .param).toNat ≤ 1) (refuses : Nat → Bool) (room : Nat) :
    Pays charged price 1 (type refuses room) := by
  induction room with
  | zero => exact nested hprice (.throw _)
  | succ room ih =>
    have hbyte := @plain _ charged 0 _ _ .byte
    exact nested hprice (hbyte.bind fun tag => typeBody ih hshared tag)

theorem after (h : Pays charged credit left x) (s : SignatureCursor) :
    s.cursor.Onward (x.step.after s).cursor ∧
      (x.log s).countP charged + s.cursor.pos ≤ (x.step.after s).cursor.pos + credit := by
  cases hrun : x.step.run s with
  | ok a t =>
    obtain ⟨honward, hpaid⟩ := h.ok hrun
    rw [after_of_ok hrun]
    exact ⟨honward, by omega⟩
  | error e t =>
    rw [after_of_error hrun]
    exact h.error hrun

end Pays

/-! What is charged. -/

/-- Everything but parameters. -/
def inTypes (event : Visit) : Bool := !event.isParam

/-- Everything but types. -/
def inParams (event : Visit) : Bool := !event.isType

/-- What is of just one of three kinds is counted kind by kind. -/
theorem countP_eq_add {charged first second third : Visit → Bool}
    (h : ∀ event, (charged event).toNat =
      (first event).toNat + (second event).toNat + (third event).toNat) (log : List Visit) :
    log.countP charged = log.countP first + log.countP second + log.countP third := by
  induction log with
  | nil => rfl
  | cons event log ih =>
    have hevent := h event
    simp only [countP_cons]
    omega

theorem countP_inTypes (log : List Visit) : log.countP inTypes =
    log.countP Visit.isType + log.countP Visit.isModifier + log.countP Visit.isBound :=
  countP_eq_add (fun event => by cases event <;> rfl) log

theorem countP_inParams (log : List Visit) : log.countP inParams =
    log.countP Visit.isParam + log.countP Visit.isModifier + log.countP Visit.isBound :=
  countP_eq_add (fun event => by cases event <;> rfl) log

/-! Reading signatures. -/

theorem Pays.method {charged : Visit → Bool} {price : Nat}
    (hprice : ∀ level, (charged (.type level)).toNat ≤ price)
    (hshared : price + (charged .param).toNat ≤ 1) (refuses : Nat → Bool) (room : Nat) :
    Pays charged 0 2 (method refuses room) :=
  methodOf (type hprice hshared refuses room) hshared

/-- Reading at `s` does not go back, and goes on by a byte at least if it goes through. -/
def Advances (r : SignatureReader α) (s : SignatureCursor) : Prop :=
  s.cursor.Onward (r.after s).cursor ∧ ∀ a t, r.run s = .ok a t → s.cursor.pos + 1 ≤ t.cursor.pos

theorem Pays.advances {x : TracedReader α} (h : Pays (fun _ => false) 0 1 x)
    (s : SignatureCursor) : Advances x.step s := by
  refine ⟨(h.after s).1, fun a t hrun => ?_⟩
  have hpaid := (h.ok hrun).2
  omega

/-- With nothing charged, the byte that a type takes is left over. -/
theorem Pays.type_free (room : Nat) :
    Pays (fun _ => false) 0 1 (SignatureTrace.type limited room) :=
  type (fun _ => Nat.le_refl 0) (Nat.zero_le 1) limited room

theorem type_advances (room : Nat) (s : SignatureCursor) :
    Advances (SignatureReader.type room) s := by
  have hstep : (type limited room).step = _ := type_erases room
  rw [← hstep]
  exact (Pays.type_free room).advances s

theorem param_advances (room : Nat) (s : SignatureCursor) :
    Advances (SignatureReader.param (SignatureReader.type room)) s := by
  have hstep : (param (type limited room)).step = _ :=
    (Mirrors.param (.base (type_erases room))).erases
  rw [← hstep]
  exact (Pays.type_free room).param.advances s

/-- What reading a method signature at `s` goes through, whether it goes through or fails. -/
def visits (s : SignatureCursor) : List Visit := (method limited levelLimit).log s

/-- Wherever and on whatever level a method signature is read, and whether that goes through or
fails: the traced reader is the reader, which stays in the data and does not go back; nor do the
readers of types and of parameters, which take a byte at least if they go through. Of types,
modifiers and bounds together the reader begins no more than it consumes bytes, and likewise of
parameters, modifiers and bounds; of all four together no more than twice as many, and four
less if it goes through; and there are as many bytes as it consumes. -/
theorem method_work {s t : SignatureCursor} (h : SignatureReader.method.after s = t) :
    (method limited levelLimit).step = SignatureReader.method ∧
    s.cursor.Onward t.cursor ∧ t.cursor.pos ≤ s.cursor.data.length ∧
    (∀ room, Advances (SignatureReader.type room) s ∧
      Advances (SignatureReader.param (SignatureReader.type room)) s) ∧
    (visits s).countP Visit.isType + (visits s).countP Visit.isModifier +
      (visits s).countP Visit.isBound ≤ t.cursor.pos - s.cursor.pos ∧
    (visits s).countP Visit.isParam + (visits s).countP Visit.isModifier +
      (visits s).countP Visit.isBound ≤ t.cursor.pos - s.cursor.pos ∧
    (visits s).countP Visit.isParam + (visits s).countP Visit.isType +
      (visits s).countP Visit.isModifier + (visits s).countP Visit.isBound ≤
        2 * (t.cursor.pos - s.cursor.pos) ∧
    (∀ signature, SignatureReader.method.run s = .ok signature t →
      (visits s).countP Visit.isParam + (visits s).countP Visit.isType +
        (visits s).countP Visit.isModifier + (visits s).countP Visit.isBound + 4 ≤
          2 * (t.cursor.pos - s.cursor.pos)) ∧
    t.cursor.pos - s.cursor.pos ≤ s.cursor.rest.length := by
  have htypes : Pays inTypes 0 2 (method limited levelLimit) :=
    .method (fun _ => Nat.le_refl 1) (Nat.le_refl 1) limited levelLimit
  have hparams : Pays inParams 0 2 (method limited levelLimit) :=
    .method (fun _ => Nat.le_refl 0) (Nat.le_refl 1) limited levelLimit
  obtain ⟨honward, htypesPaid⟩ := htypes.after s
  obtain ⟨-, hparamsPaid⟩ := hparams.after s
  rw [method_step, h, countP_inTypes] at htypesPaid
  rw [method_step, h] at honward
  rw [method_step, h, countP_inParams] at hparamsPaid
  have hpos := t.cursor.pos_le
  rw [honward.data_eq] at hpos
  have hrest : t.cursor.pos - s.cursor.pos ≤ s.cursor.rest.length := by
    rw [← honward.length_rest_add]
    exact Nat.le_add_left _ _
  unfold visits
  refine ⟨method_step, honward, hpos, fun room => ⟨type_advances room s, param_advances room s⟩,
    Nat.le_sub_of_add_le htypesPaid, Nat.le_sub_of_add_le hparamsPaid, by omega,
    fun signature hrun => ?_, hrest⟩
  rw [← method_step] at hrun
  have htypesLeft := (htypes.ok hrun).2
  have hparamsLeft := (hparams.ok hrun).2
  rw [countP_inTypes] at htypesLeft
  rw [countP_inParams] at hparamsLeft
  omega

/-- Two parameters, the first with a modifier, the second an array with a size and a lower bound. -/
def arrayBlob : List UInt8 :=
  [0x00, 0x02, 0x01, 0x1F, 0x05, 0x08, 0x14, 0x08, 0x01, 0x01, 0x02, 0x01, 0x00]

/-- With what is returned there are three parameters, and there are four types. -/
theorem method_work_array :
    ∃ signature t, SignatureReader.method.run (.ofBytes arrayBlob) = .ok signature t ∧
      t.cursor.pos = 13 ∧
      (visits (.ofBytes arrayBlob)).countP Visit.isParam = 3 ∧
      (visits (.ofBytes arrayBlob)).countP Visit.isType = 4 ∧
      (visits (.ofBytes arrayBlob)).countP Visit.isModifier = 1 ∧
      (visits (.ofBytes arrayBlob)).countP Visit.isBound = 2 ∧
      4 + 1 + 2 ≤ 13 ∧ 3 + 1 + 2 ≤ 13 ∧ 3 + 4 + 1 + 2 + 4 ≤ 2 * 13 := by
  obtain ⟨signature, t, hrun⟩ := succeeds_iff.mp
    (show SignatureReader.method.succeeds (.ofBytes arrayBlob) = true by decide +kernel)
  have hpos : t.cursor.pos = 13 := by
    rw [← after_of_ok hrun]
    decide +kernel
  have hparam : (visits (.ofBytes arrayBlob)).countP Visit.isParam = 3 := by decide +kernel
  have htype : (visits (.ofBytes arrayBlob)).countP Visit.isType = 4 := by decide +kernel
  have hmodifier : (visits (.ofBytes arrayBlob)).countP Visit.isModifier = 1 := by decide +kernel
  have hbound : (visits (.ofBytes arrayBlob)).countP Visit.isBound = 2 := by decide +kernel
  obtain ⟨-, -, -, -, htypes, hparams, -, hall, -⟩ := method_work (after_of_ok hrun)
  replace hall := hall signature hrun
  rw [hpos, htype, hmodifier, hbound] at htypes
  rw [hpos, hparam, hmodifier, hbound] at hparams
  rw [hpos, hparam, htype, hmodifier, hbound] at hall
  exact ⟨signature, t, hrun, hpos, hparam, htype, hmodifier, hbound, htypes, hparams, hall⟩

/-- The types of three parameters. -/
def sharedBlob : List UInt8 := [0x00, 0x03, 0x01, 0x08, 0x08, 0x08]

/-- A parameter and the type in it are begun at one byte, so more is begun than there are bytes. -/
theorem method_work_shared :
    ¬(visits (.ofBytes sharedBlob)).countP Visit.isParam +
      (visits (.ofBytes sharedBlob)).countP Visit.isType +
      (visits (.ofBytes sharedBlob)).countP Visit.isModifier +
      (visits (.ofBytes sharedBlob)).countP Visit.isBound ≤ sharedBlob.length := by
  decide +kernel

end SignatureTrace

end CilInstrument
