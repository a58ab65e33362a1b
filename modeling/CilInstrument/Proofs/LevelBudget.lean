import CilInstrument.Proofs.SignatureReading
import CilInstrument.Proofs.SignatureTrace

/- The budget of levels. A signature that is read without a limit says on which levels its types
   are begun, counted from where it starts. The reader with the limit, which has `taken` levels
   less to spend, does the same for as long as no type is begun on a level that it does not
   have, and fails there and then if one is (`Agrees`). So what it fails for and what it leaves
   of its levels can be read off the signature alone: a refused type costs one level for good,
   nothing else does (`method_level`), and after any calls so many levels are taken as calls
   were refused (`level_accounts`). -/
namespace CilInstrument.SignatureTrace

open Traced Step SignatureReader

variable {α β : Type}

/-- With `taken` levels less to spend, every type is begun below the limit. -/
def Within (taken : Nat) (log : List Visit) : Prop :=
  ∀ level, Visit.type level ∈ log → level + taken < levelLimit

theorem within_append {taken : Nat} {log log' : List Visit} :
    Within taken (log ++ log') ↔ Within taken log ∧ Within taken log' := by
  constructor
  · intro h
    exact ⟨fun level hmem => h level (List.mem_append_left _ hmem),
      fun level hmem => h level (List.mem_append_right _ hmem)⟩
  · intro ⟨h, h'⟩ level hmem
    exact (List.mem_append.mp hmem).elim (h level) (h' level)

theorem within_type {taken level : Nat} {log : List Visit} :
    Within taken (.type level :: log) ↔ level + taken < levelLimit ∧ Within taken log := by
  rw [show Visit.type level :: log = [Visit.type level] ++ log from rfl, within_append]
  refine and_congr_left fun _ => ⟨fun h => h level List.mem_cons_self, fun h other hmem => ?_⟩
  cases List.mem_singleton.mp hmem
  exact h

/-- The same result, with `taken` more levels taken. -/
def raised (taken : Nat) : EStateM.Result Error SignatureCursor α →
    EStateM.Result Error SignatureCursor α
  | .ok a s => .ok a ⟨s.cursor, s.level + taken⟩
  | .error e s => .error e ⟨s.cursor, s.level + taken⟩

/-- The run from `s` goes on in its data, gives every level back and was refused none. -/
def Settled (s : SignatureCursor) : EStateM.Result Error SignatureCursor α → Prop
  | .ok _ t => s.cursor.Onward t.cursor ∧ t.level = s.level
  | .error e t => s.cursor.Onward t.cursor ∧ t.level = s.level ∧ e.isRecursionLimit = false

theorem Settled.trans {s t : SignatureCursor} {a : β}
    {result : EStateM.Result Error SignatureCursor α} (h : Settled t result)
    (hfirst : Settled s (.ok a t)) : Settled s result := by
  cases result with
  | ok b u => exact ⟨hfirst.1.trans h.1, h.2.trans hfirst.2⟩
  | error e u => exact ⟨hfirst.1.trans h.1, h.2.1.trans hfirst.2, h.2.2⟩

theorem level_after_raised {taken : Nat} {s t : SignatureCursor} {r : SignatureReader α}
    {result : EStateM.Result Error SignatureCursor α} (h : Settled s result)
    (hrun : r.run t = raised taken result) : (r.after t).level = s.level + taken := by
  cases result with
  | ok a u =>
    rw [after_of_ok hrun]
    exact congrArg (· + taken) h.2
  | error e u =>
    rw [after_of_error hrun]
    exact congrArg (· + taken) h.2.1

/-- One level is given back. -/
def lowered : EStateM.Result Error SignatureCursor α → EStateM.Result Error SignatureCursor α
  | .ok a s => .ok a { s with level := s.level - 1 }
  | .error e s => .error e { s with level := s.level - 1 }

theorem run_nested_unlimited (x : TracedReader α) (c : Cursor) (level : Nat) :
    (nested unlimited x).step.run ⟨c, level⟩ = lowered (x.step.run ⟨c, level + 1⟩) := by
  cases hrun : x.step.run ⟨c, level + 1⟩ with
  | ok a t => exact SignatureTrace.run_nested_of_ok rfl hrun
  | error e t => exact SignatureTrace.run_nested_of_error rfl hrun

theorem run_nested (r : SignatureReader α) (c : Cursor) {level : Nat}
    (h : level + 1 < levelLimit) :
    (SignatureReader.nested r).run ⟨c, level⟩ = lowered (r.run ⟨c, level + 1⟩) := by
  cases hrun : r.run ⟨c, level + 1⟩ with
  | ok a t => exact SignatureReader.run_nested_of_ok (Nat.not_le_of_lt h) hrun
  | error e t => exact SignatureReader.run_nested_of_error (Nat.not_le_of_lt h) hrun

section
variable {c : Cursor} {level : Nat} {result : EStateM.Result Error SignatureCursor α}
  (h : Settled ⟨c, level + 1⟩ result)
include h

theorem Settled.lowered : Settled ⟨c, level⟩ (lowered result) := by
  cases result with
  | ok a t => exact ⟨h.1, by rw [h.2]; rfl⟩
  | error e t => exact ⟨h.1, by rw [h.2.1]; rfl, h.2.2⟩

theorem Settled.lowered_raised (taken : Nat) :
    SignatureTrace.lowered (raised taken result) =
      raised taken (SignatureTrace.lowered result) := by
  have hlevel : level + 1 + taken - 1 = level + taken := by omega
  cases result with
  | ok a t =>
    obtain ⟨c', l⟩ := t
    obtain rfl : l = level + 1 := h.2
    exact congrArg (fun l => EStateM.Result.ok a (SignatureCursor.mk c' l)) hlevel
  | error e t =>
    obtain ⟨c', l⟩ := t
    obtain rfl : l = level + 1 := h.2.1
    exact congrArg (fun l => EStateM.Result.error e (SignatureCursor.mk c' l)) hlevel

end

/-- With `taken` more levels taken, `r` does what `x` does at `s`, unless a type in there comes to
the limit; then it is refused, and one level more stays taken. -/
structure Agrees (taken : Nat) (x : TracedReader α) (r : SignatureReader α)
    (s : SignatureCursor) : Prop where
  settled : Settled s (x.step.run s)
  within : Within taken (x.log s) →
    r.run ⟨s.cursor, s.level + taken⟩ = raised taken (x.step.run s)
  beyond : ¬Within taken (x.log s) → ∃ c, r.run ⟨s.cursor, s.level + taken⟩ =
    .error (.recursionLimit levelLimit) ⟨c, s.level + taken + 1⟩

namespace Agrees

variable {taken : Nat} {x : TracedReader α} {r : SignatureReader α} {s : SignatureCursor}

/-- Where no type is begun, nothing is refused. -/
theorem of_noTypes (hlog : ∀ level, Visit.type level ∉ x.log s)
    (hsettled : Settled s (x.step.run s))
    (hrun : r.run ⟨s.cursor, s.level + taken⟩ = raised taken (x.step.run s)) :
    Agrees taken x r s where
  settled := hsettled
  within := fun _ => hrun
  beyond := fun hbeyond => absurd (fun level hmem => absurd hmem (hlog level)) hbeyond

theorem congr {q : SignatureReader α} (h : Agrees taken x r s)
    (hrun : q.run ⟨s.cursor, s.level + taken⟩ = r.run ⟨s.cursor, s.level + taken⟩) :
    Agrees taken x q s where
  settled := h.settled
  within := fun hwithin => hrun.trans (h.within hwithin)
  beyond := fun hbeyond => (h.beyond hbeyond).imp fun _ => hrun.trans

theorem pure (a : α) : Agrees taken (pure a) (pure a) s :=
  .of_noTypes (fun _ => List.not_mem_nil) ⟨.refl _, rfl⟩ rfl

theorem throw {e : Error} (he : e.isRecursionLimit = false) :
    Agrees taken (quiet (throw e) : TracedReader α) (throw e) s :=
  .of_noTypes (fun _ => List.not_mem_nil) ⟨.refl _, rfl, he⟩ rfl

theorem position : Agrees taken (quiet position) position s :=
  .of_noTypes (fun _ => List.not_mem_nil) ⟨.refl _, rfl⟩ rfl

theorem plain {q : Reader α} {gain : Nat} (h : q.Moves gain) :
    Agrees taken (plain q) (ofReader q) s := by
  obtain ⟨c, level⟩ := s
  cases hread : q.run c with
  | ok a c' =>
    have hplain : ∀ l, (SignatureTrace.plain q).step.run ⟨c, l⟩ = .ok a ⟨c', l⟩ :=
      fun _ => run_ofReader_of_ok hread
    refine .of_noTypes (fun _ => List.not_mem_nil) ?_ ?_
    · rw [hplain]
      exact ⟨(h.ok hread).1, rfl⟩
    · rw [hplain]
      exact hplain _
  | error e c' =>
    have hplain : ∀ l, (SignatureTrace.plain q).step.run ⟨c, l⟩ = .error e ⟨c', l⟩ :=
      fun _ => run_ofReader_of_error hread
    refine .of_noTypes (fun _ => List.not_mem_nil) ?_ ?_
    · rw [hplain]
      exact ⟨(h.error hread).1, rfl, (h.error hread).2⟩
    · rw [hplain]
      exact hplain _

theorem noted {event : Visit} (hevent : event.isType = false) (h : Agrees taken x r s) :
    Agrees taken (note event >>= fun _ => x) r s where
  settled := h.settled
  within := fun hwithin => h.within fun level hmem => hwithin level (List.mem_cons_of_mem _ hmem)
  beyond := fun hbeyond => h.beyond fun hwithin => hbeyond fun level hmem =>
    (List.mem_cons.mp hmem).elim (fun heq => by rw [← heq] at hevent; cases hevent) (hwithin level)

theorem bind {f : α → TracedReader β} {g : α → SignatureReader β} (h : Agrees taken x r s)
    (hf : ∀ a t, x.step.run s = .ok a t → Agrees taken (f a) (g a) t) :
    Agrees taken (x >>= f) (r >>= g) s := by
  have hsettled := h.settled
  cases hrun : x.step.run s with
  | error e t =>
    have hlog := log_bind_of_error (f := f) hrun
    have hbind := run_bind_of_error (f := f) hrun
    rw [hrun] at hsettled
    refine ⟨by rw [hbind]; exact hsettled, fun hwithin => ?_, fun hbeyond => ?_⟩
    · rw [hlog] at hwithin
      have hr := h.within hwithin
      rw [hrun] at hr
      rw [hbind, EStateM.run_bind, hr]
      rfl
    · rw [hlog] at hbeyond
      obtain ⟨c, hr⟩ := h.beyond hbeyond
      exact ⟨c, by rw [EStateM.run_bind, hr]⟩
  | ok a t =>
    have hlog := log_bind_of_ok (f := f) hrun
    have hbind := run_bind_of_ok (f := f) hrun
    have hrest := hf a t hrun
    rw [hrun] at hsettled
    refine ⟨?_, fun hwithin => ?_, fun hbeyond => ?_⟩
    · rw [hbind]
      exact hrest.settled.trans hsettled
    · rw [hlog, within_append] at hwithin
      have hr := h.within hwithin.1
      rw [hrun] at hr
      rw [hbind, EStateM.run_bind, hr]
      exact hrest.within hwithin.2
    · rw [hlog, within_append] at hbeyond
      by_cases hwithin : Within taken (x.log s)
      · obtain ⟨c, hg⟩ := hrest.beyond fun hmore => hbeyond ⟨hwithin, hmore⟩
        have hr := h.within hwithin
        rw [hrun] at hr
        refine ⟨c, ?_⟩
        rw [EStateM.run_bind, hr, ← hsettled.2]
        exact hg
      · obtain ⟨c, hr⟩ := h.beyond hwithin
        exact ⟨c, by rw [EStateM.run_bind, hr]⟩

/-- A level further down, or refused. -/
theorem nested (h : Agrees taken x r ⟨s.cursor, s.level + 1⟩) :
    Agrees taken (nested unlimited x) (SignatureReader.nested r) s := by
  obtain ⟨c, level⟩ := s
  have hlog : (SignatureTrace.nested unlimited x).log ⟨c, level⟩ = _ := log_nested rfl
  have hcomm : level + taken + 1 = level + 1 + taken := Nat.add_right_comm level taken 1
  refine ⟨?_, fun hwithin => ?_, fun hbeyond => ?_⟩
  · rw [run_nested_unlimited]
    exact h.settled.lowered
  · rw [hlog, within_type] at hwithin
    have hr := h.within hwithin.2
    dsimp only at hr ⊢
    rw [run_nested_unlimited, run_nested r c (by omega), hcomm, hr]
    exact h.settled.lowered_raised taken
  · by_cases hlevel : levelLimit ≤ level + taken + 1
    · exact ⟨c, run_nested_of_limit hlevel⟩
    · rw [hlog, within_type] at hbeyond
      obtain ⟨c', hr⟩ := h.beyond fun hwithin => hbeyond ⟨by omega, hwithin⟩
      refine ⟨c', ?_⟩
      dsimp only at hr ⊢
      rw [run_nested r c (by omega), hcomm, hr, lowered, Nat.add_sub_cancel]

end Agrees

/-- `Agrees` wherever fewer than `length` bytes are left, from the level `lo` on. -/
def Follows (length lo taken : Nat) ⦃α : Type⦄ (x : TracedReader α)
    (r : SignatureReader α) : Prop :=
  ∀ s : SignatureCursor, s.cursor.rest.length < length → lo ≤ s.level → Agrees taken x r s

section
variable {length lo taken : Nat}

theorem Mirrors.follows {x : TracedReader α} {r : SignatureReader α}
    (h : Mirrors (Follows length lo taken) x r) : Follows length lo taken x r := by
  induction h with
  | base h => exact h
  | pure a => exact fun _ _ _ => .pure a
  | throw he => exact fun _ _ _ => .throw he
  | plain h => exact fun _ _ _ => .plain h
  | position => exact fun _ _ _ => .position
  | noted hevent _ ih => exact fun s hlength hlo => (ih s hlength hlo).noted hevent
  | bind _ _ ihx ihf =>
    intro s hlength hlo
    have hx := ihx s hlength hlo
    refine hx.bind fun a t hrun => ?_
    have hsettled := hx.settled
    rw [hrun] at hsettled
    have hrest := hsettled.1.length_rest_add
    exact ihf a t (by omega) (by rw [hsettled.2]; exact hlo)

/-- Behind a byte there is one byte less. -/
theorem Follows.behindByte {f : UInt8 → TracedReader α} {g : UInt8 → SignatureReader α}
    (h : ∀ tag, Follows length lo taken (f tag) (g tag)) :
    Follows (length + 1) lo taken (plain Reader.byte >>= f) (ofReader Reader.byte >>= g) := by
  intro s hlength hlo
  have hbyte : Agrees taken (plain Reader.byte) (ofReader Reader.byte) s := .plain .byte
  refine hbyte.bind fun tag t hrun => ?_
  obtain ⟨hread, hlevel⟩ := run_plain_ok hrun
  obtain ⟨honward, hpos⟩ := Reader.Moves.byte.ok hread
  have hrest := honward.length_rest_add
  exact h tag t (by omega) (by rw [hlevel]; exact hlo)

theorem Follows.nested {x : TracedReader α} {r : SignatureReader α}
    (h : Follows length (lo + 1) taken x r) :
    Follows length lo taken (nested unlimited x) (SignatureReader.nested r) :=
  fun _ hlength hlo => .nested (h _ hlength (Nat.succ_le_succ hlo))

/-- By induction on the bytes that are left: each type takes one. -/
theorem type_follows {room : Nat} (h : levelLimit ≤ lo + taken + room + 1) :
    Follows length lo taken (type unlimited length) (SignatureReader.type room) := by
  induction length generalizing lo room with
  | zero => exact fun _ hlength => absurd hlength (Nat.not_lt_zero _)
  | succ length ih =>
    have hbody : ∀ room, levelLimit ≤ lo + 1 + taken + room + 1 →
        Follows (length + 1) (lo + 1) taken
          (plain Reader.byte >>= typeBody (type unlimited length))
          (ofReader Reader.byte >>= SignatureReader.typeBody (SignatureReader.type room)) :=
      fun room h => .behindByte fun tag => (Mirrors.typeBody (.base (ih h)) tag).follows
    cases room with
    | succ room => exact (hbody room (by omega)).nested
    | zero =>
      -- the level is refused, so what would be read on it makes no difference
      intro s hlength hlo
      have hagrees := (hbody levelLimit (by omega)).nested s hlength hlo
      have hlimit : levelLimit ≤ s.level + taken + 1 := by omega
      exact hagrees.congr ((run_nested_of_limit hlimit).trans (run_nested_of_limit hlimit).symm)

end

/-! Calls. -/

/-- Reading a method signature at `s` fails for the limit. -/
def failsAtLimit (s : SignatureCursor) : Bool :=
  match SignatureReader.method.outcome s with
  | .ok _ => false
  | .error e => e == .recursionLimit levelLimit

theorem failsAtLimit_iff {s : SignatureCursor} : failsAtLimit s = true ↔
    SignatureReader.method.outcome s = .error (.recursionLimit levelLimit) := by
  unfold failsAtLimit
  cases SignatureReader.method.outcome s with
  | ok m => simp
  | error e => simp

/-- The method signature at a cursor, without a limit: it nests no deeper than it is long. -/
def unlimitedMethod (c : Cursor) : TracedReader MethodSig := method unlimited (c.rest.length + 1)

theorem method_agrees (s : SignatureCursor) :
    Agrees s.level (unlimitedMethod s.cursor) SignatureReader.method ⟨s.cursor, 0⟩ := by
  have htype : Follows (s.cursor.rest.length + 1) 0 s.level
      (type unlimited (s.cursor.rest.length + 1)) (SignatureReader.type levelLimit) :=
    type_follows (by omega)
  exact (Mirrors.methodOf (.base htype)).follows _ (Nat.lt_succ_self _) (Nat.le_refl 0)

/-- A call does what the signature says, or is refused for a type in it. -/
theorem method_cases (s : SignatureCursor) :
    Within s.level ((unlimitedMethod s.cursor).log ⟨s.cursor, 0⟩) ∧ failsAtLimit s = false ∧
      SignatureReader.method.run s =
        raised s.level ((unlimitedMethod s.cursor).step.run ⟨s.cursor, 0⟩) ∨
    ¬Within s.level ((unlimitedMethod s.cursor).log ⟨s.cursor, 0⟩) ∧ failsAtLimit s = true ∧
      ∃ c, SignatureReader.method.run s = .error (.recursionLimit levelLimit) ⟨c, s.level + 1⟩ := by
  have hagrees := method_agrees s
  have hwithin := hagrees.within
  have hbeyond := hagrees.beyond
  simp only [Nat.zero_add] at hwithin hbeyond
  by_cases hin : Within s.level ((unlimitedMethod s.cursor).log ⟨s.cursor, 0⟩)
  · have hrun := hwithin hin
    refine .inl ⟨hin, Bool.eq_false_iff.mpr fun hfails => ?_, hrun⟩
    rw [failsAtLimit_iff] at hfails
    have hsettled := hagrees.settled
    cases hfree : (unlimitedMethod s.cursor).step.run ⟨s.cursor, 0⟩ with
    | ok m t =>
      rw [hfree] at hrun
      cases (outcome_of_ok hrun).symm.trans hfails
    | error e t =>
      rw [hfree] at hrun hsettled
      cases (outcome_of_error hrun).symm.trans hfails
      cases hsettled.2.2
  · obtain ⟨c, hrun⟩ := hbeyond hin
    exact .inr ⟨hin, failsAtLimit_iff.mpr (outcome_of_error hrun), c, hrun⟩

/-- A refusal takes a level for good, and nothing else takes one or gives one back. -/
theorem method_level (s : SignatureCursor) :
    (SignatureReader.method.after s).level = s.level + (failsAtLimit s).toNat := by
  rcases method_cases s with ⟨-, hfails, hrun⟩ | ⟨-, hfails, c, hrun⟩
  · rw [hfails, level_after_raised (method_agrees s).settled hrun, Nat.zero_add]
    rfl
  · rw [hfails, after_of_error hrun]
    rfl

/-- The reader of `data` after so many calls, whatever came of them. -/
def afterCalls (data : List UInt8) : (calls : Nat) → SignatureCursor
  | 0 => .ofBytes data
  | calls + 1 => SignatureReader.method.after (afterCalls data calls)

/-- As many levels are taken as calls were refused. -/
theorem level_afterCalls (data : List UInt8) (calls : Nat) :
    (afterCalls data calls).level =
      (List.range calls).countP fun earlier => failsAtLimit (afterCalls data earlier) := by
  induction calls with
  | zero => rfl
  | succ calls ih =>
    rw [afterCalls, method_level, ih, List.range_succ, List.countP_append, List.countP_cons,
      List.countP_nil]
    cases failsAtLimit (afterCalls data calls) <;> rfl

theorem not_within_iff {taken : Nat} {log : List Visit} : ¬Within taken log ↔
    ∃ level, Visit.type level ∈ log ∧ levelLimit ≤ level + taken := by
  simp only [Within, Classical.not_forall, exists_prop, Nat.not_lt]

/-- On any data and after any calls: as many levels are taken as earlier calls failed for the
limit. The next call fails for it exactly if the signature, read without a limit, begins a type
on a level that comes to the limit together with the levels taken. Otherwise it does what reading
without a limit does, which stays in the data, takes no level for good and is refused none. -/
theorem level_accounts {data : List UInt8} {calls : Nat} {s : SignatureCursor}
    (h : afterCalls data calls = s) :
    s.level = ((List.range calls).countP fun earlier => failsAtLimit (afterCalls data earlier)) ∧
    (SignatureReader.method.outcome s = .error (.recursionLimit levelLimit) ↔
      ∃ level, Visit.type level ∈ (unlimitedMethod s.cursor).log ⟨s.cursor, 0⟩ ∧
        levelLimit ≤ level + s.level) ∧
    (failsAtLimit s = false → SignatureReader.method.run s =
      raised s.level ((unlimitedMethod s.cursor).step.run ⟨s.cursor, 0⟩)) ∧
    Settled ⟨s.cursor, 0⟩ ((unlimitedMethod s.cursor).step.run ⟨s.cursor, 0⟩) := by
  refine ⟨h ▸ level_afterCalls data calls, ?_, fun hfails => ?_, (method_agrees s).settled⟩
  · rw [← failsAtLimit_iff, ← not_within_iff]
    rcases method_cases s with ⟨hin, hfails, -⟩ | ⟨hout, hfails, -⟩
    · exact iff_of_false (by rw [hfails]; exact Bool.false_ne_true) (not_not_intro hin)
    · exact iff_of_true hfails hout
  · rcases method_cases s with ⟨-, -, hrun⟩ | ⟨-, htrue, -⟩
    · exact hrun
    · exact absurd (htrue.symm.trans hfails) Bool.true_eq_false.mp

/-- A type that nests too deep, and behind the part of it that is read a method without
parameters. -/
def deepThenFlat : List UInt8 := [0x00, 0x00] ++ List.replicate 50 0x1D ++ [0x00, 0x00, 0x08]

theorem level_accounts_secondCall :
    (afterCalls deepThenFlat 1).level = 1 ∧ failsAtLimit (afterCalls deepThenFlat 1) = false ∧
      SignatureReader.method.run (afterCalls deepThenFlat 1) =
        raised (afterCalls deepThenFlat 1).level
          ((unlimitedMethod (afterCalls deepThenFlat 1).cursor).step.run
            ⟨(afterCalls deepThenFlat 1).cursor, 0⟩) := by
  have hfails : failsAtLimit (afterCalls deepThenFlat 1) = false := by decide +kernel
  exact ⟨by decide +kernel, hfails, (@level_accounts deepThenFlat 1 _ rfl).2.2.1 hfails⟩

end CilInstrument.SignatureTrace
