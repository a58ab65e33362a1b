import CilInstrument.Proofs.Recognition
import CilInstrument.Proofs.Tracing

/- Reading signatures with notes. The traced reader is the reader of signatures once more, and
   notes each parameter and each type that it begins, each modifier and each bound of an array.
   Which levels of types it refuses is a parameter: with the limit it is the reader itself
   (`method_step`), and without one it says how deep the types of a signature go. `Mirrors`
   says that the two are the same program but for the notes and for how a type is read, so a
   relation between them is shown of the simple reads and of types only. -/
namespace CilInstrument

/-- Something that reading a signature goes through. -/
inductive Visit where
  /-- A parameter or return type is begun. -/
  | param
  /-- A type is begun, or refused, on this level. -/
  | type (level : Nat)
  | modifier
  /-- A size or a lower bound of an array. -/
  | bound
  deriving Repr, DecidableEq

def Visit.isType : Visit → Bool
  | type _ => true
  | _ => false

abbrev TracedReader := Traced Visit SignatureCursor

namespace SignatureTrace

open Traced SignatureReader

variable {α β : Type}

/-- A plain read, which is not noted. -/
def plain (read : Reader α) : TracedReader α := .quiet (ofReader read)

def modifiers.go : List UInt8 → Array Token → TracedReader (List Token)
  | [], found => pure found.toList
  | _ :: turns, found => do
    if !(← plain Reader.hasMore) then return found.toList
    if ElementTag.isModifier (← plain Reader.peek) then
      plain (Reader.advance 1)
      note .modifier
      let token ← plain Reader.compressedToken
      go turns (found.push token)
    else
      return found.toList

def modifiers : TracedReader (List Token) := do
  let start ← .quiet position
  modifiers.go start.rest #[]

def bound : TracedReader Nat := do
  note .bound
  plain Reader.compressed

section
variable (readType : TracedReader TypeSig)

def param : TracedReader ParamSig := do
  note .param
  let start ← .quiet position
  let mods ← modifiers
  let isByRef := (← plain Reader.peek) == ElementTag.byRef
  if isByRef then plain (Reader.advance 1)
  let typeStart ← .quiet position
  let base ← readType
  let stop ← .quiet position
  return ⟨mods, isByRef, base, stop.bytesSince start, stop.bytesSince typeStart⟩

def params.go : Nat → Array ParamSig → TracedReader (List ParamSig)
  | 0, found => pure found.toList
  | count + 1, found => do
    if (← plain Reader.peek) == ElementTag.sentinel then return found.toList
    let p ← param readType
    go count (found.push p)

def methodOf : TracedReader MethodSig := do
  let convention ← plain Reader.byte
  let genericCount ←
    if convention &&& 0x10 != 0 then plain Reader.compressed else pure 0
  let count ← plain Reader.compressed
  let returnType ← param readType
  let params ← params.go readType count #[]
  return {
    hasThis := convention &&& 0x20 != 0
    explicitThis := convention &&& 0x40 != 0
    isVararg := convention &&& 0x0F == 0x05
    genericCount, returnType, params }

def typeBody (tag : UInt8) : TracedReader TypeSig :=
  match tag.toNat with
  | 0x01 => return .void
  | 0x02 => return .boolean
  | 0x03 => return .char
  | 0x04 => return .int8
  | 0x05 => return .uint8
  | 0x06 => return .int16
  | 0x07 => return .uint16
  | 0x08 => return .int32
  | 0x09 => return .uint32
  | 0x0A => return .int64
  | 0x0B => return .uint64
  | 0x0C => return .float32
  | 0x0D => return .float64
  | 0x0E => return .string
  | 0x0F => do
    let _ ← modifiers
    return .pointer (← readType)
  | 0x10 => return .byRef (← readType)
  | 0x11 => return .valueType (← plain Reader.compressedToken)
  | 0x12 => return .classType (← plain Reader.compressedToken)
  | 0x13 => return .typeParameter (← plain Reader.compressed)
  | 0x14 => do
    let element ← readType
    let rank ← plain Reader.compressed
    let sizes ← plain Reader.compressed
    let _ ← collect sizes bound
    let lowerBounds ← plain Reader.compressed
    let _ ← collect lowerBounds bound
    return .array element rank
  | 0x15 => do
    let next ← plain Reader.peek
    if next != ElementTag.classType && next != ElementTag.valueType then
      .quiet (throw (.malformed (.genericBase next)))
    let base ← readType
    let count ← plain Reader.compressed
    return .genericInstance base (← collect count readType)
  | 0x16 => return .typedReference
  | 0x18 => return .nativeInt
  | 0x19 => return .nativeUInt
  | 0x1B => return .functionPointer (← methodOf readType)
  | 0x1C => return .object
  | 0x1D => do
    let _ ← modifiers
    return .vector (← readType)
  | 0x1E => return .methodParameter (← plain Reader.compressed)
  | 0x45 => return .pinned (← readType)
  | 0x1F | 0x20 => do
    note .modifier
    let _ ← plain Reader.compressedToken
    let _ ← modifiers
    readType
  | _ => .quiet (throw (.malformed (.elementType tag)))

end

section
variable (refuses : Nat → Bool)

/-- Runs `x` one level further down, unless that level is refused. -/
def nested (x : TracedReader α) : TracedReader α where
  step := fun ⟨cursor, level⟩ =>
    if refuses (level + 1) then .error (.recursionLimit levelLimit) ⟨cursor, level + 1⟩
    else
      match x.step ⟨cursor, level + 1⟩ with
      | .ok a s => .ok a { s with level := s.level - 1 }
      | .error e s => .error e { s with level := s.level - 1 }
  log := fun s => .type (s.level + 1) ::
    if refuses (s.level + 1) then [] else x.log ⟨s.cursor, s.level + 1⟩

def type : (room : Nat) → TracedReader TypeSig
  | 0 => nested refuses (.quiet (throw (.recursionLimit levelLimit)))
  | room + 1 => nested refuses do
    let tag ← plain Reader.byte
    typeBody (type room) tag

def method (room : Nat) : TracedReader MethodSig := methodOf (type refuses room)

end

/-- The levels that are refused. -/
def limited (level : Nat) : Bool := decide (levelLimit ≤ level)

/-- No level is refused. -/
def unlimited (_ : Nat) : Bool := false

end SignatureTrace

/-! Plain reads move forward. -/

/-- A level was refused. -/
def Error.isRecursionLimit : Error → Bool
  | recursionLimit _ => true
  | _ => false

/-- The second cursor stands in the same data, and not in front of the first. -/
structure Cursor.Onward (c c' : Cursor) : Prop where
  data_eq : c'.data = c.data
  pos_le : c.pos ≤ c'.pos

namespace Cursor.Onward

variable {c c' c'' : Cursor}

theorem refl (c : Cursor) : c.Onward c := ⟨rfl, Nat.le_refl _⟩

theorem trans (h : c.Onward c') (h' : c'.Onward c'') : c.Onward c'' :=
  ⟨h'.data_eq.trans h.data_eq, Nat.le_trans h.pos_le h'.pos_le⟩

theorem length_rest_add (h : c.Onward c') :
    c'.rest.length + (c'.pos - c.pos) = c.rest.length := by
  have hle := h.pos_le
  have hle' := c'.pos_le
  rw [length_rest, length_rest, ← h.data_eq]
  omega

end Cursor.Onward

namespace Reader

/-- The reader goes on, by `n` bytes at least if it goes through, and knows no levels. -/
structure Moves {α : Type} (n : Nat) (r : Reader α) : Prop where
  ok : ∀ {c c' a}, r.run c = .ok a c' → c.Onward c' ∧ c.pos + n ≤ c'.pos
  error : ∀ {c c' e}, r.run c = .error e c' →
    c.Onward c' ∧ e.isRecursionLimit = false

namespace Moves

open Step

variable {α β : Type} {n : Nat} {r : Reader α}

theorem pure (a : α) : Moves 0 (pure a : Reader α) where
  ok := by
    intro c c' b h
    cases h
    exact ⟨.refl c, Nat.le_refl _⟩
  error := fun h => by cases h

theorem throw {e : Error} (he : e.isRecursionLimit = false) :
    Moves n (throw e : Reader α) where
  ok := fun h => by cases h
  error := by
    intro c c' e' h
    cases h
    exact ⟨.refl c, he⟩

theorem weaken (h : Moves n r) : Moves 0 r where
  ok := fun hrun => ⟨(h.ok hrun).1, (h.ok hrun).1.pos_le⟩
  error := h.error

theorem bind {f : α → Reader β} (hr : Moves n r) (hf : ∀ a, Moves 0 (f a)) :
    Moves n (r >>= f) where
  ok := by
    intro c c' b h
    obtain ⟨a, t, hrun, hrest⟩ := run_bind_ok.mp h
    obtain ⟨hfirst, hle⟩ := hr.ok hrun
    obtain ⟨hsecond, hle'⟩ := (hf a).ok hrest
    exact ⟨hfirst.trans hsecond, by omega⟩
  error := by
    intro c c' e h
    rcases run_bind_error.mp h with h | ⟨a, t, hrun, hrest⟩
    · exact hr.error h
    · exact ⟨(hr.ok hrun).1.trans ((hf a).error hrest).1, ((hf a).error hrest).2⟩

theorem ite {c : Prop} [Decidable c] {q : Reader α} (hr : Moves n r) (hq : Moves n q) :
    Moves n (if c then r else q) := of_ite hr hq

theorem bytes (n : Nat) : Moves n (bytes n) where
  ok := by
    intro c c' a h
    replace h : Reader.bytes n c = .ok a c' := h
    unfold Reader.bytes at h
    split at h
    · cases h
      exact ⟨⟨rfl, Nat.le_add_right _ _⟩, Nat.le_refl _⟩
    · cases h
  error := by
    intro c c' e h
    replace h : Reader.bytes n c = .error e c' := h
    unfold Reader.bytes at h
    split at h
    · cases h
    · cases h
      exact ⟨.refl c, rfl⟩

theorem advance (n : Nat) : Moves n (advance n) where
  ok := by
    intro c c' a h
    rw [Reader.advance, run_discard] at h
    split at h
    · next hrun =>
      cases h
      exact (bytes n).ok hrun
    · cases h
  error := by
    intro c c' e h
    rw [Reader.advance, run_discard] at h
    split at h
    · cases h
    · next hrun =>
      cases h
      exact (bytes n).error hrun

theorem byte : Moves 1 byte where
  ok := by
    intro c c' a h
    replace h : Reader.byte c = .ok a c' := h
    unfold Reader.byte at h
    split at h
    · cases h
    · cases h
      exact ⟨⟨rfl, Nat.le_add_right _ _⟩, Nat.le_refl _⟩
  error := by
    intro c c' e h
    replace h : Reader.byte c = .error e c' := h
    unfold Reader.byte at h
    split at h
    · cases h
      exact ⟨.refl c, rfl⟩
    · cases h

theorem peek : Moves 0 peek where
  ok := by
    intro c c' a h
    replace h : Reader.peek c = .ok a c' := h
    unfold Reader.peek at h
    split at h
    · cases h
    · cases h
      exact ⟨.refl c, Nat.le_refl _⟩
  error := by
    intro c c' e h
    replace h : Reader.peek c = .error e c' := h
    unfold Reader.peek at h
    split at h
    · cases h
      exact ⟨.refl c, rfl⟩
    · cases h

theorem hasMore : Moves 0 hasMore where
  ok := by
    intro c c' a h
    cases h
    exact ⟨.refl c, Nat.le_refl _⟩
  error := fun h => by cases h

theorem compressed : Moves 1 compressed := by
  have hbyte := byte.weaken
  refine byte.bind fun first => .ite (.pure _) (.ite ?_ (.ite ?_ (.throw rfl)))
  · exact hbyte.bind fun b1 => .pure _
  · exact hbyte.bind fun b1 => hbyte.bind fun b2 => hbyte.bind fun b3 => .pure _

theorem compressedToken : Moves 1 compressedToken := by
  refine compressed.bind fun n => ?_
  cases Compressed.tokenTable? n with
  | some table => exact .pure _
  | none => exact .throw rfl

end Moves

end Reader

namespace SignatureTrace

open Traced Step SignatureReader

/-! The traced programs and those without notes. -/

/-- Step by step the same, but for notes that are not about types, and for what `base` relates. -/
inductive Mirrors (base : ∀ ⦃α : Type⦄, TracedReader α → SignatureReader α → Prop) :
    ∀ {α : Type}, TracedReader α → SignatureReader α → Prop
  | base {α : Type} {x : TracedReader α} {r : SignatureReader α} : base x r → Mirrors base x r
  | pure {α : Type} (a : α) : Mirrors base (pure a) (pure a)
  | throw {α : Type} {e : Error} : e.isRecursionLimit = false →
    Mirrors base (quiet (throw e) : TracedReader α) (throw e)
  | plain {α : Type} {r : Reader α} : r.Moves 0 → Mirrors base (plain r) (ofReader r)
  | position : Mirrors base (quiet position) position
  | noted {α : Type} {x : TracedReader α} {r : SignatureReader α} {event : Visit} :
    event.isType = false → Mirrors base x r → Mirrors base (note event >>= fun _ => x) r
  | bind {α β : Type} {x : TracedReader α} {r : SignatureReader α} {f : α → TracedReader β}
    {g : α → SignatureReader β} : Mirrors base x r → (∀ a, Mirrors base (f a) (g a)) →
    Mirrors base (x >>= f) (r >>= g)

namespace Mirrors

variable {α β : Type} {base : ∀ ⦃α : Type⦄, TracedReader α → SignatureReader α → Prop}
  {x y : TracedReader α} {r q : SignatureReader α}

theorem ite {c : Prop} [Decidable c] (hx : Mirrors base x r) (hy : Mirrors base y q) :
    Mirrors base (if c then x else y) (if c then r else q) := by
  split
  · exact hx
  · exact hy

/-- A condition is checked first. -/
theorem check {c : Prop} [Decidable c] {e : Error} (he : e.isRecursionLimit = false)
    (hx : Mirrors base x r) :
    Mirrors base
      (if c then (quiet (MonadExcept.throw e) : TracedReader PUnit) >>= fun _ => x else x)
      (if c then (MonadExcept.throw e : SignatureReader PUnit) >>= fun _ => r else r) :=
  .ite (.bind (.throw he) fun _ => hx) hx

/-- A result that is not wanted. -/
theorem discard {z : TracedReader β} {g : PUnit → SignatureReader β} {p : SignatureReader α}
    (hx : Mirrors base x p) (hz : Mirrors base z (g ())) :
    Mirrors base (x >>= fun _ => z) (Functor.discard p >>= g) := by
  have hbind : Functor.discard p >>= g = p >>= fun _ => g () := by
    funext s
    show (Functor.discard p >>= g).run s = (p >>= fun _ => g ()).run s
    rw [EStateM.run_bind, EStateM.run_bind, run_discard]
    cases p.run s <;> rfl
  rw [hbind]
  exact hx.bind fun _ => hz

theorem collect (hx : Mirrors base x r) (count : Nat) :
    Mirrors base (Traced.collect count x) (Step.collect count r) := by
  have hgo : ∀ found,
      Mirrors base (Traced.collect.go x count found) (Step.collect.go r count found) := by
    induction count with
    | zero => exact fun found => .pure _
    | succ count ih => exact fun found => hx.bind fun a => ih _
  exact hgo #[]

theorem modifiers : Mirrors base modifiers SignatureReader.modifiers := by
  have hgo : ∀ turns found,
      Mirrors base (modifiers.go turns found) (SignatureReader.modifiers.go turns found) := by
    intro turns
    induction turns with
    | nil => exact fun found => .pure _
    | cons _ turns ih =>
      intro found
      refine .bind (.plain .hasMore) fun more => .ite (.pure _) ?_
      refine .bind (.plain .peek) fun tag => .ite ?_ (.pure _)
      refine .bind (.plain (Reader.Moves.advance 1).weaken) fun _ => .noted rfl ?_
      exact .bind (.plain Reader.Moves.compressedToken.weaken) fun token => ih _
  exact .bind .position fun start => hgo _ _

theorem compressed : Mirrors base (SignatureTrace.plain Reader.compressed)
    (ofReader Reader.compressed) := .plain Reader.Moves.compressed.weaken

theorem bound : Mirrors base bound (ofReader Reader.compressed) := .noted rfl compressed

theorem token : Mirrors base (SignatureTrace.plain Reader.compressedToken)
    (ofReader Reader.compressedToken) := .plain Reader.Moves.compressedToken.weaken

section
variable {rt : TracedReader TypeSig} {readType : SignatureReader TypeSig}
  (h : Mirrors base rt readType)
include h

theorem param : Mirrors base (param rt) (SignatureReader.param readType) := by
  refine .noted rfl (.bind .position fun start => .bind modifiers fun mods => ?_)
  refine .bind (.plain .peek) fun tag => ?_
  have hrest : ∀ result : Cursor → TypeSig → Cursor → ParamSig, Mirrors base (do
      let typeStart ← quiet SignatureReader.position
      let type ← rt
      let stop ← quiet SignatureReader.position
      return result typeStart type stop : TracedReader ParamSig) (do
      let typeStart ← SignatureReader.position
      let type ← readType
      let stop ← SignatureReader.position
      return result typeStart type stop) :=
    fun _ => .bind .position fun _ => .bind h fun _ => .bind .position fun _ => .pure _
  exact .ite (.bind (.plain (Reader.Moves.advance 1).weaken) fun _ => hrest _) (hrest _)

theorem params (count : Nat) :
    Mirrors base (params.go rt count #[]) (SignatureReader.params readType count) := by
  have hgo : ∀ found, Mirrors base (params.go rt count found)
      (SignatureReader.params.go readType count found) := by
    induction count with
    | zero => exact fun found => .pure _
    | succ count ih =>
      intro found
      refine .bind (.plain .peek) fun tag => .ite (.pure _) ?_
      exact .bind (param h) fun p => ih _
  exact hgo #[]

theorem methodOf : Mirrors base (methodOf rt) (SignatureReader.methodOf readType) := by
  refine .bind (.plain Reader.Moves.byte.weaken) fun convention => ?_
  have hrest : ∀ genericCount : Nat, Mirrors base (do
      let count ← SignatureTrace.plain Reader.compressed
      let returnType ← SignatureTrace.param rt
      let params ← params.go rt count #[]
      return {
        hasThis := convention &&& 0x20 != 0
        explicitThis := convention &&& 0x40 != 0
        isVararg := convention &&& 0x0F == 0x05
        genericCount, returnType, params } : TracedReader MethodSig) (do
      let count ← ofReader Reader.compressed
      let returnType ← SignatureReader.param readType
      let params ← SignatureReader.params readType count
      return {
        hasThis := convention &&& 0x20 != 0
        explicitThis := convention &&& 0x40 != 0
        isVararg := convention &&& 0x0F == 0x05
        genericCount, returnType, params }) :=
    fun _ => .bind compressed fun count => .bind (param h) fun _ => .bind (params h count)
      fun _ => .pure _
  exact .ite (.bind compressed fun count => hrest count) (.bind (.pure 0) fun count => hrest count)

theorem typeBody (tag : UInt8) :
    Mirrors base (typeBody rt tag) (SignatureReader.typeBody readType tag) := by
  unfold SignatureTrace.typeBody SignatureReader.typeBody
  generalize tag.toNat = first
  split
  all_goals first
    | exact .pure _
    | exact .bind h fun _ => .pure _
    | exact .bind token fun _ => .pure _
    | exact .bind compressed fun _ => .pure _
    | exact .bind (methodOf h) fun _ => .pure _
    | exact .discard modifiers (.bind h fun _ => .pure _)
    | exact .noted rfl (.discard token (.discard modifiers h))
    | skip
  · refine .bind h fun element => .bind compressed fun rank => .bind compressed fun sizes => ?_
    refine .discard (bound.collect sizes) (.bind compressed fun bounds => ?_)
    exact .discard (bound.collect bounds) (.pure _)
  · refine .bind (.plain .peek) fun next => .check rfl ?_
    exact .bind h fun _ => .bind compressed fun count => .bind (h.collect count) fun _ => .pure _
  · -- no rule is for any other byte
    split
    all_goals first
      | contradiction
      | exact .throw rfl

end

end Mirrors

/-! Plain reads. -/

section
variable {read : Reader α} {s t : SignatureCursor}

theorem run_plain_ok {a : α} (h : (plain read).step.run s = .ok a t) :
    read.run s.cursor = .ok a t.cursor ∧ t.level = s.level := by
  cases hread : read.run s.cursor with
  | ok b c =>
    cases (run_ofReader_of_ok hread).symm.trans h
    exact ⟨rfl, rfl⟩
  | error e c => cases (run_ofReader_of_error hread).symm.trans h

theorem run_plain_error {e : Error} (h : (plain read).step.run s = .error e t) :
    read.run s.cursor = .error e t.cursor ∧ t.level = s.level := by
  cases hread : read.run s.cursor with
  | ok b c => cases (run_ofReader_of_ok hread).symm.trans h
  | error e' c =>
    cases (run_ofReader_of_error hread).symm.trans h
    exact ⟨rfl, rfl⟩

end

/-! Levels. -/

section
variable {refuses : Nat → Bool} {x : TracedReader α} {c : Cursor} {level : Nat}

theorem run_nested_of_refused (h : refuses (level + 1) = true) :
    (nested refuses x).step.run ⟨c, level⟩ =
      .error (.recursionLimit levelLimit) ⟨c, level + 1⟩ := if_pos h

theorem log_nested_of_refused (h : refuses (level + 1) = true) :
    (nested refuses x).log ⟨c, level⟩ = [.type (level + 1)] :=
  congrArg (Visit.type (level + 1) :: ·) (if_pos h)

variable (h : refuses (level + 1) = false)
include h

theorem log_nested : (nested refuses x).log ⟨c, level⟩ =
    .type (level + 1) :: x.log ⟨c, level + 1⟩ :=
  congrArg (Visit.type (level + 1) :: ·) (if_neg (by rw [h]; exact Bool.false_ne_true))

theorem run_nested_of_ok {a : α} {t : SignatureCursor}
    (hrun : x.step.run ⟨c, level + 1⟩ = .ok a t) :
    (nested refuses x).step.run ⟨c, level⟩ = .ok a { t with level := t.level - 1 } := by
  refine (if_neg (by rw [h]; exact Bool.false_ne_true)).trans ?_
  rw [show x.step ⟨c, level + 1⟩ = _ from hrun]

theorem run_nested_of_error {e : Error} {t : SignatureCursor}
    (hrun : x.step.run ⟨c, level + 1⟩ = .error e t) :
    (nested refuses x).step.run ⟨c, level⟩ = .error e { t with level := t.level - 1 } := by
  refine (if_neg (by rw [h]; exact Bool.false_ne_true)).trans ?_
  rw [show x.step ⟨c, level + 1⟩ = _ from hrun]

end

/-! With the limit, the traced reader is the reader. -/

/-- Without its notes, `x` is `r`. -/
def Erases ⦃α : Type⦄ (x : TracedReader α) (r : SignatureReader α) : Prop := x.step = r

theorem Mirrors.erases {x : TracedReader α} {r : SignatureReader α} (h : Mirrors Erases x r) :
    Erases x r := by
  unfold Erases
  induction h with
  | base h => exact h
  | pure | throw | plain | position => rfl
  | noted _ _ ih =>
    rw [step_bind, ih]
    rfl
  | bind _ _ ihx ihf => rw [step_bind, ihx, funext ihf]

theorem nested_step (x : TracedReader α) :
    (nested limited x).step = SignatureReader.nested x.step := by
  funext ⟨cursor, level⟩
  exact ite_congr decide_eq_true_eq (fun _ => rfl) fun _ => rfl

theorem type_erases (room : Nat) : Erases (type limited room) (SignatureReader.type room) := by
  induction room with
  | zero => exact nested_step _
  | succ room ih =>
    have hbody := Mirrors.bind (.plain Reader.Moves.byte.weaken) fun tag =>
      Mirrors.typeBody (.base ih) tag
    exact (nested_step _).trans (congrArg SignatureReader.nested hbody.erases)

theorem method_step : (method limited levelLimit).step = SignatureReader.method :=
  (Mirrors.methodOf (.base (type_erases levelLimit))).erases

end SignatureTrace

end CilInstrument
