import Mathlib.Data.Finset.Insert
import Mathlib.Data.Fintype.Defs
import Mathlib.Data.List.Infix
import Mathlib.Data.List.TakeWhile
import CilInstrument.Code.CallEffect

/- The text of a member and the effect of calling it. Parameters are counted by the commas
   that stand outside all brackets, with one number for the nesting of all three kinds of
   brackets. Taking a text apart leaves the number alone (`topLevelCommas_append`), and a type
   whose brackets match and enclose its commas adds nothing to it, whatever the kinds are
   (`IsType.topLevelCommas`). So a list of types has one top-level comma less than it has
   types (`ParameterList.parameterCount`). What stands in front of the list is only looked at
   up to the end of the return type (`isInstance_front`, `returnsVoid_front`), and both
   together give the effect of a call (`OpCode.callEffect_spelled`). -/
namespace CilInstrument

namespace Member

open Text

/-! Brackets. -/

inductive Bracket where
  | angle
  | square
  | round
  deriving Repr, DecidableEq

instance : Fintype Bracket := ⟨{.angle, .square, .round}, fun k => by cases k <;> decide⟩

namespace Bracket

def opening : Bracket → Char
  | angle => '<'
  | square => '['
  | round => '('

def closing : Bracket → Char
  | angle => '>'
  | square => ']'
  | round => ')'

/-- Brackets of that kind that are opened in a text and not closed in it. -/
def excess (k : Bracket) (text : List Char) : Int :=
  (text.count k.opening : Int) - text.count k.closing

theorem excess_append (k : Bracket) (front rest : List Char) :
    k.excess (front ++ rest) = k.excess front + k.excess rest := by
  unfold excess
  rw [List.count_append, List.count_append]
  omega

end Bracket

/-- Brackets of all kinds that are opened in a text and not closed in it. -/
def nesting (text : List Char) : Int :=
  Bracket.angle.excess text + Bracket.square.excess text + Bracket.round.excess text

theorem nesting_nil : nesting [] = 0 := rfl

theorem nesting_append (front rest : List Char) :
    nesting (front ++ rest) = nesting front + nesting rest := by
  simp only [nesting, Bracket.excess_append]
  omega

/-- What a single character does to the nesting. -/
theorem nesting_cons (c : Char) (rest : List Char) :
    nesting (c :: rest) = nesting [c] + nesting rest :=
  nesting_append [c] rest

/-- A character that is no bracket. -/
def IsPlain (c : Char) : Prop := ∀ k : Bracket, c ≠ k.opening ∧ c ≠ k.closing

theorem nesting_of_isPlain {c : Char} (h : IsPlain c) : nesting [c] = 0 := by
  have hexcess : ∀ k : Bracket, k.excess [c] = 0 := by
    intro k
    obtain ⟨hopening, hclosing⟩ := h k
    simp [Bracket.excess, hopening, hclosing]
  simp [nesting, hexcess]

theorem nesting_of_forall_isPlain {text : List Char} (h : ∀ c ∈ text, IsPlain c) :
    nesting text = 0 := by
  induction text with
  | nil => rfl
  | cons c rest ih =>
    obtain ⟨hc, hrest⟩ := List.forall_mem_cons.mp h
    rw [nesting_cons, nesting_of_isPlain hc, ih hrest]
    rfl

/-! Commas outside all brackets. -/

/-- A character is counted if it is a comma outside all brackets, and moves the nesting on. -/
theorem topLevelCommas_cons (depth : Int) (c : Char) (rest : List Char) :
    topLevelCommas depth (c :: rest) =
      (if c = ',' ∧ depth = 0 then 1 else 0) + topLevelCommas (depth + nesting [c]) rest := by
  have hbracket : ∀ {b : Char}, b ≠ ',' → topLevelCommas (depth + nesting [b]) rest =
      (if b = ',' ∧ depth = 0 then 1 else 0) + topLevelCommas (depth + nesting [b]) rest := by
    intro b hb
    rw [if_neg fun h => hb h.1, Nat.zero_add]
  conv => lhs; unfold topLevelCommas
  split
  · exact hbracket (b := '<') (by decide)
  · exact hbracket (b := '[') (by decide)
  · exact hbracket (b := '(') (by decide)
  · exact hbracket (b := '>') (by decide)
  · exact hbracket (b := ']') (by decide)
  · exact hbracket (b := ')') (by decide)
  · rw [nesting_of_isPlain (by intro k; cases k <;> decide), Int.add_zero]
    simp
  · next h₁ h₂ h₃ h₄ h₅ h₆ h₇ =>
    have hplain : IsPlain c := by
      intro k
      cases k with
      | angle => exact ⟨h₁, h₄⟩
      | square => exact ⟨h₂, h₅⟩
      | round => exact ⟨h₃, h₆⟩
    rw [nesting_of_isPlain hplain, Int.add_zero, if_neg fun h => h₇ h.1, Nat.zero_add]

/-- Commas are counted part by part, each from the nesting that the parts in front leave. -/
theorem topLevelCommas_append (depth : Int) (front rest : List Char) :
    topLevelCommas depth (front ++ rest) =
      topLevelCommas depth front + topLevelCommas (depth + nesting front) rest := by
  induction front generalizing depth with
  | nil => rw [nesting_nil, Int.add_zero, List.nil_append, topLevelCommas, Nat.zero_add]
  | cons c front ih =>
    rw [List.cons_append, topLevelCommas_cons, topLevelCommas_cons, ih, nesting_cons c front,
      Nat.add_assoc, Int.add_assoc]

/-- A text has no top-level comma exactly if none of its commas stands where the nesting is 0. -/
theorem topLevelCommas_eq_zero_iff {depth : Int} {text : List Char} :
    topLevelCommas depth text = 0 ↔
      ∀ front, front ++ [','] <+: text → depth + nesting front ≠ 0 := by
  constructor
  · intro h front hfront hdepth
    obtain ⟨rest, rfl⟩ := hfront
    rw [topLevelCommas_append, topLevelCommas_append, hdepth, topLevelCommas_cons] at h
    simp at h
  · intro h
    induction text generalizing depth with
    | nil => rfl
    | cons c text ih =>
      have hhead : ¬(c = ',' ∧ depth = 0) := by
        rintro ⟨rfl, rfl⟩
        exact h [] (List.prefix_append [','] text) rfl
      rw [topLevelCommas_cons, if_neg hhead, Nat.zero_add]
      refine ih fun front hfront => ?_
      have hdepth := h (c :: front) ((List.prefix_cons_inj c).mpr hfront)
      rwa [nesting_cons, ← Int.add_assoc] at hdepth

theorem topLevelCommas_of_not_mem {depth : Int} {text : List Char} (h : ',' ∉ text) :
    topLevelCommas depth text = 0 := by
  rw [topLevelCommas_eq_zero_iff]
  exact fun front hfront => absurd (hfront.subset (by simp)) h

/-! Blanks. -/

def AllBlank (text : List Char) : Prop := ∀ c ∈ text, isBlank c = true

instance : DecidablePred AllBlank := fun text =>
  @List.decidableBAll _ (isBlank · = true) (fun _ => inferInstance) text

theorem isPlain_of_isBlank {c : Char} (h : isBlank c = true) : IsPlain c ∧ c ≠ ',' := by
  have hne : ∀ {b : Char}, isBlank b = false → c ≠ b := by
    intro b hb hc
    rw [hc, hb] at h
    cases h
  refine ⟨fun k => ?_, hne (by decide)⟩
  cases k <;> exact ⟨hne (by decide), hne (by decide)⟩

theorem nesting_of_allBlank {text : List Char} (h : AllBlank text) : nesting text = 0 :=
  nesting_of_forall_isPlain fun c hc => (isPlain_of_isBlank (h c hc)).1

theorem topLevelCommas_of_allBlank {depth : Int} {text : List Char} (h : AllBlank text) :
    topLevelCommas depth text = 0 :=
  topLevelCommas_of_not_mem fun hcomma => (isPlain_of_isBlank (h ',' hcomma)).2 rfl

/-- Trimming takes blanks off at both ends, and nothing else. -/
theorem exists_blanks_around_trim (text : List Char) :
    ∃ before after, AllBlank before ∧ AllBlank after ∧ text = before ++ trim text ++ after := by
  have hblank : ∀ l : List Char, AllBlank (l.takeWhile isBlank) := fun l c hc =>
    List.mem_takeWhile_imp hc
  refine ⟨text.takeWhile isBlank, ((trimStart text).reverse.takeWhile isBlank).reverse, hblank text,
    fun c hc => hblank _ c (List.mem_reverse.mp hc), ?_⟩
  rw [List.append_assoc, trim, ← List.reverse_append]
  unfold trimStart
  rw [List.takeWhile_append_dropWhile, List.reverse_reverse, List.takeWhile_append_dropWhile]

theorem trim_eq_nil_iff {text : List Char} : trim text = [] ↔ AllBlank text := by
  constructor
  · intro h
    obtain ⟨before, after, hbefore, hafter, htext⟩ := exists_blanks_around_trim text
    rw [htext, h, List.append_nil]
    exact List.forall_mem_append.mpr ⟨hbefore, hafter⟩
  · intro h
    have hstart : trimStart text = [] := List.dropWhile_eq_nil_iff.mpr h
    rw [trim, hstart]
    rfl

theorem topLevelCommas_trim (text : List Char) : topLevelCommas 0 (trim text) = topLevelCommas 0 text := by
  obtain ⟨before, after, hbefore, hafter, htext⟩ := exists_blanks_around_trim text
  conv => rhs; rw [htext]
  rw [topLevelCommas_append, topLevelCommas_append, topLevelCommas_of_allBlank hbefore,
    topLevelCommas_of_allBlank hafter, nesting_of_allBlank hbefore]
  simp

/-- Blanks around a list of parameters do not count. -/
theorem parameterCount_of_allBlank {text : List Char} (h : AllBlank text) :
    parameterCount text = 0 := by
  unfold parameterCount
  rw [trim_eq_nil_iff.mpr h]
  rfl

theorem parameterCount_of_not_allBlank {text : List Char} (h : ¬AllBlank text) :
    parameterCount text = 1 + topLevelCommas 0 text := by
  have htrim : (trim text).isEmpty ≠ true := fun hnil =>
    h (trim_eq_nil_iff.mp (List.isEmpty_iff.mp hnil))
  unfold parameterCount
  rw [if_neg htrim, topLevelCommas_trim]

/-! Types and lists of types. -/

/-- The text of a type: brackets are closed behind where they are opened, kind by kind, and
every comma is inside of some. -/
structure IsType (text : List Char) : Prop where
  opened : ∀ front, front <+: text → ∀ k : Bracket, 0 ≤ k.excess front
  closed : ∀ k : Bracket, k.excess text = 0
  enclosed : ∀ front, front ++ [','] <+: text → ∃ k : Bracket, 0 < k.excess front

namespace IsType

variable {text : List Char}

theorem nesting (h : IsType text) : nesting text = 0 := by
  simp [Member.nesting, h.closed]

/-- One number for all kinds of brackets is enough. -/
theorem topLevelCommas (h : IsType text) : topLevelCommas 0 text = 0 := by
  rw [topLevelCommas_eq_zero_iff]
  intro front hfront
  have hopened := h.opened front ((List.prefix_append front [',']).trans hfront)
  have hangle := hopened .angle
  have hsquare := hopened .square
  have hround := hopened .round
  obtain ⟨k, hk⟩ := h.enclosed front hfront
  unfold Member.nesting
  cases k <;> omega

/-- All there is to check are the fronts of the text. -/
instance : DecidablePred IsType := fun text =>
  decidable_of_iff
    ((∀ front ∈ text.inits, ∀ k : Bracket, 0 ≤ k.excess front) ∧
      (∀ k : Bracket, k.excess text = 0) ∧
      ∀ front ∈ text.inits, front ++ [','] <+: text → ∃ k : Bracket, 0 < k.excess front)
    ⟨fun ⟨hopened, hclosed, henclosed⟩ => {
        opened := fun front hfront => hopened front ((List.mem_inits _ _).mpr hfront)
        closed := hclosed
        enclosed := fun front hfront => henclosed front ((List.mem_inits _ _).mpr
          ((List.prefix_append front [',']).trans hfront)) hfront },
      fun h => ⟨fun front hfront => h.opened front ((List.mem_inits _ _).mp hfront), h.closed,
        fun front _ => h.enclosed front⟩⟩

end IsType

/-- Types one after the other, with commas between them and blanks around each. -/
inductive ParameterList : List (List Char) → List Char → Prop
  | empty {blanks : List Char} (h : AllBlank blanks) : ParameterList [] blanks
  | last {before type after : List Char} (hbefore : AllBlank before) (hafter : AllBlank after) :
    ParameterList [type] (before ++ type ++ after)
  | cons {before type after text : List Char} {rest : List (List Char)}
    (hbefore : AllBlank before) (hafter : AllBlank after) (hrest : rest ≠ [])
    (h : ParameterList rest text) :
    ParameterList (type :: rest) (before ++ type ++ after ++ ',' :: text)

namespace ParameterList

variable {types : List (List Char)} {text : List Char}

/-- The blanks around a type change nothing. -/
theorem around {before type after : List Char} (hbefore : AllBlank before)
    (hafter : AllBlank after) (h : IsType type) :
    Member.topLevelCommas 0 (before ++ type ++ after) = 0 ∧
      Member.nesting (before ++ type ++ after) = 0 := by
  constructor
  · rw [topLevelCommas_append, topLevelCommas_append, topLevelCommas_of_allBlank hbefore,
      topLevelCommas_of_allBlank hafter, nesting_of_allBlank hbefore, Int.add_zero,
      h.topLevelCommas]
  · rw [nesting_append, nesting_append, nesting_of_allBlank hbefore, nesting_of_allBlank hafter,
      h.nesting]
    rfl

theorem topLevelCommas (h : ParameterList types text) (htypes : ∀ type ∈ types, IsType type) :
    Member.topLevelCommas 0 text = types.length - 1 := by
  induction h with
  | empty h => exact topLevelCommas_of_allBlank h
  | last hbefore hafter =>
    exact (around hbefore hafter (htypes _ List.mem_cons_self)).1
  | @cons before type after text rest hbefore hafter hrest _ ih =>
    obtain ⟨htype, hmore⟩ := List.forall_mem_cons.mp htypes
    obtain ⟨hcommas, hnesting⟩ := around hbefore hafter htype
    have hpos : 0 < rest.length := List.length_pos_iff.mpr hrest
    have hcomma : Member.nesting [','] = 0 := nesting_of_isPlain (by intro k; cases k <;> decide)
    rw [topLevelCommas_append, hcommas, hnesting, topLevelCommas_cons, hcomma, Int.add_zero, Int.add_zero,
      ih hmore, if_pos ⟨rfl, rfl⟩, List.length_cons]
    omega

theorem not_allBlank (h : ParameterList types text) (hne : types ≠ [])
    (htypes : ∀ type ∈ types, ¬AllBlank type) : ¬AllBlank text := by
  have hfirst : ∃ type ∈ types, type ⊆ text := by
    cases h with
    | empty => exact absurd rfl hne
    | last _ _ => exact ⟨_, List.mem_cons_self, by simp⟩
    | cons _ _ _ _ => exact ⟨_, List.mem_cons_self, by simp⟩
  obtain ⟨type, hmem, hsub⟩ := hfirst
  exact fun hblank => htypes type hmem fun c hc => hblank c (hsub hc)

/-- As many parameters are counted as there are types. -/
theorem parameterCount (h : ParameterList types text)
    (htypes : ∀ type ∈ types, IsType type ∧ ¬AllBlank type) :
    parameterCount text = types.length := by
  by_cases hnil : types = []
  · subst hnil
    cases h with
    | empty h => exact parameterCount_of_allBlank h
  · have hpos : 0 < types.length := List.length_pos_iff.mpr hnil
    rw [parameterCount_of_not_allBlank (h.not_allBlank hnil fun type hmem => (htypes type hmem).2),
      h.topLevelCommas fun type hmem => (htypes type hmem).1]
    omega

end ParameterList

/-! What stands in front of the parameters. -/

/-- A member as its text spells it, up to its parameters. -/
structure Spelling where
  isInstance : Bool
  returnType : List Char
  owner : List Char
  name : List Char
  /-- The return type is not set off by more blanks. -/
  starts : ∃ c ∈ returnType.head?, isBlank c = false
  /-- The word of instance members does not stand there a second time. -/
  instanceOnce : ¬instanceWord <+: returnType ++ [' ']
  /-- No parenthesis is opened in front of the parameters. -/
  unopened : '(' ∉ returnType ++ owner ++ name

namespace Spelling

def front (m : Spelling) : List Char := (if m.isInstance then instanceWord else []) ++ m.returnType

def qualifiedName (m : Spelling) : List Char := m.owner ++ "::".toList ++ m.name

/-- The member with what stands between its parentheses. -/
def text (m : Spelling) (parameters : List Char) : List Char :=
  m.front ++ ' ' :: m.qualifiedName ++ '(' :: (parameters ++ [')'])

/-- Values that a call of the member pops on top of the parameters. -/
def receiver (m : Spelling) (op : OpCode) : Nat :=
  if op ≠ .newobj ∧ (m.isInstance ∨ op = .callvirt) then 1 else 0

/-- What a call of the member does to the stack, if it has `count` parameters. -/
def effect (m : Spelling) (op : OpCode) (count : Nat) : StackEffect where
  pops := count + m.receiver op
  pushes := if op = .newobj ∨ ¬voidWord <+: m.returnType ++ [' '] then 1 else 0

/-- A byte counts what a call pops, if it counts the parameters. -/
def Fits (m : Spelling) (op : OpCode) (count : Nat) : Prop :=
  count ≤ 255 → count + m.receiver op ≤ 255

instance (m : Spelling) (op : OpCode) (count : Nat) : Decidable (m.Fits op count) :=
  inferInstanceAs (Decidable (_ → _))

end Spelling

/-- The parameters of a member are what stands between its first parenthesis and its last. -/
theorem split?_eq {front : List Char} (h : '(' ∉ front) (parameters : List Char) :
    split? (front ++ '(' :: (parameters ++ [')'])) = some (front, parameters) := by
  have hfront : ∀ c ∈ front, (c != '(') = true := fun c hc => by
    rw [bne_iff_ne]
    exact fun heq => h (heq ▸ hc)
  unfold split?
  rw [List.dropWhile_append_of_pos hfront, List.takeWhile_append_of_pos hfront]
  simp

/-- Whether a word stands in front of a text is settled by the first words of the text. -/
theorem isPrefixOf_word {word : List Char} (hword : ' ' ∉ word) (text tail : List Char) :
    (word ++ [' ']).isPrefixOf (text ++ ' ' :: tail) = (word ++ [' ']).isPrefixOf (text ++ [' ']) := by
  have hsame : word ++ [' '] <+: text ++ ' ' :: tail ↔ word ++ [' '] <+: text ++ [' '] := by
    have htext : text ++ ' ' :: tail = (text ++ [' ']) ++ tail := by simp
    constructor
    · intro h
      by_cases hlength : word.length ≤ text.length
      · refine List.prefix_of_prefix_length_le h (htext ▸ List.prefix_append _ _) ?_
        simpa using hlength
      -- the space behind a shorter text would stand in the word
      · have hshort : text ++ [' '] <+: word := by
          refine List.prefix_of_prefix_length_le (htext ▸ List.prefix_append (text ++ [' ']) tail)
            ((List.prefix_append word [' ']).trans h) ?_
          simp
          omega
        exact absurd (hshort.subset (by simp)) hword
    · intro h
      exact htext ▸ h.trans (List.prefix_append _ _)
  rw [Bool.eq_iff_iff, List.isPrefixOf_iff_prefix, List.isPrefixOf_iff_prefix, hsame]

theorem trimStart_of_head {text : List Char} (h : ∃ c ∈ text.head?, isBlank c = false)
    (tail : List Char) : trimStart (text ++ tail) = text ++ tail := by
  obtain ⟨c, hc, hblank⟩ := h
  cases text with
  | nil => cases hc
  | cons d rest =>
    obtain rfl := Option.some.inj hc
    simp [trimStart, hblank]

theorem stripAll_append {word : List Char} (hword : word ≠ []) (text : List Char) :
    stripAll word (word ++ text) = stripAll word text := by
  have hprefix : word.isPrefixOf (word ++ text) = true :=
    List.isPrefixOf_iff_prefix.mpr (List.prefix_append word text)
  conv => lhs; rw [stripAll]
  rw [dif_pos ⟨hword, hprefix⟩, List.drop_left]

theorem stripAll_of_not_isPrefixOf {word text : List Char} (h : word.isPrefixOf text = false) :
    stripAll word text = text := by
  rw [stripAll, dif_neg]
  rw [h]
  simp

namespace Spelling

variable (m : Spelling) (tail : List Char)

theorem instanceWord_not_isPrefixOf :
    instanceWord.isPrefixOf (m.returnType ++ ' ' :: tail) = false := by
  have hword : ' ' ∉ "instance".toList := by decide
  refine (isPrefixOf_word hword m.returnType tail).trans ?_
  rw [Bool.eq_false_iff]
  exact fun h => m.instanceOnce (List.isPrefixOf_iff_prefix.mp h)

/-- Nothing behind the return type has a say in whether there is a receiver, -/
theorem isInstance_front : Member.isInstance (m.front ++ ' ' :: tail) = m.isInstance := by
  unfold Member.isInstance front
  cases m.isInstance with
  | true =>
    rw [if_pos rfl, List.append_assoc, trimStart_of_head ⟨'i', rfl, by decide⟩]
    exact List.isPrefixOf_iff_prefix.mpr (List.prefix_append _ _)
  | false =>
    rw [if_neg Bool.false_ne_true, List.nil_append, trimStart_of_head m.starts]
    exact m.instanceWord_not_isPrefixOf tail

/-- or in whether something is returned. -/
theorem returnsVoid_front :
    returnsVoid (m.front ++ ' ' :: tail) = voidWord.isPrefixOf (m.returnType ++ [' ']) := by
  have hstrip : stripAll instanceWord (trimStart (m.front ++ ' ' :: tail)) =
      m.returnType ++ ' ' :: tail := by
    unfold front
    cases m.isInstance with
    | true =>
      rw [if_pos rfl, List.append_assoc, trimStart_of_head ⟨'i', rfl, by decide⟩,
        stripAll_append (by decide), stripAll_of_not_isPrefixOf (m.instanceWord_not_isPrefixOf tail)]
    | false =>
      rw [if_neg Bool.false_ne_true, List.nil_append, trimStart_of_head m.starts,
        stripAll_of_not_isPrefixOf (m.instanceWord_not_isPrefixOf tail)]
  have hword : ' ' ∉ "void".toList := by decide
  unfold returnsVoid
  rw [hstrip, trimStart_of_head m.starts]
  exact isPrefixOf_word hword m.returnType tail

omit tail in
/-- Counting in a byte, as far as the sum fits. -/
theorem toNat_pops {op : OpCode} {count : Nat} (h : count + m.receiver op ≤ 255) :
    (UInt8.ofNat count + UInt8.ofNat (m.receiver op)).toNat = count + m.receiver op := by
  have hlt : count + m.receiver op < 256 := Nat.lt_succ_of_le h
  rw [← UInt8.ofNat_add]
  exact UInt8.toNat_ofNat_of_lt' hlt

/-- The effect of a call comes from the front of the member and the number of parameters, whatever
stands in between. -/
theorem callEffect_of_split {op : OpCode} {member : String} {parameters : List Char}
    (hsplit : split? member.toList = some (m.front ++ ' ' :: tail, parameters))
    (hfits : m.Fits op (Member.parameterCount parameters)) :
    op.callEffect member =
      if 255 < Member.parameterCount parameters then
        .error (.malformed (.tooManyParameters member))
      else .ok (m.effect op (Member.parameterCount parameters)) := by
  unfold OpCode.callEffect
  rw [hsplit]
  simp only [isInstance_front, returnsVoid_front]
  by_cases hmany : 255 < Member.parameterCount parameters
  · rw [if_pos hmany, if_pos hmany]
  rw [if_neg hmany, if_neg hmany]
  have hpops := m.toNat_pops (hfits (Nat.le_of_not_lt hmany))
  unfold effect
  by_cases hnew : op = .newobj
  · simp [hnew, receiver]
  · rw [← hpops]
    simp [hnew, receiver, apply_ite UInt8.ofNat]

omit tail in
theorem unopened_front : '(' ∉ m.front := by
  have hunopened := m.unopened
  have hword : '(' ∉ instanceWord := by decide
  unfold front
  simp only [List.mem_append, not_or] at hunopened ⊢
  refine ⟨?_, hunopened.1.1⟩
  split
  · exact hword
  · simp

omit tail in
theorem unopened_qualifiedName : '(' ∉ m.qualifiedName := by
  have hunopened := m.unopened
  have hcolons : '(' ∉ "::".toList := by decide
  unfold qualifiedName
  simp only [List.mem_append, not_or] at hunopened ⊢
  exact ⟨⟨hunopened.1.2, hcolons⟩, hunopened.2⟩

omit tail in
theorem split?_text {member : String} {parameters : List Char}
    (hmember : member.toList = m.text parameters) :
    split? member.toList = some (m.front ++ ' ' :: m.qualifiedName, parameters) := by
  rw [hmember]
  refine split?_eq (fun h => ?_) parameters
  rcases List.mem_append.mp h with h | h
  · exact m.unopened_front h
  · rcases List.mem_cons.mp h with h | h
    · cases h
    · exact m.unopened_qualifiedName h

end Spelling

end Member

/-- The effect of a call follows the text of the member: `newobj` pops its parameters and pushes
the object, the other calls pop the receiver as well and push what is returned. More parameters
than a byte can count are refused. -/
theorem OpCode.callEffect_spelled {m : Member.Spelling} {types : List (List Char)}
    {parameters : List Char} {member : String} (hmember : member.toList = m.text parameters)
    (hlist : Member.ParameterList types parameters)
    (htypes : ∀ type ∈ types, Member.IsType type ∧ ¬Member.AllBlank type)
    (hreturn : m.returnType = "void".toList ∨ ¬Member.voidWord <+: m.returnType ++ [' ']) :
    let receiver (op : OpCode) := if m.isInstance ∨ op = .callvirt then 1 else 0
    let returned := if m.returnType = "void".toList then 0 else 1
    (types.length ≤ 255 → callEffect .newobj member = .ok ⟨types.length, 1⟩) ∧
      (∀ op, op = .call ∨ op = .callvirt → types.length + receiver op ≤ 255 →
        callEffect op member = .ok ⟨types.length + receiver op, returned⟩) ∧
      (255 < types.length → ∀ op, callEffect op member =
        .error (.malformed (.tooManyParameters member))) := by
  intro receiver returned
  have hcall : ∀ op : OpCode, m.Fits op types.length → callEffect op member =
      if 255 < types.length then .error (.malformed (.tooManyParameters member))
      else .ok (m.effect op types.length) := by
    rw [← hlist.parameterCount htypes]
    exact fun op => m.callEffect_of_split m.qualifiedName (m.split?_text hmember)
  have hvoid : Member.voidWord <+: m.returnType ++ [' '] ↔ m.returnType = "void".toList := by
    constructor
    · exact fun hprefix => hreturn.resolve_right fun h => h hprefix
    · intro h
      rw [h]
      decide
  refine ⟨fun hle => ?_, fun op hop hle => ?_, fun hlt op => ?_⟩
  · rw [hcall .newobj fun _ => hle, if_neg (Nat.not_lt_of_le hle)]
    rfl
  · have hnew : op ≠ .newobj := by rcases hop with rfl | rfl <;> decide
    have hreceiver : m.receiver op = receiver op := by simp [receiver, Member.Spelling.receiver, hnew]
    have hfits : m.Fits op types.length := fun _ => by rwa [hreceiver]
    rw [hcall op hfits, if_neg (by omega), Member.Spelling.effect, hreceiver]
    simp [returned, hnew, hvoid]
  · rw [hcall op fun hle => absurd hlt (Nat.not_lt_of_le hle), if_pos hlt]

/-- Commas inside of generic arguments, array bounds and the parameters of a pointer. -/
theorem OpCode.callEffect_spelled_nested :
    let member := "instance void C::M(class D<string, object>, int32[0...,0...] ,method void *(int32, int32))"
    callEffect .callvirt member = .ok ⟨4, 0⟩ ∧ callEffect .newobj member = .ok ⟨3, 1⟩ := by
  intro member
  let m : Member.Spelling := {
    isInstance := true
    returnType := "void".toList
    owner := "C".toList
    name := "M".toList
    starts := ⟨'v', rfl, by decide⟩
    instanceOnce := by decide
    unopened := by decide }
  have hnone : Member.AllBlank [] := fun c hc => by cases hc
  have hspace : Member.AllBlank [' '] := by decide
  have hlist : Member.ParameterList
      ["class D<string, object>".toList, "int32[0...,0...]".toList,
        "method void *(int32, int32)".toList] _ :=
    .cons hnone hnone (by decide) (.cons hspace hspace (by decide) (.last hnone hnone))
  obtain ⟨hnew, hcall, -⟩ := @callEffect_spelled m _ _ member (by decide) hlist
    (by decide +kernel) (.inl rfl)
  exact ⟨hcall .callvirt (.inr rfl) (by decide), hnew (by decide)⟩

end CilInstrument
