import CilInstrument.Proofs.MemberText

/- Custom modifiers behind the return type of a member, as in `int32 modreq(X) C::M()`. They
   have parentheses of their own, and the parameters are taken to start at the first
   parenthesis of all, so what is counted as the list is the type of the first modifier and
   everything behind it. Up to the closing parenthesis of the last modifier the nesting goes
   down to -1; from there a comma of owner or name counts if the nesting of what stands in
   front of it is 1, and the commas of the list count as ever. So the modifiers leave the
   effect of a call as it is exactly if the list is not blank and there is no such comma
   (`OpCode.callEffect_modified`). -/
namespace CilInstrument

namespace Member

/-- A custom modifier of a return type. -/
structure Modifier where
  isRequired : Bool
  type : List Char

namespace Modifier

def word (x : Modifier) : List Char := if x.isRequired then "modreq".toList else "modopt".toList

def text (x : Modifier) : List Char := ' ' :: x.word ++ '(' :: (x.type ++ [')'])

theorem unopened_word (x : Modifier) : '(' ∉ ' ' :: x.word := by
  unfold word
  split <;> decide

variable {x : Modifier}

/-- A modifier leaves the nesting as it was, -/
theorem nesting_text (h : IsType x.type) : nesting x.text = 0 := by
  have hword : nesting (' ' :: x.word) = 0 := by
    unfold word
    split <;> rfl
  rw [text, nesting_append, hword, nesting_cons, nesting_append, h.nesting]
  rfl

/-- and behind another one it adds nothing to the count. -/
theorem topLevelCommas_text (h : IsType x.type) : topLevelCommas (-1) x.text = 0 := by
  have hword : nesting (' ' :: x.word) = 0 ∧ ',' ∉ ' ' :: x.word := by
    unfold word
    split <;> decide
  rw [text, topLevelCommas_append, topLevelCommas_of_not_mem hword.2, hword.1, topLevelCommas_cons]
  show 0 + (0 + topLevelCommas 0 (x.type ++ [')'])) = 0
  rw [topLevelCommas_append, h.topLevelCommas, h.nesting]
  rfl

end Modifier

theorem nesting_modifiers {modifiers : List Modifier} (h : ∀ x ∈ modifiers, IsType x.type) :
    nesting (modifiers.flatMap Modifier.text) = 0 ∧
      topLevelCommas (-1) (modifiers.flatMap Modifier.text) = 0 := by
  induction modifiers with
  | nil => exact ⟨rfl, rfl⟩
  | cons x rest ih =>
    obtain ⟨hx, hrest⟩ := List.forall_mem_cons.mp h
    obtain ⟨hnesting, hcommas⟩ := ih hrest
    rw [List.flatMap_cons, nesting_append, topLevelCommas_append, Modifier.nesting_text hx,
      Modifier.topLevelCommas_text hx, hnesting]
    exact ⟨rfl, (Nat.zero_add _).trans hcommas⟩

namespace Spelling

/-- The member with modifiers behind its return type. -/
def modifiedText (m : Spelling) (modifiers : List Modifier) (parameters : List Char) : List Char :=
  m.front ++ modifiers.flatMap Modifier.text ++ ' ' :: m.qualifiedName ++ '(' :: (parameters ++ [')'])

/-- What is taken for the parameters starts inside of the first modifier. -/
theorem split?_modifiedText (m : Spelling) (x : Modifier) (more : List Modifier)
    (parameters : List Char) :
    split? (m.modifiedText (x :: more) parameters) = some (m.front ++ ' ' :: x.word,
      x.type ++ ')' :: (more.flatMap Modifier.text ++ ' ' :: m.qualifiedName ++ '(' :: parameters)) := by
  have hfront : '(' ∉ m.front ++ ' ' :: x.word :=
    fun h => (List.mem_append.mp h).elim m.unopened_front x.unopened_word
  rw [← split?_eq hfront]
  unfold modifiedText Modifier.text
  simp

/-- The count goes on at a nesting of -1 behind the modifiers. -/
theorem topLevelCommas_behind (m : Spelling) {x : Modifier} {more : List Modifier}
    (hx : IsType x.type) (hmore : ∀ y ∈ more, IsType y.type) (parameters : List Char) :
    topLevelCommas 0 (x.type ++ ')' ::
        (more.flatMap Modifier.text ++ ' ' :: m.qualifiedName ++ '(' :: parameters)) =
      topLevelCommas (-1) m.qualifiedName + topLevelCommas (nesting m.qualifiedName) parameters := by
  obtain ⟨hnesting, hcommas⟩ := nesting_modifiers hmore
  rw [topLevelCommas_append, hx.topLevelCommas, hx.nesting, topLevelCommas_cons]
  show 0 + (0 + topLevelCommas (-1) _) = _
  rw [List.append_assoc, topLevelCommas_append, hcommas, hnesting, List.cons_append, topLevelCommas_cons]
  show 0 + (0 + (0 + (0 + topLevelCommas (-1) _))) = _
  rw [topLevelCommas_append, topLevelCommas_cons]
  show 0 + (0 + (0 + (0 + (_ + (0 + topLevelCommas (-1 + nesting m.qualifiedName + 1) _))))) = _
  rw [show -1 + nesting m.qualifiedName + 1 = nesting m.qualifiedName by omega]
  omega

/-- So many parameters are counted: with the modifiers, the list is never taken for a blank one. -/
theorem split?_modified (m : Spelling) {modifiers : List Modifier} (hne : modifiers ≠ [])
    (htypes : ∀ x ∈ modifiers, IsType x.type) (parameters : List Char) :
    ∃ tail counted, split? (m.modifiedText modifiers parameters) = some (m.front ++ ' ' :: tail, counted) ∧
      parameterCount counted = 1 + (topLevelCommas (-1) m.qualifiedName +
        topLevelCommas (nesting m.qualifiedName) parameters) := by
  obtain ⟨x, more, rfl⟩ := List.exists_cons_of_ne_nil hne
  obtain ⟨hx, hmore⟩ := List.forall_mem_cons.mp htypes
  refine ⟨_, _, m.split?_modifiedText x more parameters, ?_⟩
  have hnotBlank : ¬AllBlank (x.type ++ ')' ::
      (more.flatMap Modifier.text ++ ' ' :: m.qualifiedName ++ '(' :: parameters)) := by
    intro h
    have hclosing := h ')' (List.mem_append_right _ List.mem_cons_self)
    revert hclosing
    decide
  rw [parameterCount_of_not_allBlank hnotBlank, m.topLevelCommas_behind hx hmore]

variable {m : Spelling} {op : OpCode}

/-- The effect of a call, or nothing if too many parameters are counted. -/
theorem toOption_callEffect {member : String} {tail parameters : List Char} {count : Nat}
    (hsplit : split? member.toList = some (m.front ++ ' ' :: tail, parameters))
    (hcount : parameterCount parameters = count) (hfits : m.Fits op count) :
    (op.callEffect member).toOption = if 255 < count then none else some (m.effect op count) := by
  subst hcount
  rw [m.callEffect_of_split tail hsplit hfits]
  split <;> rfl

/-- Different counts have different effects, unless both are too large. -/
theorem effect_eq_iff {n k : Nat} :
    (if 255 < n then none else some (m.effect op n)) =
        (if 255 < k then none else some (m.effect op k)) ↔ n = k ∨ 255 < n ∧ 255 < k := by
  by_cases hn : 255 < n
  · by_cases hk : 255 < k
    · simp [hn, hk]
    · simp [hn, hk]
      omega
  · by_cases hk : 255 < k
    · simp [hn, hk]
      omega
    · simp [hn, hk, effect]

end Spelling

end Member

/-- With modifiers behind the return type, one parameter is counted in any case, and one more for
every comma directly inside a single bracket of owner or name. As far as a byte counts what is
popped, the effect of a call is the one without the modifiers exactly if the list is not blank
and there is no such comma, or if both are refused for a list that is too long on its own. -/
theorem OpCode.callEffect_modified {m : Member.Spelling} {modifiers : List Member.Modifier}
    {parameters : List Char} {member modified : String}
    (hmember : member.toList = m.text parameters)
    (hmodified : modified.toList = m.modifiedText modifiers parameters) (hne : modifiers ≠ [])
    (htypes : ∀ x ∈ modifiers, Member.IsType x.type) (hclosed : Member.nesting m.qualifiedName = 0)
    (op : OpCode) :
    let listed := Member.parameterCount parameters
    let counted := 1 + (Member.topLevelCommas (-1) m.qualifiedName +
      Member.topLevelCommas 0 parameters)
    (m.Fits op listed → (op.callEffect member).toOption =
      if 255 < listed then none else some (m.effect op listed)) ∧
    (m.Fits op counted → (op.callEffect modified).toOption =
      if 255 < counted then none else some (m.effect op counted)) ∧
    (m.Fits op listed → m.Fits op counted →
      ((op.callEffect modified).toOption = (op.callEffect member).toOption ↔
        (¬Member.AllBlank parameters ∧
          ∀ front, front ++ [','] <+: m.qualifiedName → Member.nesting front ≠ 1) ∨
        255 < listed)) := by
  intro listed counted
  have hplain : m.Fits op listed → (op.callEffect member).toOption =
      if 255 < listed then none else some (m.effect op listed) :=
    Member.Spelling.toOption_callEffect (m.split?_text hmember) rfl
  have hmod : m.Fits op counted → (op.callEffect modified).toOption =
      if 255 < counted then none else some (m.effect op counted) := by
    obtain ⟨tail, taken, hsplit, hcount⟩ := m.split?_modified hne htypes parameters
    rw [← hmodified] at hsplit
    rw [hclosed] at hcount
    exact Member.Spelling.toOption_callEffect hsplit hcount
  refine ⟨hplain, hmod, fun hlistedFits hcountedFits => ?_⟩
  have hcommas : Member.topLevelCommas (-1) m.qualifiedName = 0 ↔
      ∀ front, front ++ [','] <+: m.qualifiedName → Member.nesting front ≠ 1 := by
    rw [Member.topLevelCommas_eq_zero_iff]
    exact forall_congr' fun front => forall_congr' fun _ => by omega
  rw [hplain hlistedFits, hmod hcountedFits, Member.Spelling.effect_eq_iff, ← hcommas]
  by_cases hblank : Member.AllBlank parameters
  · have hlisted : listed = 0 := Member.parameterCount_of_allBlank hblank
    simp only [hblank, not_true_eq_false, false_and, false_or]
    omega
  · have hlisted : listed = 1 + Member.topLevelCommas 0 parameters :=
      Member.parameterCount_of_not_allBlank hblank
    simp only [hblank, not_false_eq_true, true_and]
    omega

/-- Two modifiers in front of a list of two parameters, and an owner with one type argument. -/
theorem OpCode.callEffect_modified_setter :
    (callEffect .callvirt
        "instance void modreq([mscorlib]E`1<int32, object>) modopt(X) C<int32>::set(int32, string)").toOption =
      (callEffect .callvirt "instance void C<int32>::set(int32, string)").toOption ∧
    (callEffect .callvirt "instance void C<int32>::set(int32, string)").toOption = some ⟨3, 0⟩ := by
  let m : Member.Spelling := {
    isInstance := true
    returnType := "void".toList
    owner := "C<int32>".toList
    name := "set".toList
    starts := ⟨'v', rfl, by decide⟩
    instanceOnce := by decide
    unopened := by decide }
  let modifiers : List Member.Modifier :=
    [⟨true, "[mscorlib]E`1<int32, object>".toList⟩, ⟨false, "X".toList⟩]
  have hmember : "instance void C<int32>::set(int32, string)".toList =
      m.text "int32, string".toList := by decide
  have hmodified :
      "instance void modreq([mscorlib]E`1<int32, object>) modopt(X) C<int32>::set(int32, string)".toList =
        m.modifiedText modifiers "int32, string".toList := by decide
  obtain ⟨hplain, -, hsame⟩ := callEffect_modified hmember hmodified (by decide)
    (by decide +kernel) (by decide) .callvirt
  have hlisted : m.Fits .callvirt (Member.parameterCount "int32, string".toList) := by decide
  have hcounted : m.Fits .callvirt (1 + (Member.topLevelCommas (-1) m.qualifiedName +
      Member.topLevelCommas 0 "int32, string".toList)) := by decide
  refine ⟨(hsame hlisted hcounted).mpr (.inl ⟨by decide, fun front hfront => ?_⟩),
    (hplain hlisted).trans (by decide)⟩
  exact absurd (hfront.subset (List.mem_append_right front List.mem_cons_self)) (by decide)

/-- A modifier in front of an empty list is counted as a parameter, and so is the second type
argument of the owner. -/
theorem OpCode.callEffect_of_modifiedReturn :
    (callEffect .call "int32 modreq(X) C::M()").toOption = some ⟨1, 1⟩ ∧
      (callEffect .call "int32 C::M()").toOption = some ⟨0, 1⟩ ∧
      (callEffect .call "int32 modreq(X) D<string,object>::M(int32)").toOption = some ⟨2, 1⟩ ∧
      (callEffect .call "int32 D<string,object>::M(int32)").toOption = some ⟨1, 1⟩ := by
  refine ⟨?_, ?_, ?_, ?_⟩ <;> decide +kernel

end CilInstrument
