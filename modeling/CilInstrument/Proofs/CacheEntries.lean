import CilInstrument.Session.MethodCache

/- What a cache holds after a value was offered to it. A key that has a value keeps it, a
   key that has none takes the one offered, and no other key is touched; the keys are
   listed once each, so that the size counts them. -/
namespace CilInstrument.MethodCache

variable {α : Type}

theorem lookup_cons (entry : CacheKey × α) (rest : List (CacheKey × α)) (key : CacheKey) :
    (⟨entry :: rest⟩ : MethodCache α).lookup key =
      if key = entry.1 then some entry.2 else (⟨rest⟩ : MethodCache α).lookup key := by
  show List.lookup key (entry :: rest) = _
  rw [List.lookup_cons]
  by_cases h : key = entry.1
  · rw [beq_iff_eq.mpr h, if_pos h]
  · rw [beq_eq_false_iff_ne.mpr h, if_neg h]
    rfl

/-- The keys that have a value. -/
def keys (c : MethodCache α) : List CacheKey := c.entries.map (·.1)

theorem length_keys (c : MethodCache α) : c.keys.length = c.size := List.length_map _

theorem mem_keys_iff {c : MethodCache α} {key : CacheKey} :
    key ∈ c.keys ↔ ∃ value, c.lookup key = some value := by
  obtain ⟨entries⟩ := c
  induction entries with
  | nil => simp [keys, lookup]
  | cons entry rest ih =>
    rw [lookup_cons]
    show key ∈ entry.1 :: (⟨rest⟩ : MethodCache α).keys ↔ _
    rw [List.mem_cons]
    by_cases h : key = entry.1
    · simp [h]
    · simp [h, ih]

theorem not_mem_keys {c : MethodCache α} {key : CacheKey} (h : c.lookup key = none) :
    key ∉ c.keys := by
  rw [mem_keys_iff, h]
  rintro ⟨_, ⟨⟩⟩

theorem insertIfAbsent_of_some {c : MethodCache α} {key : CacheKey} {stored : α}
    (h : c.lookup key = some stored) (value : α) :
    c.insertIfAbsent key value = (stored, c) := by
  unfold insertIfAbsent
  rw [h]

theorem insertIfAbsent_of_none {c : MethodCache α} {key : CacheKey}
    (h : c.lookup key = none) (value : α) :
    c.insertIfAbsent key value = (value, ⟨(key, value) :: c.entries⟩) := by
  unfold insertIfAbsent
  rw [h]

/-- What is given back is the value that was there, or else the one offered. -/
theorem fst_insertIfAbsent (c : MethodCache α) (key : CacheKey) (value : α) :
    (c.insertIfAbsent key value).1 = (c.lookup key).getD value := by
  cases h : c.lookup key with
  | some stored => rw [insertIfAbsent_of_some h]; rfl
  | none => rw [insertIfAbsent_of_none h]; rfl

/-- The key has the value that is given back, the others have what they had. -/
theorem lookup_insertIfAbsent (c : MethodCache α) (key other : CacheKey) (value : α) :
    (c.insertIfAbsent key value).2.lookup other =
      if other = key then some (c.insertIfAbsent key value).1 else c.lookup other := by
  cases h : c.lookup key with
  | some stored =>
    rw [insertIfAbsent_of_some h]
    split
    · next heq => rw [heq, h]
    · rfl
  | none =>
    rw [insertIfAbsent_of_none h, lookup_cons]

/-- A value that is there stays. -/
theorem lookup_insertIfAbsent_of_some {c : MethodCache α} {key other : CacheKey} {value stored : α}
    (h : c.lookup other = some stored) :
    (c.insertIfAbsent key value).2.lookup other = some stored := by
  rw [lookup_insertIfAbsent]
  split
  · next heq =>
    rw [fst_insertIfAbsent, ← heq, h]
    rfl
  · exact h

theorem nodup_keys_insertIfAbsent {c : MethodCache α} (h : c.keys.Nodup) (key : CacheKey)
    (value : α) : (c.insertIfAbsent key value).2.keys.Nodup := by
  cases hlookup : c.lookup key with
  | some stored =>
    rw [insertIfAbsent_of_some hlookup]
    exact h
  | none =>
    rw [insertIfAbsent_of_none hlookup]
    exact List.nodup_cons.mpr ⟨not_mem_keys hlookup, h⟩

end CilInstrument.MethodCache
