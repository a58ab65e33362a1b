import Std.Data.String.ToNat
import CilInstrument.Proofs.CacheClients
import CilInstrument.Proofs.Calls

/- What a cached lookup names. The first request for a key decides what all requests for it
   emit, and a key is one text, glued from class, method and number. The number can always be
   told from the rest; where the class ends can not, if a name has a dot in it: moving the end
   of the class in front of the method (`MethodLookup.Regroups`) gives the same key. So a
   request emits the names that it was given unless the first request with its key was for a
   regrouped method (`CachedRequest.emitted_lookup`). -/
namespace CilInstrument

open Step

/-- Two ways to cut one list in two at the same element: the cuts are at the same place, or
one part reaches further than the other. -/
theorem append_cons_eq_iff {α : Type} {a : α} {front front' back back' : List α} :
    front ++ a :: back = front' ++ a :: back' ↔
      (front = front' ∧ back = back') ∨
      (∃ middle, front = front' ++ a :: middle ∧ back' = middle ++ a :: back) ∨
      ∃ middle, front' = front ++ a :: middle ∧ back = middle ++ a :: back' := by
  constructor
  · intro h
    rcases List.append_eq_append_iff.mp h with ⟨more, hfront, hback⟩ | ⟨more, hfront, hback⟩
    · cases more with
      | nil =>
        rw [List.append_nil] at hfront
        exact .inl ⟨hfront.symm, (List.cons.inj hback).2⟩
      | cons first middle =>
        obtain ⟨rfl, hmiddle⟩ := List.cons.inj hback
        exact .inr (.inr ⟨middle, hfront, hmiddle⟩)
    · cases more with
      | nil =>
        rw [List.append_nil] at hfront
        exact .inl ⟨hfront, (List.cons.inj hback).2.symm⟩
      | cons first middle =>
        obtain ⟨rfl, hmiddle⟩ := List.cons.inj hback
        exact .inr (.inl ⟨middle, hfront, hmiddle⟩)
  · rintro (⟨rfl, rfl⟩ | ⟨middle, rfl, rfl⟩ | ⟨middle, rfl, rfl⟩)
    · rfl
    · simp
    · simp

/-! Keys. -/

namespace MethodLookup

/-- Class and method, as a key spells them. -/
def dotted (l : MethodLookup) : String := l.className ++ "." ++ l.methodName

/-- `l` has the end of its class at the front of its method in `l'`. -/
def Regroups (l l' : MethodLookup) : Prop :=
  ∃ middle, l.className = l'.className ++ "." ++ middle ∧
    l'.methodName = middle ++ "." ++ l.methodName

/-- Class and method are the same. -/
def SameNames (l l' : MethodLookup) : Prop :=
  l.className = l'.className ∧ l.methodName = l'.methodName

theorem toList_dotted (l : MethodLookup) :
    l.dotted.toList = l.className.toList ++ '.' :: l.methodName.toList := by
  simp [dotted]

theorem regroups_iff {l l' : MethodLookup} :
    l.Regroups l' ↔ ∃ middle, l.className.toList = l'.className.toList ++ '.' :: middle ∧
      l'.methodName.toList = middle ++ '.' :: l.methodName.toList := by
  constructor
  · rintro ⟨middle, hclass, hmethod⟩
    refine ⟨middle.toList, ?_, ?_⟩
    · rw [hclass]
      simp
    · rw [hmethod]
      simp
  · rintro ⟨middle, hclass, hmethod⟩
    refine ⟨String.ofList middle, String.ext ?_, String.ext ?_⟩
    · rw [hclass]
      simp
    · rw [hmethod]
      simp

/-- Two methods are spelled alike only if they are named alike, or one regroups the other. -/
theorem dotted_eq_iff {l l' : MethodLookup} :
    l.dotted = l'.dotted ↔ l.SameNames l' ∨ l.Regroups l' ∨ l'.Regroups l := by
  rw [← String.toList_inj, toList_dotted, toList_dotted, append_cons_eq_iff, regroups_iff,
    regroups_iff, SameNames, String.toList_inj, String.toList_inj]

/-- A regrouped class is longer. -/
theorem Regroups.className_ne {l l' : MethodLookup} (h : l.Regroups l') :
    l.className ≠ l'.className := by
  obtain ⟨middle, hclass, -⟩ := regroups_iff.mp h
  intro heq
  rw [heq] at hclass
  have hlength := congrArg List.length hclass
  rw [List.length_append, List.length_cons] at hlength
  omega

/-- Methods that are spelled alike are named alike unless one regroups the other. -/
theorem sameNames_iff_of_dotted {l l' : MethodLookup} (h : l.dotted = l'.dotted) :
    l.SameNames l' ↔ ¬(l.Regroups l' ∨ l'.Regroups l) := by
  constructor
  · rintro hsame (hregroups | hregroups)
    · exact hregroups.className_ne hsame.1
    · exact hregroups.className_ne hsame.1.symm
  · exact (dotted_eq_iff.mp h).resolve_right

/-- The method with the shorter class has a dot in its name. -/
theorem Regroups.dot_mem {l l' : MethodLookup} (h : l.Regroups l') :
    '.' ∈ l'.methodName.toList := by
  obtain ⟨middle, -, hmethod⟩ := regroups_iff.mp h
  rw [hmethod]
  exact List.mem_append_right _ List.mem_cons_self

end MethodLookup

namespace CacheKey

theorem toList_text (l : MethodLookup) (functionId : Nat) :
    (ofMethod l.className l.methodName functionId).text.toList =
      l.dotted.toList ++ '_' :: Nat.toDigits 10 functionId := by
  simp [ofMethod, MethodLookup.dotted, toString]

theorem underscore_not_mem_digits (n : Nat) : '_' ∉ Nat.toDigits 10 n := fun h =>
  absurd (Nat.isDigit_of_mem_toDigits (by decide) (by decide) h) (by decide)

/-- The number stands behind the last underscore, so it can be told from the names. -/
theorem ofMethod_eq_iff {l l' : MethodLookup} {functionId functionId' : Nat} :
    ofMethod l.className l.methodName functionId =
        ofMethod l'.className l'.methodName functionId' ↔
      functionId = functionId' ∧ l.dotted = l'.dotted := by
  constructor
  · intro h
    have htext := congrArg (fun key => key.text.toList) h
    simp only [toList_text] at htext
    have hdigits : ∀ {middle rest : List Char} {n : Nat},
        Nat.toDigits 10 n = middle ++ '_' :: rest → False := fun heq =>
      underscore_not_mem_digits _ (heq ▸ List.mem_append_right _ List.mem_cons_self)
    rcases append_cons_eq_iff.mp htext with ⟨hfront, hback⟩ | ⟨_, -, hback⟩ | ⟨_, -, hback⟩
    · refine ⟨Nat.repr_inj.mp (String.ext ?_), String.ext hfront⟩
      rw [Nat.toList_repr, Nat.toList_repr, hback]
    · exact (hdigits hback).elim
    · exact (hdigits hback).elim
  · rintro ⟨rfl, hdotted⟩
    refine congrArg CacheKey.mk (String.ext ?_)
    show (ofMethod l.className l.methodName functionId).text.toList =
      (ofMethod l'.className l'.methodName functionId).text.toList
    rw [toList_text, toList_text, hdotted]

end CacheKey

/-! String literals in the code. -/

section
variable {σ : Type} [Resolver σ]

/-- The code between two emissions loads these strings, with the tokens that the host gives for
them one after the other. -/
inductive Loads : List String → Emission σ → Emission σ → Prop
  | nil {s : Emission σ} : Loads [] s s
  | cons {text : String} {rest : List String} {s t : Emission σ} {token : Token} {host : σ}
    {b : Builder} {effect : StackEffect}
    (htoken : (Resolver.stringToken text).run s.host = .ok token host)
    (hitem : b.code.items = s.builder.code.items.push (.instruction .ldstr (.token token) effect))
    (hrest : Loads rest ⟨host, b⟩ t) : Loads (text :: rest) s t

namespace Emit

theorem loads_of_loadString {text : String} {rest : List String} {s mid t : Emission σ}
    (h : (loadString text).run s = .ok () mid) (hrest : Loads rest mid t) :
    Loads (text :: rest) s t := by
  obtain ⟨token, asked, hask, hbuild⟩ := run_bind_ok.mp h
  obtain ⟨hhost, hinstruction⟩ := build_ok.mp hbuild
  obtain ⟨effect, _, heffect, hemit⟩ := run_bind_ok.mp hinstruction
  obtain ⟨-, rfl⟩ := run_ofExcept_ok.mp heffect
  obtain ⟨-, -, hbuilder⟩ := Build.emit_ok.mp hemit
  have hsame := builder_of_ask_ok hask
  have htoken : (Resolver.stringToken text).run s.host = .ok token asked.host := by
    rw [run_ask] at hask
    cases hrun : (Resolver.stringToken text).run s.host with
    | ok a host =>
      rw [hrun] at hask
      cases hask
      rfl
    | error e host =>
      rw [hrun] at hask
      cases hask
  obtain ⟨host, b⟩ := mid
  dsimp only at hhost hbuilder
  subst hhost
  have hitem : b.code.items = s.builder.code.items.push
      (.instruction .ldstr (.token token) effect) := by
    rw [hbuilder, hsame]
    rfl
  exact .cons htoken hitem hrest

/-- Behind its strings a cached lookup only adds code. -/
theorem cachedLookup_loads {helper : String} {key : CacheKey} {found : MethodLookup}
    {argumentTypes : Option (Emit σ Unit)}
    (hmade : ∀ types ∈ argumentTypes, MadeOf Elementary types) {s t : Emission σ}
    (h : (cachedLookup helper key found argumentTypes).run s = .ok () t) :
    ∃ mid, Loads [key.text, found.assemblyPath, found.className, found.methodName] s mid ∧
      mid.builder.code.items.toList <+: t.builder.code.items.toList := by
  obtain ⟨_, first, hkey, h⟩ := run_bind_ok.mp h
  obtain ⟨_, second, hpath, h⟩ := run_bind_ok.mp h
  obtain ⟨_, third, hclass, h⟩ := run_bind_ok.mp h
  obtain ⟨_, mid, hmethod, h⟩ := run_bind_ok.mp h
  have hloads := loads_of_loadString hkey (loads_of_loadString hpath
    (loads_of_loadString hclass (loads_of_loadString hmethod .nil)))
  refine ⟨mid, hloads, ?_⟩
  have hcall : MadeOf Elementary (call .call helper : Emit σ Unit) :=
    Action.perform_elementary (.call .call helper)
  rw [← after_of_ok h]
  refine MadeOf.after
    (R := fun s t : Emission σ => s.builder.code.items.toList <+: t.builder.code.items.toList)
    (fun _ => List.prefix_rfl) .trans
    (fun _ _ (hx : Elementary _) s => Change.items_prefix (hx.change s)) ?_ mid
  cases argumentTypes with
  | some types => exact .bind (hmade types rfl) fun _ => hcall
  | none => exact .bind (Action.perform_elementary (.plain .ldnull)) fun _ => hcall

end Emit

end

/-! Requests. -/

namespace MethodCache

/-- A value that is there is found, any other one is stored. -/
theorem run_getOrResolve_pure {α : Type} (key : CacheKey) (value : α) (c : MethodCache α) :
    (getOrResolve key (pure value) : Step (MethodCache α) α).run c =
      .ok (c.insertIfAbsent key value).1 (c.insertIfAbsent key value).2 := by
  rw [run_getOrResolve]
  cases h : c.lookup key with
  | some stored => rw [insertIfAbsent_of_some h]
  | none => rfl

end MethodCache

/-- A request for a cached lookup, by a session that may be any one and may have done anything
before, except that caching is not switched off. -/
structure CachedRequest (σ : Type) where
  session : Session σ
  enabled : session.target.config.disableCache = false
  wanted : MethodLookup
  functionId : Nat
  argumentTypes : Option (Block σ)

namespace CachedRequest

variable {σ : Type} [Resolver σ]

def key (r : CachedRequest σ) : CacheKey :=
  .ofMethod r.wanted.className r.wanted.methodName r.functionId

/-- The session with the cache as the requests before left it. -/
def start (r : CachedRequest σ) (c : MethodCache MethodLookup) : Session σ :=
  { r.session with shared := { r.session.shared with cache := c } }

def perform (r : CachedRequest σ) (c : MethodCache MethodLookup) :
    EStateM.Result Error (Session σ) Unit :=
  (Instrument.loadMethod r.wanted r.functionId (r.argumentTypes.map (·.step)) true).run (r.start c)

/-- The session behind a request, whether it went through or not. -/
def behind (r : CachedRequest σ) (c : MethodCache MethodLookup) : Session σ :=
  (Instrument.loadMethod r.wanted r.functionId (r.argumentTypes.map (·.step)) true).after
    (r.start c)

section
variable (r : CachedRequest σ) (c : MethodCache MethodLookup)

/-- A request registers its method if its key has none, and emits what the key has then. -/
theorem perform_eq : ∃ log,
    r.perform c = (Instrument.emit (Emit.cachedLookup r.session.target.config.cacheHelper r.key
      (c.insertIfAbsent r.key r.wanted).1 (r.argumentTypes.map (·.step)))).run
        { r.session with shared := ⟨(c.insertIfAbsent r.key r.wanted).2, log⟩ } := by
  let stored := c.insertIfAbsent r.key r.wanted
  have hregister : (Instrument.register r.key r.wanted).run (r.start c) =
      .ok stored.1 (r.start stored.2) := by
    rw [Instrument.register, Instrument.run_withCache, MethodCache.run_getOrResolve_pure]
    rfl
  have htarget : (r.start c).target.config = r.session.target.config := rfl
  unfold key at hregister
  unfold perform Instrument.loadMethod
  simp only [EStateM.run_bind, Instrument.run_target, htarget, r.enabled, Bool.not_true,
    Bool.or_self, Bool.false_eq_true, if_false, hregister]
  split
  · simp only [EStateM.run_bind, Instrument.run_log]
    exact ⟨_, rfl⟩
  · simp only [EStateM.run_bind, Instrument.run_log]
    exact ⟨_, rfl⟩

/-- The method is registered also if the code can not be emitted. -/
theorem cache_behind : (r.behind c).shared.cache = (c.insertIfAbsent r.key r.wanted).2 := by
  obtain ⟨log, hperform⟩ := r.perform_eq c
  unfold perform at hperform
  unfold behind Step.after
  rw [hperform, Instrument.run_emit]
  split
  · next h =>
    split at h
    · cases h
      rfl
    · cases h
  · next h =>
    split at h
    · cases h
    · cases h
      rfl

/-- The code of a request begins with the loads of its key and of what the lookup names. -/
def Names (found : MethodLookup) (t : Session σ) : Prop :=
  ∃ mid, Loads [r.key.text, found.assemblyPath, found.className, found.methodName]
      r.session.emission mid ∧
    mid.builder.code.items.toList <+: t.builder.code.items.toList

theorem names_of_perform {t : Session σ} (h : r.perform c = .ok () t) :
    r.Names (c.insertIfAbsent r.key r.wanted).1 t := by
  obtain ⟨log, hperform⟩ := r.perform_eq c
  rw [h, Instrument.run_emit] at hperform
  have hmade : ∀ types ∈ r.argumentTypes.map (·.step), MadeOf Emit.Elementary types := by
    intro types htypes
    obtain ⟨block, -, rfl⟩ := Option.map_eq_some_iff.mp htypes
    exact block.made
  split at hperform
  · next _ emission hrun =>
    cases hperform
    exact Emit.cachedLookup_loads hmade hrun
  · cases hperform

end

/-- The cache behind a row of requests. -/
def served : List (CachedRequest σ) → MethodCache MethodLookup → MethodCache MethodLookup
  | [], c => c
  | r :: rest, c => served rest (r.behind c).shared.cache

theorem served_snoc (before : List (CachedRequest σ)) (r : CachedRequest σ)
    (c : MethodCache MethodLookup) :
    served (before ++ [r]) c = ((served before c).insertIfAbsent r.key r.wanted).2 := by
  induction before generalizing c with
  | nil => exact r.cache_behind c
  | cons q rest ih => exact ih (q.behind c).shared.cache

/-- A key that has no value has, behind some requests, the method of the first one for it. -/
theorem lookup_served (requests : List (CachedRequest σ)) (c : MethodCache MethodLookup)
    (key : CacheKey) :
    (served requests c).lookup key =
      (c.lookup key).or ((requests.find? (·.key == key)).map (·.wanted)) := by
  induction requests generalizing c with
  | nil => simp [served]
  | cons r rest ih =>
    rw [served, ih, cache_behind, MethodCache.lookup_insertIfAbsent,
      MethodCache.fst_insertIfAbsent, List.find?_cons]
    by_cases hkey : key = r.key
    · subst hkey
      cases c.lookup r.key <;> simp
    · have hne : (r.key == key) = false := by simp [Ne.symm hkey]
      simp [hkey, hne]

/-- What a request finds: the method of the first one with its key, itself included. -/
theorem exists_first (before : List (CachedRequest σ)) (r : CachedRequest σ) :
    ∃ first, (before ++ [r]).find? (·.key == r.key) = some first ∧ first.key = r.key ∧
      ((served before .empty).insertIfAbsent r.key r.wanted).1 = first.wanted := by
  have hstored := lookup_served before .empty r.key
  rw [show (MethodCache.empty : MethodCache MethodLookup).lookup r.key = none from rfl,
    Option.none_or] at hstored
  cases hfind : before.find? (·.key == r.key) with
  | none =>
    refine ⟨r, by simp [List.find?_append, hfind], rfl, ?_⟩
    rw [MethodCache.fst_insertIfAbsent, hstored, hfind]
    rfl
  | some first =>
    refine ⟨first, by simp [List.find?_append, hfind], by simpa using List.find?_some hfind, ?_⟩
    rw [MethodCache.fst_insertIfAbsent, hstored, hfind]
    rfl

omit [Resolver σ] in
/-- Two requests have one key only if they ask for methods of the same number that are spelled
alike. -/
theorem key_eq_iff {r r' : CachedRequest σ} :
    r.key = r'.key ↔ r.functionId = r'.functionId ∧ r.wanted.dotted = r'.wanted.dotted :=
  CacheKey.ofMethod_eq_iff

/-- Requests of any sessions for any methods, one after the other, with a cache that starts
empty. A request emits what the first request with its key asked for, which may be another
assembly path; the names are those that it was given exactly if neither method regroups the
other. Two requests share a key exactly if their numbers are the same and their names are, or one
regroups the other's; among methods without a dot in their names none does. -/
theorem emitted_lookup (before : List (CachedRequest σ)) (r : CachedRequest σ) :
    ∃ first, (before ++ [r]).find? (·.key == r.key) = some first ∧
      (∀ t, r.perform (served before .empty) = .ok () t → r.Names first.wanted t) ∧
      (∃ log, r.perform (served before .empty) =
        (Instrument.emit (Emit.cachedLookup r.session.target.config.cacheHelper r.key
          first.wanted (r.argumentTypes.map (·.step)))).run
            { r.session with shared := ⟨served (before ++ [r]) .empty, log⟩ }) ∧
      (first.wanted.SameNames r.wanted ↔
        ¬(first.wanted.Regroups r.wanted ∨ r.wanted.Regroups first.wanted)) ∧
      (∀ other : CachedRequest σ, other.key = r.key ↔ other.functionId = r.functionId ∧
        (other.wanted.SameNames r.wanted ∨ other.wanted.Regroups r.wanted ∨
          r.wanted.Regroups other.wanted)) ∧
      ((∀ q ∈ before ++ [r], '.' ∉ q.wanted.methodName.toList) →
        first.wanted.SameNames r.wanted) := by
  obtain ⟨first, hfind, hkey, hstored⟩ := exists_first before r
  have hdotted : first.wanted.dotted = r.wanted.dotted := (key_eq_iff.mp hkey).2
  refine ⟨first, hfind, ?_, ?_, MethodLookup.sameNames_iff_of_dotted hdotted, ?_, ?_⟩
  · intro t hperform
    rw [← hstored]
    exact r.names_of_perform _ hperform
  · rw [← hstored, served_snoc]
    exact r.perform_eq _
  · intro other
    rw [key_eq_iff, MethodLookup.dotted_eq_iff]
  · intro hplain
    rw [MethodLookup.sameNames_iff_of_dotted hdotted]
    rintro (hregroups | hregroups)
    · exact hplain r (by simp) hregroups.dot_mem
    · exact hplain first (List.mem_of_find?_eq_some hfind) hregroups.dot_mem

end CachedRequest

/-! Two methods that regroup each other. -/

/-- A host that has tokens for some strings, by their places. -/
structure Literals where
  texts : List String
  deriving DecidableEq

namespace Literals

def token (place : Nat) : Token := ⟨UInt32.ofNat (0x70 * 0x1000000 + place + 1)⟩

instance : Resolver Literals where
  stringToken text := do
    match (← get).texts.idxOf? text with
    | some place => return token place
    | none => throw (.unresolvedName text)
  typeToken _ := pure ⟨0x01000001⟩
  memberToken _ := pure ⟨0x0A000001⟩
  typeSpecToken _ := pure ⟨0x1B000001⟩
  typeSignature _ := pure [0x1C]

theorem stringToken_ok {text : String} {host host' : Literals} {t : Token}
    (h : (Resolver.stringToken text : Ask Literals Token).run host = .ok t host') :
    host' = host ∧ ∃ place, host.texts.idxOf? text = some place ∧ t = token place := by
  change (do
    match (← get).texts.idxOf? text with
    | some place => return token place
    | none => throw (.unresolvedName text) : Ask Literals Token).run host = _ at h
  rw [EStateM.run_bind, EStateM.run_get] at h
  cases hplace : host.texts.idxOf? text with
  | some place =>
    simp only [hplace] at h
    cases h
    exact ⟨rfl, place, rfl, rfl⟩
  | none =>
    simp only [hplace] at h
    cases h

/-- Strings that are loaded are among those of the host, and their loads stay in the code. -/
theorem mem_of_loads {texts : List String} {s t : Emission Literals} (h : Loads texts s t) :
    (∀ item ∈ s.builder.code.items, item ∈ t.builder.code.items) ∧
    ∀ text ∈ texts, ∃ place effect, s.host.texts.idxOf? text = some place ∧
      .instruction .ldstr (.token (token place)) effect ∈ t.builder.code.items := by
  induction h with
  | nil => exact ⟨fun _ h => h, fun _ h => absurd h List.not_mem_nil⟩
  | @cons text rest s t loaded host b effect htoken hitem hrest ih =>
    obtain ⟨rfl, place, hplace, rfl⟩ := stringToken_ok htoken
    obtain ⟨hstay, hothers⟩ := ih
    simp only [hitem, Array.mem_push] at hstay
    refine ⟨fun item h => hstay item (.inl h), fun other hother => ?_⟩
    rcases List.mem_cons.mp hother with rfl | hother
    · exact ⟨place, effect, hplace, hstay _ (.inr rfl)⟩
    · exact hothers other hother

end Literals

namespace CachedRequest

def tracerLiterals : Literals :=
  ⟨["Sample.Tracer.Enter_1", "sample.dll", "Sample.Tracer", "Enter", "Sample", "Tracer.Enter"]⟩

/-- A request of a session that has not done anything. -/
def ofFresh (wanted : MethodLookup) : CachedRequest Literals where
  session := {
    target := ⟨⟨false, false, "object Cache::Get(a, b, c, d, e)"⟩, "T::M", .tiny,
      ⟨⟨0x03⟩, 8, 1, .null⟩, [0x2A], ⟨false, false, false, 0, ⟨[], false, .void, [0x01], [0x01]⟩, []⟩⟩
    locals := .empty
    emission := ⟨tracerLiterals, .start .empty⟩
    shared := .empty }
  enabled := rfl
  wanted
  functionId := 1
  argumentTypes := none

/-- The method `Enter` of the class `Sample.Tracer`. -/
def enter : CachedRequest Literals := ofFresh ⟨"sample.dll", "Sample.Tracer", "Enter"⟩

/-- The method `Tracer.Enter` of the class `Sample`, which implements an interface. -/
def explicitEnter : CachedRequest Literals := ofFresh ⟨"sample.dll", "Sample", "Tracer.Enter"⟩

/-- Behind a request for `Enter`, one for `Tracer.Enter` goes through and names the former,
whose class is another one. -/
theorem explicitEnter_renamed :
    ∃ t, explicitEnter.perform (served [enter] .empty) = .ok () t ∧
      explicitEnter.Names enter.wanted t ∧
      ∀ assemblyPath, ¬explicitEnter.Names ⟨assemblyPath, "Sample", "Tracer.Enter"⟩ t := by
  have hsucceeds : (Instrument.loadMethod explicitEnter.wanted explicitEnter.functionId
      (explicitEnter.argumentTypes.map (·.step)) true).succeeds
        (explicitEnter.start (served [enter] .empty)) = true := by decide +kernel
  have hloads : (explicitEnter.behind (served [enter] .empty)).builder.code.items =
      #[.instruction .ldstr (.token (Literals.token 0)) ⟨0, 1⟩,
        .instruction .ldstr (.token (Literals.token 1)) ⟨0, 1⟩,
        .instruction .ldstr (.token (Literals.token 2)) ⟨0, 1⟩,
        .instruction .ldstr (.token (Literals.token 3)) ⟨0, 1⟩,
        .instruction .ldnull .none ⟨0, 1⟩,
        .instruction .call (.token ⟨0x0A000001⟩) ⟨5, 1⟩] := by decide +kernel
  have hfound : ((served [enter] .empty).insertIfAbsent explicitEnter.key
      explicitEnter.wanted).1 = enter.wanted := by decide +kernel
  obtain ⟨_, hperform⟩ := exists_ok_of_succeeds hsucceeds
  have hnamed := explicitEnter.names_of_perform _ hperform
  rw [hfound] at hnamed
  refine ⟨explicitEnter.behind (served [enter] .empty), hperform, hnamed, ?_⟩
  intro assemblyPath hnames
  obtain ⟨mid, hloaded, hfront⟩ := hnames
  obtain ⟨place, effect, hplace, hmem⟩ :=
    (Literals.mem_of_loads hloaded).2 "Sample" (by simp)
  -- `Sample` is the fifth string of the host, and the code only loads the first four
  obtain rfl : place = 4 := (Option.some.inj (hplace.symm.trans (by decide)))
  replace hmem := hfront.subset (Array.mem_toList_iff.mpr hmem)
  rw [hloads] at hmem
  simp [Literals.token] at hmem

end CachedRequest

end CilInstrument
