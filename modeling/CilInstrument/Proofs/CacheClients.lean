import Mathlib.Data.List.Dedup
import Mathlib.Logic.Function.Basic
import Mathlib.Logic.Relation
import CilInstrument.Proofs.CacheEntries
import CilInstrument.Proofs.StepRuns

/- Many clients of one cache. A client runs a program of `getOrResolve` calls, and so does
   every resolver, on the same cache and to any depth; a call takes three steps, its look
   into the cache, the run of its resolver and the offer of what that gave, and other
   clients may come in between any two of them. `Clients.Step` says what a single step does;
   a client that nobody interrupts does what `getOrResolve` does (`Client.steps_eval`). What a
   run leaves is read off the returns in its trace (`Recorded`): the cache holds exactly the
   values that calls returned, one for each key (`first_writer_wins`). -/
namespace CilInstrument

open Step

variable {α : Type}

/-- What is done with one cache, step by step, up to a value or a failure. -/
inductive Program (α : Type) where
  | done (value : α)
  | fail (e : Error)
  /-- A call, and what is done with its result. The resolver is a program, too. -/
  | call (key : CacheKey) (resolve : Program α) (next : Except Error α → Program α)

namespace Program

/-- The program on a cache of its own, with the calls that `getOrResolve` makes. -/
def eval : Program α → Step (MethodCache α) α
  | done value => pure value
  | fail e => throw e
  | call key resolve next => fun c =>
    match (MethodCache.getOrResolve key resolve.eval : Step (MethodCache α) α) c with
    | .ok value c => (next (.ok value)).eval c
    | .error e c => (next (.error e)).eval c

end Program

/-- A call whose resolver runs. -/
structure Pending (α : Type) where
  key : CacheKey
  /-- What the caller does with the result. -/
  next : Except Error α → Program α

/-- A client, and the calls that it is inside of, the innermost one first. -/
structure Client (α : Type) where
  program : Program α
  pending : List (Pending α)

/-- What can be seen of a step. -/
inductive CacheEvent (α : Type) where
  /-- A call found no value, and its resolver starts. -/
  | resolves (key : CacheKey)
  | returns (key : CacheKey) (result : Except Error α)

namespace Client

/-- The next step of a client, with the cache before and behind it. -/
inductive Step : MethodCache α → Client α → CacheEvent α → MethodCache α → Client α → Prop
  /-- A call looks into the cache and finds a value. -/
  | found {c : MethodCache α} {key : CacheKey} {resolve : Program α}
    {next : Except Error α → Program α} {pending : List (Pending α)} {stored : α}
    (h : c.lookup key = some stored) :
    Step c ⟨.call key resolve next, pending⟩ (.returns key (.ok stored)) c
      ⟨next (.ok stored), pending⟩
  /-- It finds none, and is left for its resolver. -/
  | missed {c : MethodCache α} {key : CacheKey} {resolve : Program α}
    {next : Except Error α → Program α} {pending : List (Pending α)} (h : c.lookup key = none) :
    Step c ⟨.call key resolve next, pending⟩ (.resolves key) c ⟨resolve, ⟨key, next⟩ :: pending⟩
  /-- The resolver gave a value, which is offered to the cache. -/
  | offered {c : MethodCache α} {key : CacheKey} {next : Except Error α → Program α}
    {pending : List (Pending α)} {value : α} :
    Step c ⟨.done value, ⟨key, next⟩ :: pending⟩
      (.returns key (.ok (c.insertIfAbsent key value).1)) (c.insertIfAbsent key value).2
      ⟨next (.ok (c.insertIfAbsent key value).1), pending⟩
  /-- The resolver failed. -/
  | failed {c : MethodCache α} {key : CacheKey} {next : Except Error α → Program α}
    {pending : List (Pending α)} {e : Error} :
    Step c ⟨.fail e, ⟨key, next⟩ :: pending⟩ (.returns key (.error e)) c
      ⟨next (.error e), pending⟩

end Client

/-- A cache and its clients. -/
structure Clients (ι α : Type) where
  cache : MethodCache α
  client : ι → Client α

namespace Clients

variable {ι : Type}

section
variable [DecidableEq ι]

/-- Any one client takes its next step. -/
inductive Step : Clients ι α → ι × CacheEvent α → Clients ι α → Prop
  | turn {s : Clients ι α} {i : ι} {event : CacheEvent α} {c : MethodCache α} {client : Client α}
    (h : Client.Step s.cache (s.client i) event c client) :
    Step s (i, event) ⟨c, Function.update s.client i client⟩

/-- Steps of clients in any order, and what is seen of them. -/
inductive Run (start : Clients ι α) : List (ι × CacheEvent α) → Clients ι α → Prop
  | nil : Run start [] start
  | snoc {trace : List (ι × CacheEvent α)} {s t : Clients ι α} {event : ι × CacheEvent α}
    (h : Run start trace s) (hstep : Step s event t) : Run start (trace ++ [event]) t

end

/-- The keys for which calls returned a value, once for each return. -/
def returnedKeys (trace : List (ι × CacheEvent α)) : List CacheKey :=
  trace.filterMap fun event =>
    match event.2 with
    | .returns key (.ok _) => some key
    | _ => none

theorem mem_returnedKeys {trace : List (ι × CacheEvent α)} {key : CacheKey} :
    key ∈ returnedKeys trace ↔ ∃ i value, (i, .returns key (.ok value)) ∈ trace := by
  unfold returnedKeys
  rw [List.mem_filterMap]
  constructor
  · rintro ⟨⟨i, event⟩, hmem, hkey⟩
    dsimp only at hkey
    split at hkey
    · next value =>
      cases hkey
      exact ⟨i, value, hmem⟩
    · cases hkey
  · rintro ⟨i, value, hmem⟩
    exact ⟨_, hmem, rfl⟩

end Clients

/-! What a step does to the cache. -/

namespace Client.Step

variable {c c' : MethodCache α} {client client' : Client α} {event : CacheEvent α}

/-- Behind a step a key has the value it had, or the one that a call returned in that step. -/
theorem lookup_iff (h : Client.Step c client event c' client') {key : CacheKey} {value : α} :
    c'.lookup key = some value ↔ c.lookup key = some value ∨ event = .returns key (.ok value) := by
  cases h with
  | @found other _ _ _ stored hstored =>
    refine ⟨.inl, fun h => h.elim id fun heq => ?_⟩
    cases heq
    exact hstored
  | missed _ =>
    refine ⟨.inl, fun h => h.elim id fun heq => ?_⟩
    cases heq
  | @offered other _ _ offer =>
    constructor
    · intro h
      rw [MethodCache.lookup_insertIfAbsent] at h
      split at h
      · next heq =>
        cases h
        exact .inr (by rw [heq])
      · exact .inl h
    · rintro (h | h)
      · exact MethodCache.lookup_insertIfAbsent_of_some h
      · cases h
        rw [MethodCache.lookup_insertIfAbsent, if_pos rfl]
  | failed =>
    refine ⟨.inl, fun h => h.elim id fun heq => ?_⟩
    cases heq

theorem nodup_keys (h : Client.Step c client event c' client') (hnodup : c.keys.Nodup) :
    c'.keys.Nodup := by
  cases h with
  | found _ => exact hnodup
  | missed _ => exact hnodup
  | offered => exact MethodCache.nodup_keys_insertIfAbsent hnodup _ _
  | failed => exact hnodup

end Client.Step

/-! What a run leaves. -/

namespace Clients

variable {ι : Type} {trace : List (ι × CacheEvent α)}

/-- The cache holds what calls returned, and each of its keys once. -/
structure Recorded (trace : List (ι × CacheEvent α)) (c : MethodCache α) : Prop where
  nodup : c.keys.Nodup
  lookup_iff : ∀ {key value},
    c.lookup key = some value ↔ ∃ i, (i, .returns key (.ok value)) ∈ trace

/-- The size counts the keys for which calls returned a value. -/
theorem Recorded.size_eq {c : MethodCache α} (h : Recorded trace c) :
    c.size = (returnedKeys trace).dedup.length := by
  rw [← MethodCache.length_keys]
  refine List.Perm.length_eq ((List.perm_ext_iff_of_nodup h.nodup (List.nodup_dedup _)).mpr ?_)
  intro key
  rw [List.mem_dedup, mem_returnedKeys, MethodCache.mem_keys_iff]
  constructor
  · rintro ⟨value, hvalue⟩
    obtain ⟨i, hi⟩ := h.lookup_iff.mp hvalue
    exact ⟨i, value, hi⟩
  · rintro ⟨i, value, hi⟩
    exact ⟨value, h.lookup_iff.mpr ⟨i, hi⟩⟩

variable [DecidableEq ι] {start s t : Clients ι α}

theorem Step.recorded {event : ι × CacheEvent α} (hstep : Step s event t)
    (h : Recorded trace s.cache) : Recorded (trace ++ [event]) t.cache := by
  obtain ⟨hclient⟩ := hstep
  refine ⟨hclient.nodup_keys h.nodup, fun {key value} => ?_⟩
  show _ = _ ↔ _
  rw [hclient.lookup_iff, h.lookup_iff]
  constructor
  · rintro (⟨j, hj⟩ | rfl)
    · exact ⟨j, List.mem_append_left _ hj⟩
    · exact ⟨_, List.mem_append_right _ (List.mem_singleton.mpr rfl)⟩
  · rintro ⟨j, hj⟩
    rcases List.mem_append.mp hj with hj | hj
    · exact .inl ⟨j, hj⟩
    · cases List.mem_singleton.mp hj
      exact .inr rfl

theorem Run.recorded (h : Run start trace s) (hempty : start.cache = MethodCache.empty) :
    Recorded trace s.cache := by
  induction h with
  | nil =>
    rw [hempty]
    refine ⟨List.nodup_nil, fun {key value} => ⟨fun h => (nomatch h), ?_⟩⟩
    rintro ⟨_, ⟨⟩⟩
  | snoc _ hstep ih => exact hstep.recorded ih

/-- A value that is there stays, whatever comes. -/
theorem Run.lookup_of_some (h : Run start trace s) {key : CacheKey} {value : α}
    (hvalue : start.cache.lookup key = some value) : s.cache.lookup key = some value := by
  induction h with
  | nil => exact hvalue
  | snoc _ hstep ih =>
    obtain ⟨hclient⟩ := hstep
    exact hclient.lookup_iff.mpr (.inl ih)

end Clients

/-! A client that is left alone. -/

namespace MethodCache

theorem run_getOrResolve (key : CacheKey) (resolve : Step (MethodCache α) α) (c : MethodCache α) :
    (getOrResolve key resolve : Step (MethodCache α) α).run c =
      match c.lookup key with
      | some stored => .ok stored c
      | none =>
        match resolve.run c with
        | .ok value c => .ok (c.insertIfAbsent key value).1 (c.insertIfAbsent key value).2
        | .error e c => .error e c := by
  unfold getOrResolve
  show (do
    match c.lookup key with
    | some stored => pure stored
    | none => do
      let value ← resolve
      modifyGetThe (MethodCache α) (·.insertIfAbsent key value) : Step (MethodCache α) α).run c = _
  cases c.lookup key with
  | some stored => rfl
  | none =>
    show (resolve >>= fun value => _).run c = _
    rw [EStateM.run_bind]
    cases resolve.run c <;> rfl

end MethodCache

namespace Client

/-- What a program leaves that is run to its end, inside of some calls. -/
def settled (pending : List (Pending α)) :
    EStateM.Result Error (MethodCache α) α → MethodCache α × Client α
  | .ok value c => (c, ⟨.done value, pending⟩)
  | .error e c => (c, ⟨.fail e, pending⟩)

/-- Steps of one client alone. -/
def Steps : MethodCache α × Client α → MethodCache α × Client α → Prop :=
  Relation.ReflTransGen fun a b => ∃ event, Client.Step a.1 a.2 event b.1 b.2

/-- By induction on the program: its calls are those of `getOrResolve`, inside of which their
resolvers are run. -/
theorem steps_eval (program : Program α) (pending : List (Pending α)) (c : MethodCache α) :
    Steps (c, ⟨program, pending⟩) (settled pending (program.eval.run c)) := by
  induction program generalizing pending c with
  | done value => exact .refl
  | fail e => exact .refl
  | call key resolve next ihResolve ihNext =>
    have heval : (Program.call key resolve next).eval.run c =
        match (MethodCache.getOrResolve key resolve.eval :
            CilInstrument.Step (MethodCache α) α).run c with
        | .ok value c => (next (.ok value)).eval.run c
        | .error e c => (next (.error e)).eval.run c := by
      show (Program.call key resolve next).eval c = _
      rw [Program.eval]
      rfl
    rw [heval, MethodCache.run_getOrResolve]
    cases hlookup : c.lookup key with
    | some stored => exact .head ⟨_, .found hlookup⟩ (ihNext (.ok stored) pending c)
    | none =>
      have hresolve := ihResolve (⟨key, next⟩ :: pending) c
      cases hrun : resolve.eval.run c with
      | ok value c' =>
        rw [hrun] at hresolve
        exact .head ⟨_, .missed hlookup⟩
          (hresolve.trans (.head ⟨_, .offered⟩ (ihNext (.ok _) pending _)))
      | error e c' =>
        rw [hrun] at hresolve
        exact .head ⟨_, .missed hlookup⟩
          (hresolve.trans (.head ⟨_, .failed⟩ (ihNext (.error e) pending c')))

end Client

namespace Clients

variable {ι : Type} [DecidableEq ι] {s : Clients ι α}

/-- What one client can do alone, it can do among others as long as they pause. -/
theorem exists_run_of_steps {i : ι} {c : MethodCache α} {client : Client α}
    (h : Client.Steps (s.cache, s.client i) (c, client)) :
    ∃ trace, (∀ event ∈ trace, event.1 = i) ∧
      Run s trace ⟨c, Function.update s.client i client⟩ := by
  generalize hend : (c, client) = b at h
  induction h generalizing c client with
  | refl =>
    cases hend
    refine ⟨[], fun _ h => absurd h List.not_mem_nil, ?_⟩
    rw [Function.update_eq_self]
    exact .nil
  | @tail b _ _ hstep ih =>
    subst hend
    obtain ⟨event, hstep⟩ := hstep
    obtain ⟨trace, hmine, hrun⟩ := ih rfl
    refine ⟨trace ++ [(i, event)], ?_, ?_⟩
    · intro e he
      rcases List.mem_append.mp he with he | he
      · exact hmine e he
      · rw [List.mem_singleton.mp he]
    · have hnext : Step ⟨b.1, Function.update s.client i b.2⟩ (i, event)
          ⟨c, Function.update (Function.update s.client i b.2) i client⟩ :=
        .turn (by
          show Client.Step b.1 (Function.update s.client i b.2 i) event c client
          rw [Function.update_self]
          exact hstep)
      rw [Function.update_idem] at hnext
      exact .snoc hrun hnext

/-- Any clients of a cache that starts empty, in any order of their steps. A key keeps its value
from then on; every value that a call returned for a key is the one stored, so all returned for it
are the same; a step stores a value only where a call returns it; a resolver starts only if its key
has no value, and then no call has returned one; a call whose resolver fails returns the failure and
leaves the cache alone; the size counts the keys for which a call returned a value; and a client
that is left alone does what its calls of `getOrResolve` do. -/
theorem first_writer_wins {start s : Clients ι α} {trace : List (ι × CacheEvent α)}
    (hempty : start.cache = MethodCache.empty) (hrun : Run start trace s) :
    (∀ later t, Run s later t → ∀ key value, s.cache.lookup key = some value →
      t.cache.lookup key = some value) ∧
    (∀ i key value, (i, .returns key (.ok value)) ∈ trace → s.cache.lookup key = some value) ∧
    (∀ i j key value value', (i, .returns key (.ok value)) ∈ trace →
      (j, .returns key (.ok value')) ∈ trace → value = value') ∧
    (∀ i event t, Step s (i, event) t → ∀ key value, t.cache.lookup key = some value ↔
      s.cache.lookup key = some value ∨ event = .returns key (.ok value)) ∧
    (∀ i key t, Step s (i, .resolves key) t → s.cache.lookup key = none ∧
      (∀ j value, (j, .returns key (.ok value)) ∉ trace) ∧ t.cache = s.cache) ∧
    (∀ i key e t, Step s (i, .returns key (.error e)) t →
      ∃ next pending, s.client i = ⟨.fail e, ⟨key, next⟩ :: pending⟩ ∧
        t.client i = ⟨next (.error e), pending⟩ ∧ t.cache = s.cache) ∧
    s.cache.size = (returnedKeys trace).dedup.length ∧
    ∀ i program, s.client i = ⟨program, []⟩ → ∃ later t, Run s later t ∧
      (∀ event ∈ later, event.1 = i) ∧
      (t.cache, t.client i) = Client.settled [] (program.eval.run s.cache) := by
  have hrecorded := hrun.recorded hempty
  refine ⟨fun later t hlater key value => hlater.lookup_of_some, ?_, ?_, ?_, ?_, ?_,
    hrecorded.size_eq, ?_⟩
  · intro i key value hmem
    exact hrecorded.lookup_iff.mpr ⟨i, hmem⟩
  · intro i j key value value' hmem hmem'
    have hvalue := hrecorded.lookup_iff.mpr ⟨i, hmem⟩
    rw [hrecorded.lookup_iff.mpr ⟨j, hmem'⟩] at hvalue
    exact (Option.some.inj hvalue).symm
  · rintro i event t ⟨hclient⟩ key value
    exact hclient.lookup_iff
  · intro i key t hstep
    have hmissed : s.cache.lookup key = none ∧ t.cache = s.cache := by
      cases hstep with
      | turn hclient =>
        generalize s.client i = client at hclient
        cases hclient with
        | missed h => exact ⟨h, rfl⟩
    refine ⟨hmissed.1, fun j value hmem => ?_, hmissed.2⟩
    have hvalue := hrecorded.lookup_iff.mpr ⟨j, hmem⟩
    rw [hmissed.1] at hvalue
    cases hvalue
  · intro i key e t hstep
    cases hstep with
    | turn hclient =>
      generalize hbefore : s.client i = client at hclient
      cases hclient with
      | failed => exact ⟨_, _, rfl, Function.update_self .., rfl⟩
  · intro i program hprogram
    have hsteps := Client.steps_eval program [] s.cache
    rw [← hprogram] at hsteps
    obtain ⟨later, hmine, hlater⟩ := exists_run_of_steps hsteps
    exact ⟨later, _, hlater, hmine, Prod.ext rfl (Function.update_self ..)⟩

/-- Ends with the result of a call. -/
def ofResult : Except Error Nat → Program Nat
  | .ok value => .done value
  | .error e => .fail e

def racedKey : CacheKey := .ofMethod "A" "M" 0

/-- The resolver of the first client calls for the key itself before it gives its value, the
second client is only about to give its own. -/
def race : Clients Bool Nat where
  cache := .empty
  client
    | true => ⟨.call racedKey (.call racedKey (.done 1) fun _ => .done 2) ofResult, []⟩
    | false => ⟨.call racedKey (.done 3) ofResult, []⟩

/-- Both find no value, the second client is the first to store one, and the two calls of the
first give it as well. -/
def raceTrace : List (Bool × CacheEvent Nat) :=
  [(true, .resolves racedKey), (false, .resolves racedKey), (true, .resolves racedKey),
    (false, .returns racedKey (.ok 3)), (true, .returns racedKey (.ok 3)),
    (true, .returns racedKey (.ok 3))]

theorem exists_run_race : ∃ s, Run race raceTrace s :=
  ⟨_, .snoc (.snoc (.snoc (.snoc (.snoc (.snoc .nil
    (.turn (.missed rfl))) (.turn (.missed rfl))) (.turn (.missed rfl)))
    (.turn .offered)) (.turn .offered)) (.turn .offered)⟩

theorem first_writer_wins_race :
    race.cache = MethodCache.empty ∧ ∃ s, Run race raceTrace s ∧
      s.cache.lookup racedKey = some 3 ∧ s.cache.size = 1 := by
  obtain ⟨s, hrun⟩ := exists_run_race
  obtain ⟨-, hreturned, -, -, -, -, hsize, -⟩ := first_writer_wins rfl hrun
  refine ⟨rfl, s, hrun, hreturned true racedKey 3 (by simp [raceTrace]), ?_⟩
  rw [hsize]
  decide

end Clients

end CilInstrument
