/- The cache of method lookups, shared by all sessions. A key names a method, the value
   is what its lookup was resolved to. The first value stored for a key stays: a
   resolution that finishes later, and meets a value, gives that value. -/
namespace CilInstrument

/-- A key: class, method and a number that tells overloads apart, glued together. -/
structure CacheKey where
  text : String
  deriving Repr, DecidableEq

def CacheKey.ofMethod (className methodName : String) (functionId : Nat) : CacheKey :=
  ⟨s!"{className}.{methodName}_{functionId}"⟩

/-- Where a method is looked up. -/
structure MethodLookup where
  assemblyPath : String
  className : String
  methodName : String
  deriving Repr, DecidableEq

/-- Values by key. -/
structure MethodCache (α : Type) where
  entries : List (CacheKey × α)

namespace MethodCache

variable {α : Type}

def empty : MethodCache α := ⟨[]⟩

def lookup (c : MethodCache α) (key : CacheKey) : Option α := c.entries.lookup key

/-- The number of keys. -/
def size (c : MethodCache α) : Nat := c.entries.length

/-- Stores a value unless the key has one, and gives the value that the key has then. -/
def insertIfAbsent (c : MethodCache α) (key : CacheKey) (value : α) : α × MethodCache α :=
  match c.lookup key with
  | some stored => (stored, c)
  | none => (value, ⟨(key, value) :: c.entries⟩)

/-- The value of a key; if it has none, that of `resolve`, stored unless the key got a
    value in the meantime. A failure of `resolve` stores nothing. -/
def getOrResolve {m : Type → Type} [Monad m] [MonadStateOf (MethodCache α) m] (key : CacheKey)
    (resolve : m α) : m α := do
  match (← getThe (MethodCache α)).lookup key with
  | some stored => return stored
  | none =>
    let value ← resolve
    modifyGetThe (MethodCache α) (·.insertIfAbsent key value)

end MethodCache

end CilInstrument
