import CilInstrument.Session.Basic

/- Loading the object of a method that is named by its assembly, class and name:
   either by reflection each time, or through the runtime's cache. A cached lookup is
   registered under its key in the shared cache; the first registration of a key
   decides what later lookups with that key emit. -/
namespace CilInstrument

namespace Emit

variable {σ : Type} [Resolver σ]

/-- Calls the helper of the runtime's cache with a key and what it was resolved to. -/
def cachedLookup (helper : String) (key : CacheKey) (found : MethodLookup)
    (argumentTypes : Option (Emit σ Unit)) : Emit σ Unit := do
  loadString key.text
  loadString found.assemblyPath
  loadString found.className
  loadString found.methodName
  match argumentTypes with
  | some types => types
  | none => build (Build.plain .ldnull)
  call .call helper

end Emit

namespace Instrument

variable {σ : Type} [Resolver σ]

/-- Registers a lookup under its key, and gives the one that was registered first. -/
def register (key : CacheKey) (wanted : MethodLookup) : Instrument σ MethodLookup :=
  withCache (MethodCache.getOrResolve key (pure wanted))

/-- Loads the object of a method. `functionId` tells overloads apart in the cache,
    `argumentTypes` tells them apart in reflection. -/
def loadMethod (wanted : MethodLookup) (functionId : Nat) (argumentTypes : Option (Emit σ Unit))
    (useCache : Bool) : Instrument σ Unit := do
  let config := (← target).config
  if !useCache || config.disableCache then
    log (.uncachedLookup wanted.className wanted.methodName)
    loadType wanted.assemblyPath wanted.className
    loadMethodOfType wanted.methodName argumentTypes
  else
    let key := CacheKey.ofMethod wanted.className wanted.methodName functionId
    let found ← register key wanted
    if found.assemblyPath ≠ wanted.assemblyPath then log (.keyBound key found.assemblyPath)
    log (.cachedLookup key)
    emit (Emit.cachedLookup config.cacheHelper key found argumentTypes)

end Instrument

end CilInstrument
