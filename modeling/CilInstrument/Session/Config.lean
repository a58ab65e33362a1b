/- Options of an instrumentation session. The session reads nothing but these; where
   the cache toggle comes from an environment variable, its value is handed in. -/
namespace CilInstrument

/-- The helper that cached lookups call: it takes the key, the assembly path, the class,
    the method and an optional array of parameter types. -/
def defaultCacheHelper : String :=
  "class [mscorlib]System.Reflection.MethodInfo [ilweave.Runtime]ilweave.Runtime.MethodInfoCache::GetOrResolve(string, string, string, string, class [mscorlib]System.Type[])"

/-- The environment variable that switches cached lookups off, whatever its value. -/
def disableCacheVariable : String := "ILWEAVE_DISABLE_METHOD_CACHE"

structure Config where
  /-- Look every method up by reflection, also where the caller asks for the cache. -/
  disableCache : Bool
  /-- Emit messages for lookups that find nothing. -/
  diagnostics : Bool
  /-- The member that cached lookups call. -/
  cacheHelper : String
  deriving Repr, DecidableEq

namespace Config

/-- Without messages, and with the default helper. -/
def default : Config := ⟨false, false, defaultCacheHelper⟩

/-- The default, with the cache switched off if `disableCacheVariable` has a value. -/
def ofEnvironment (value : Option String) : Config :=
  { default with disableCache := value.isSome }

end Config

end CilInstrument
