import CilInstrument.Code.Builder
import CilInstrument.Code.CallEffect
import CilInstrument.Host
import CilInstrument.Signature.Types

/- Building code that names types, members and strings: the names are turned into
   tokens by the host while the code is built. -/
namespace CilInstrument

/-- A host and the code that is built with its tokens. -/
structure Emission (σ : Type) where
  host : σ
  builder : Builder

/-- A step of building that may ask the host. A block of code that is emitted later is
    such a step, too. -/
abbrev Emit (σ : Type) := Step (Emission σ)

/-! Members and types of the runtime library that emitted code refers to. -/

namespace RuntimeLibrary

/-- What handlers catch. -/
def exceptionType : String := "[mscorlib]System.Exception"

def typeFromHandle : String :=
  "class [mscorlib]System.Type [mscorlib]System.Type::GetTypeFromHandle(valuetype [mscorlib]System.RuntimeTypeHandle)"

end RuntimeLibrary

namespace Emit

variable {σ : Type}

/-- A step that needs no host. -/
def build {α : Type} (step : Build α) : Emit σ α := fun ⟨host, builder⟩ =>
  match step builder with
  | .ok a builder => .ok a ⟨host, builder⟩
  | .error e builder => .error e ⟨host, builder⟩

/-- A question that leaves the code alone. -/
def ask {α : Type} (question : Ask σ α) : Emit σ α := fun ⟨host, builder⟩ =>
  match question host with
  | .ok a host => .ok a ⟨host, builder⟩
  | .error e host => .error e ⟨host, builder⟩

instance : MonadLift Build (Emit σ) := ⟨build⟩

variable [Resolver σ]

/-- Appends an instruction about the type of that name. -/
def withType (op : OpCode) (name : String) : Emit σ Unit := do
  let token ← ask (Resolver.typeToken name)
  build (Build.withToken op token)

/-- Appends the load of a string literal. -/
def loadString (value : String) : Emit σ Unit := do
  let token ← ask (Resolver.stringToken value)
  build (Build.withToken .ldstr token)

/-- Appends a call of a member, whose text gives the effect. -/
def call (op : OpCode) (member : String) : Emit σ Unit := do
  if op.flow ≠ .call then throw (.malformed (.notACall op))
  let effect ← Step.ofExcept (op.callEffect member)
  let token ← ask (Resolver.memberToken member)
  build (Build.emit op effect (.token token))

/-- Ends the handler of the innermost region. -/
def endHandler : Emit σ Unit := do
  build Build.checkHandlerEnd
  let token ← ask (Resolver.typeToken RuntimeLibrary.exceptionType)
  build (Build.endHandler token)

/-- Loads the argument in slot `index` as an object: what is passed by reference is
    loaded through it, and values are boxed. -/
def loadArgumentAsObject (index : UInt16) (param : ParamSig) : Emit σ Unit := do
  build (Build.loadArgument index)
  if param.base.needsBoxing then
    let token ← ask (Resolver.typeSpecToken param.typeBlob)
    if param.isByRef then build (Build.withToken .ldobj token)
    build (Build.withToken .box token)
  else if param.isByRef then
    build (Build.plain .ldindRef)

/-- Loads the type object of a parameter's type. -/
def loadTypeOf (param : ParamSig) : Emit σ Unit := do
  let token ← ask (Resolver.typeSpecToken param.typeBlob)
  build (Build.withToken .ldtoken token)
  call .call RuntimeLibrary.typeFromHandle

end Emit

end CilInstrument
