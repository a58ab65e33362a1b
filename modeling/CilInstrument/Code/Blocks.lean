import CilInstrument.Code.Emission

/- Blocks of code that instrumentation is put together from: arrays, exceptions, lookups
   by reflection, protected regions and returns. A block takes the code it encloses as
   steps that are run when their code is due. -/
namespace CilInstrument

namespace RuntimeLibrary

def writeLine : String := "void [mscorlib]System.Console::WriteLine(string)"

/-- The constructor of an exception with a message. Code of the runtime library itself
    has to name its types without an assembly. -/
def exceptionConstructor (inLibrary : Bool) : String :=
  if inLibrary then "instance void System.Exception::.ctor(string)"
  else "instance void [mscorlib]System.Exception::.ctor(string)"

def typeType : String := "[mscorlib]System.Type"

def objectType : String := "[mscorlib]System.Object"

def loadFrom : String :=
  "class [mscorlib]System.Reflection.Assembly [mscorlib]System.Reflection.Assembly::LoadFrom(string)"

def getType : String :=
  "instance class [mscorlib]System.Type [mscorlib]System.Reflection.Assembly::GetType(string)"

def getMethod : String :=
  "instance class [mscorlib]System.Reflection.MethodInfo [mscorlib]System.Type::GetMethod(string)"

def getMethodWithTypes : String :=
  "instance class [mscorlib]System.Reflection.MethodInfo [mscorlib]System.Type::GetMethod(string, class [mscorlib]System.Type[])"

def invoke : String :=
  "instance object [mscorlib]System.Reflection.MethodBase::Invoke(object, object[])"

end RuntimeLibrary

namespace Emit

variable {σ : Type} [Resolver σ]

/-! Arrays. -/

/-- Stores elements into the array on the stack, from `index` on. Each element must
    leave one value more than before, and must be left by falling through. Depths are
    16-bit numbers, and so is one more than a depth: it wraps. -/
def storeElements : (index : Nat) → List (Emit σ Unit) → Emit σ Unit
  | _, [] => pure ()
  | index, element :: rest => do
    build (Build.plain .dup)
    build (Build.loadInt (Int32.ofNat index))
    let before ← build Build.stackDepth
    element
    let after ← build Build.stackDepth
    if after ≠ (before + 1) % 0x10000 ∨ !(← build Build.isReachable) then
      throw (.stackImbalance (.arrayElement index ((after : Int) - before)))
    build (Build.plain .stelemRef)
    storeElements (index + 1) rest

/-- Makes an array of the given element type, one element for each of `elements`. -/
def array (elementType : String) (elements : List (Emit σ Unit)) : Emit σ Unit := do
  let length := elements.length
  if 0x80000000 ≤ length then throw (.malformed (.arrayTooLarge length))
  build (Build.loadInt (Int32.ofNat length))
  withType .newarr elementType
  storeElements 0 elements

/-- The array of the type objects of parameters. -/
def typeArray (params : List ParamSig) : Emit σ Unit :=
  array RuntimeLibrary.typeType (params.map loadTypeOf)

/-- The slots of all parameters with the parameters; each slot must be a 16-bit number. -/
def argumentSlots (m : MethodSig) : Except Error (List (UInt16 × ParamSig)) :=
  m.params.zipIdx.mapM fun (param, index) =>
    let slot := m.argumentIndex index
    if slot < 0x10000 then .ok (UInt16.ofNat slot, param)
    else .error (.malformed (.argumentIndex index))

/-- The array of the arguments of a method, as objects, without an implicit receiver. -/
def argumentArray (m : MethodSig) : Emit σ Unit := do
  let slots ← Step.ofExcept (argumentSlots m)
  array RuntimeLibrary.objectType (slots.map fun (slot, param) => loadArgumentAsObject slot param)

/-! Messages and exceptions. -/

/-- Prints a message. -/
def writeLine (message : String) : Emit σ Unit := do
  loadString message
  call .call RuntimeLibrary.writeLine

/-- Throws a new exception with a message. -/
def throwException (message : String) (inLibrary : Bool) : Emit σ Unit := do
  loadString message
  call .newobj (RuntimeLibrary.exceptionConstructor inLibrary)
  build (Build.plain .throw)

/-- Runs `block` only if the value on the stack is null. The value stays. -/
def ifNull (block : Emit σ Unit) : Emit σ Unit := do
  build (Build.plain .dup)
  let notNull ← build (Build.jump .brtrue)
  block
  build (Build.placeLabel notNull)

/-- Throws a new exception if the value on the stack is null. -/
def throwIfNull (message : String) (inLibrary : Bool) : Emit σ Unit :=
  ifNull (throwException message inLibrary)

/-! Reflection. -/

/-- Loads a type object from an assembly; with `diagnostics` a message is printed if
    there is no such type. -/
def loadType (diagnostics : Bool) (assemblyPath typeName : String) : Emit σ Unit := do
  loadString assemblyPath
  call .call RuntimeLibrary.loadFrom
  loadString typeName
  call .callvirt RuntimeLibrary.getType
  if diagnostics then ifNull (writeLine s!"Type {typeName} not found in {assemblyPath}")

/-- Replaces the type object on the stack by that of a method of the type. Overloads are
    told apart by the array that `argumentTypes` makes, if it is given. -/
def methodOfType (diagnostics : Bool) (methodName : String) (argumentTypes : Option (Emit σ Unit)) :
    Emit σ Unit := do
  loadString methodName
  match argumentTypes with
  | some types =>
    types
    call .callvirt RuntimeLibrary.getMethodWithTypes
  | none => call .callvirt RuntimeLibrary.getMethod
  if diagnostics then ifNull (writeLine s!"Method {methodName} not found")

/-- Calls the method object on the stack with the instance and the array above it. -/
def invokeMethod : Emit σ Unit := call .callvirt RuntimeLibrary.invoke

/-! Regions and returns. -/

/-- A region that catches every exception. Both bodies are left to the same place behind
    the region; with `rethrow` the handler passes the exception on. -/
def tryCatch (body handler : Emit σ Unit) (rethrow : Bool) : Emit σ Unit := do
  build Build.startTry
  body
  let exit ← build (Build.jump .leave)
  build Build.endTry
  build Build.startHandler
  handler
  if rethrow then build (Build.plain .rethrow)
  build (Build.jumpTo .leave exit)
  endHandler
  build (Build.placeLabel exit)

omit [Resolver σ] in
/-- Returns, with the value of the result local unless nothing is returned. -/
def returnValue (returnType : ParamSig) (resultLocal : Option UInt16) : Emit σ Unit := do
  if !returnType.isVoid then
    match resultLocal with
    | some index => build (Build.loadLocal index)
    | none => throw (.malformed .noResultLocal)
  build (Build.plain .ret)

end Emit

end CilInstrument
