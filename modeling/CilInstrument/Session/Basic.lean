import CilInstrument.Body.MethodBody
import CilInstrument.Code.Blocks
import CilInstrument.Session.Config
import CilInstrument.Session.Log
import CilInstrument.Signature.Locals
import CilInstrument.Signature.Reading

/- A session instruments one method. It starts by taking the stored body apart, then
   code and locals are added step by step, and one of two final steps puts the new
   body together and hands it to the host. -/
namespace CilInstrument

/-- What all sessions have in common: the cache of lookups and the log. -/
structure Shared where
  cache : MethodCache MethodLookup
  log : Array LogRecord

namespace Shared

def empty : Shared := ⟨MethodCache.empty, #[]⟩

def record (s : Shared) (method : String) (event : Event) : Shared :=
  { s with log := s.log.push ⟨method, event⟩ }

/-- Conditions that make the method unusable are put into the log. -/
def recordFatal (s : Shared) (method : String) (e : Error) : Shared :=
  if e.isFatal then s.record method (.failed e) else s

end Shared

/-- The method that a session is about, as it was when the session started. -/
structure Target where
  config : Config
  name : String
  format : HeaderFormat
  header : MethodHeader
  /-- The method's own code. -/
  ownCode : List UInt8
  /-- The method's signature, read. -/
  signature : MethodSig

structure Session (σ : Type) where
  target : Target
  locals : LocalsSignature
  emission : Emission σ
  shared : Shared

/-- A step of a session. -/
abbrev Instrument (σ : Type) := Step (Session σ)

/-- What a session starts from, and what is left if it can not start. -/
structure Setting (σ : Type) where
  host : σ
  shared : Shared

namespace Setting

variable {σ : Type}

def ask {α : Type} (question : Ask σ α) : Step (Setting σ) α := fun ⟨host, shared⟩ =>
  match question host with
  | .ok a host => .ok a ⟨host, shared⟩
  | .error e host => .error e ⟨host, shared⟩

def log (method : String) (event : Event) : Step (Setting σ) Unit :=
  modify fun s => { s with shared := s.shared.record method event }

/-- The parts of a method body; a body of no known format goes into the log. -/
def decompose (method : String) (data : List UInt8) : Step (Setting σ) MethodBody :=
  match MethodBody.decompose data with
  | .ok body => pure body
  | .error e => do
    modify fun s => { s with shared := s.shared.recordFatal method e }
    throw e

variable [Host σ]

/-- Reads body, locals and signature of the host's method. -/
def readMethod (config : Config) :
    Step (Setting σ) (Target × LocalsSignature × Builder) := do
  let name := Host.methodName (← get).host
  log name .decomposing
  let body ← decompose name (← ask Host.methodBytes)
  log name .extractingLocals
  let locals ←
    if body.header.localsToken.isNull then pure LocalsSignature.empty
    else Step.ofExcept (LocalsSignature.ofBytes (← ask (Host.signatureOf body.header.localsToken)))
  let signature ← Step.ofExcept (MethodSig.ofBytes (Host.methodSignature (← get).host))
  log name (.decomposed body.format body.code.length body.exceptions.inherited.length)
  return ({ config, name, format := body.format, header := body.header, ownCode := body.code,
            signature },
    locals, Builder.start body.exceptions)

end Setting

namespace Session

variable {σ : Type}

/-- A session for the host's method, or why there can be none. -/
def start [Host σ] (config : Config) (setting : Setting σ) :
    Except (Error × Setting σ) (Session σ) :=
  match Setting.readMethod config setting with
  | .ok (target, locals, builder) ⟨host, shared⟩ => .ok ⟨target, locals, ⟨host, builder⟩, shared⟩
  | .error e setting => .error (e, setting)

def builder (s : Session σ) : Builder := s.emission.builder

def host (s : Session σ) : σ := s.emission.host

end Session

namespace Instrument

variable {σ : Type}

/-- A step that only builds code. -/
def emit {α : Type} (step : Emit σ α) : Instrument σ α :=
  fun ⟨target, locals, emission, shared⟩ =>
    match step emission with
    | .ok a emission => .ok a ⟨target, locals, emission, shared⟩
    | .error e emission => .error e ⟨target, locals, emission, shared⟩

/-- A question to the host. -/
def ask {α : Type} (question : Ask σ α) : Instrument σ α := emit (Emit.ask question)

/-- A step on the cache of lookups. -/
def withCache {α : Type} (step : Step (MethodCache MethodLookup) α) : Instrument σ α :=
  fun ⟨target, locals, emission, ⟨cache, log⟩⟩ =>
    match step cache with
    | .ok a cache => .ok a ⟨target, locals, emission, ⟨cache, log⟩⟩
    | .error e cache => .error e ⟨target, locals, emission, ⟨cache, log⟩⟩

def log (event : Event) : Instrument σ Unit :=
  modify fun s => { s with shared := s.shared.record s.target.name event }

/-- Fails, after a fatal error went into the log. -/
def fail {α : Type} (e : Error) : Instrument σ α := do
  modify fun s => { s with shared := s.shared.recordFatal s.target.name e }
  throw e

def target : Instrument σ Target := do return (← get).target

/-! Locals. -/

/-- Adds a local of the type that the bytes encode, and gives its index. -/
def addLocal (type : List UInt8) : Instrument σ Nat := do
  let added : Except Error Nat ← fun ⟨target, locals, emission, shared⟩ =>
    match LocalsSignature.append type locals with
    | .ok index locals => .ok (.ok index) ⟨target, locals, emission, shared⟩
    | .error e locals => .ok (.error e) ⟨target, locals, emission, shared⟩
  match added with
  | .ok index =>
    log (.localAdded index)
    return index
  | .error e => fail e

/-- Adds a local of the type of that name. -/
def addLocalOfType [Resolver σ] (name : String) : Instrument σ Nat := do
  addLocal (← ask (Resolver.typeSignature name))

/-- Adds a local for the result of the method, if it returns one. -/
def addResultLocal : Instrument σ (Option Nat) := do
  let returnType := (← target).signature.returnType
  if returnType.isVoid then return none
  return some (← addLocal returnType.blob)

/-! Code. -/

/-- Splices the method's own code in. -/
def placeOwnCode : Instrument σ Unit := do
  log (.ownCodePlaced (← get).builder.size)
  emit (Emit.build (Build.splice (← target).ownCode))

/-- The array of the type objects of the method's parameters, as a block of code. -/
def parameterTypes [Resolver σ] : Instrument σ (Emit σ Unit) := do
  return Emit.typeArray (← target).signature.params

/-- Makes the array of the type objects of the method's parameters. -/
def emitParameterTypes [Resolver σ] : Instrument σ Unit := do emit (← parameterTypes)

/-- Makes the array of the method's arguments, as objects. -/
def emitArguments [Resolver σ] : Instrument σ Unit := do
  emit (Emit.argumentArray (← target).signature)

/-- Makes an array of objects, one for each block. -/
def emitObjects [Resolver σ] (elements : List (Emit σ Unit)) : Instrument σ Unit :=
  emit (Emit.array RuntimeLibrary.objectType elements)

def loadType [Resolver σ] (assemblyPath typeName : String) : Instrument σ Unit := do
  emit (Emit.loadType (← target).config.diagnostics assemblyPath typeName)

def loadMethodOfType [Resolver σ] (methodName : String) (argumentTypes : Option (Emit σ Unit)) :
    Instrument σ Unit := do
  emit (Emit.methodOfType (← target).config.diagnostics methodName argumentTypes)

/-- Returns from the method, with the value of the result local unless it returns nothing. -/
def emitReturn (resultLocal : Option UInt16) : Instrument σ Unit := do
  emit (Emit.returnValue (← target).signature.returnType resultLocal)

end Instrument

end CilInstrument
