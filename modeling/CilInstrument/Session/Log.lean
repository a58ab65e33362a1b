import CilInstrument.Body.Header
import CilInstrument.Session.MethodCache

/- What a session reports of its work. A record is the event itself, with the name of
   the method; its level and its text follow from the event. -/
namespace CilInstrument

inductive LogLevel where
  | trace
  | debug
  | error
  deriving Repr, DecidableEq

def LogLevel.name : LogLevel → String
  | trace => "TRACE"
  | debug => "DEBUG"
  | error => "ERROR"

inductive Event where
  | decomposing
  | extractingLocals
  | decomposed (format : HeaderFormat) (codeSize clauses : Nat)
  | localAdded (index : Nat)
  | ownCodePlaced (offset : Nat)
  | uncachedLookup (className methodName : String)
  /-- The key already leads to another assembly. -/
  | keyBound (key : CacheKey) (assemblyPath : String)
  | cachedLookup (key : CacheKey)
  | assembling (format : HeaderFormat)
  | localsReplaced (before after : Token)
  | writing (size : Nat)
  | failed (error : Error)
  deriving Repr, DecidableEq

namespace Event

def level : Event → LogLevel
  | uncachedLookup _ _ | keyBound _ _ | cachedLookup _ => .debug
  | failed _ => .error
  | _ => .trace

def message : Event → String
  | decomposing => "decomposing method body"
  | extractingLocals => "extracting local variable signature"
  | decomposed format codeSize clauses =>
    s!"{format.name} header, {codeSize} code bytes, {clauses} exception clauses"
  | localAdded index => s!"added local {index}"
  | ownCodePlaced offset => s!"original code placed at {offset}"
  | uncachedLookup className methodName => s!"uncached lookup of {className}::{methodName}"
  | keyBound key path => s!"cache key {key.text} is already bound to {path}, keeping it"
  | cachedLookup key => s!"cached lookup of {key.text}"
  | assembling .fat => "assembling fat method body"
  | assembling .tiny => "assembling tiny method body"
  | localsReplaced before after => s!"local variable signature {before.text} -> {after.text}"
  | writing size => s!"writing {size} bytes"
  | failed error => error.message

end Event

structure LogRecord where
  /-- The method that the session is about. -/
  method : String
  event : Event
  deriving Repr, DecidableEq

def LogRecord.text (r : LogRecord) : String :=
  s!"{r.event.level.name} [{r.method}] {r.event.message}"

end CilInstrument
