import CilInstrument.Session.Basic

/- The final steps of a session: the new body is put together, with a fat or a tiny
   header, and handed to the host. All that can be wrong with the body is found before
   the host is asked to write, so only a refused write is fatal. -/
namespace CilInstrument

namespace Instrument

variable {σ : Type} [Host σ]

/-- Hands the body to the host. -/
def writeBack (body : List UInt8) : Instrument σ Unit := do
  log (.writing body.length)
  let refused : Option Error ← fun ⟨target, locals, ⟨host, builder⟩, shared⟩ =>
    match Host.writeMethod body host with
    | .ok _ host => .ok none ⟨target, locals, ⟨host, builder⟩, shared⟩
    | .error e host => .ok (some e) ⟨target, locals, ⟨host, builder⟩, shared⟩
  if let some e := refused then fail (.fatal (.writeBack e.message))

/-- The token that the new header names its locals by: that of the grown signature, or
    the one there was if no local was added. -/
def localsToken : Instrument σ Token := do
  let s ← get
  let before := s.target.header.localsToken
  if !s.locals.isModified then return before
  let after ← ask (Host.internSignature s.locals.toBytes)
  log (.localsReplaced before after)
  return after

/-- Writes the body with a fat header. -/
def finishFat : Instrument σ Unit := do
  log (.assembling .fat)
  let b := (← get).builder
  let code ← Step.ofExcept b.bytes
  let sections ← Step.ofExcept b.sectionBytes
  let codeSize ← Step.ofExcept (codeOffset code.length)
  let before := (← target).header
  let localsToken ← localsToken
  let header := {
    flags := before.flags.setMoreSections !sections.isEmpty
    maxStack := UInt16.ofNat (max before.maxStack.toNat b.maxDepth)
    codeSize := UInt32.ofNat codeSize
    localsToken }
  writeBack (MethodBody.fatBytes header code sections)

/-- What keeps a session from a tiny header, whatever the size of its code. -/
def tinyObstacle? (s : Session σ) : Option TinyObstacle :=
  let header := s.target.header
  if s.locals.isModified || !header.localsToken.isNull then some .locals
  else if s.builder.hasClauses then some .clauses
  else if MethodHeader.tinyMaxStack < s.builder.maxDepth ||
      (s.builder.hasOwnCode && MethodHeader.tinyMaxStack < header.maxStack.toNat) then
    some .deepStack
  else none

/-- Writes the body with a tiny header, if it fits one. -/
def finishTiny : Instrument σ Unit := do
  log (.assembling .tiny)
  if let some obstacle := tinyObstacle? (← get) then throw (.tinyBodyUnsupported obstacle)
  let code ← Step.ofExcept (← get).builder.bytes
  let first ← Step.ofExcept (MethodHeader.tinyByte code.length)
  writeBack (first :: code)

end Instrument

end CilInstrument
