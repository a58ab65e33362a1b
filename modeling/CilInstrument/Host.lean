import CilInstrument.Step

/- What instrumentation asks of the program that it runs in: tokens for names and
   blobs, the stored method, and the place where the finished body goes. A host is a
   type of states with these operations; each may change the state, also when it
   fails. -/
namespace CilInstrument

/-- A question to a host. -/
abbrev Ask (σ : Type) := Step σ

/-- Gives tokens for names, which are spelled as an assembler of CIL spells them. -/
class Resolver (σ : Type) where
  /-- The token of a string literal. -/
  stringToken : String → Ask σ Token
  typeToken : String → Ask σ Token
  memberToken : String → Ask σ Token
  /-- The token of the type that the bytes encode. -/
  typeSpecToken : List UInt8 → Ask σ Token
  /-- The bytes that encode the type of that name. -/
  typeSignature : String → Ask σ (List UInt8)

/-- The host of one method. -/
class Host (σ : Type) extends Resolver σ where
  /-- The method's name, for the log. -/
  methodName : σ → String
  /-- The method's signature. -/
  methodSignature : σ → List UInt8
  /-- The stored body, header included. -/
  methodBytes : Ask σ (List UInt8)
  signatureOf : Token → Ask σ (List UInt8)
  /-- Stores a signature of its own and gives its token. -/
  internSignature : List UInt8 → Ask σ Token
  /-- Replaces the stored body. -/
  writeMethod : List UInt8 → Ask σ Unit

end CilInstrument
