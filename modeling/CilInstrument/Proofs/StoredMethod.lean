import CilInstrument.Host

/- The simplest host: one stored method and a list of signatures. Names are not told
   apart; a signature has the token of its place in the list, and writing replaces the
   body. -/
namespace CilInstrument

structure StoredMethod where
  name : String
  signature : List UInt8
  body : List UInt8
  signatures : List (List UInt8)
  deriving Repr, DecidableEq

namespace StoredMethod

/-- The token of the signature at a place of the list. -/
def signatureToken (index : Nat) : Token := ⟨UInt32.ofNat (0x11 * 0x1000000 + index + 1)⟩

instance : Host StoredMethod where
  stringToken _ := pure ⟨0x70000001⟩
  typeToken _ := pure ⟨0x01000001⟩
  memberToken _ := pure ⟨0x0A000001⟩
  typeSpecToken _ := pure ⟨0x1B000001⟩
  typeSignature _ := pure [0x1C]
  methodName m := m.name
  methodSignature m := m.signature
  methodBytes := do return (← get).body
  signatureOf token := do
    match (← get).signatures[token.row - 1]? with
    | some blob => return blob
    | none => throw (.unknownSignature token)
  internSignature blob := modifyGet fun m =>
    (signatureToken m.signatures.length, { m with signatures := m.signatures ++ [blob] })
  writeMethod body := modify fun m => { m with body }

/-- A method that returns nothing and takes nothing, with the body `ret`. -/
def empty : StoredMethod := ⟨"M", [0x00, 0x00, 0x01], [0x06, 0x2A], []⟩

end StoredMethod

end CilInstrument
