import CilInstrument.OpCode
import CilInstrument.Token

/- The ways in which reading, building or committing a method body fails. An error
   is its cause, with the values that caused it; the wording of each is fixed once,
   by the `message` functions. -/
namespace CilInstrument

/-- Conditions after which the method must not be touched any further. -/
inductive FatalReason where
  /-- The first byte of the body carries neither the tiny nor the fat tag. -/
  | unknownHeaderFormat (firstByte : UInt8)
  /-- The locals signature declares too many locals to take another one. -/
  | localCountOverflow (count : Nat)
  /-- The host refused the finished body. -/
  | writeBack (cause : String)
  deriving Repr, DecidableEq

def FatalReason.message : FatalReason → String
  | unknownHeaderFormat b =>
    s!"method header is neither tiny nor fat - 0x{Hex.padded 2 b.toNat}"
  | localCountOverflow count =>
    s!"extracted local count (0x{Hex.digits count}) is too big to add locals to (>= 0xfffe)"
  | writeBack cause =>
    s!"writing the method body failed, the method may no longer be valid - {cause}"

/-- The two layouts of an exception section. -/
inductive SectionLayout where
  | small
  | fat
  deriving Repr, DecidableEq

/-- What is wrong with the data, or with a request for an instruction. -/
inductive Malformation where
  | compressedInteger (firstByte : UInt8)
  | compressedTokenTag (value : Nat)
  | valueTooLarge (value : Nat)
  | headerWords (declared : Nat)
  | sectionSize (layout : SectionLayout) (size : Nat)
  | tooManyClauses (count : Nat)
  | clauseOffset (offset : UInt32)
  | elementType (tag : UInt8)
  | genericBase (tag : UInt8)
  | localsTag (tag : UInt8)
  | emptyLocalType
  | noParameterList (member : String)
  | tooManyParameters (member : String)
  | notACall (op : OpCode)
  | notAJump (op : OpCode)
  | operandKind (op : OpCode) (given : OperandKind)
  | noFixedEffect (op : OpCode)
  | labelPlacedTwice (label : Nat)
  | noOpenTry (position : Nat)
  | tryFallsThrough (start : Nat)
  | noClosedTry (position : Nat)
  | noOpenHandler (position : Nat)
  | handlerFallsThrough (start : Nat)
  | regionNotClosed (start : Nat)
  | ownCodePlacedTwice (offset : Nat)
  | jumpDistance (distance : Int)
  | clausesWithoutCode
  | argumentIndex (index : Nat)
  | noResultLocal
  | arrayTooLarge (length : Nat)
  /-- Reported by the host, with the place it gives. -/
  | reported (file : String) (line : Nat) (message : String)
  deriving Repr, DecidableEq

def Malformation.message : Malformation → String
  | compressedInteger b => s!"Invalid compressed uint - {b.toNat}"
  | compressedTokenTag v => s!"Invalid compressed token tag - {v}"
  | valueTooLarge v => s!"Method body value {v} exceeds u32::MAX"
  | headerWords n => s!"Fat method header declares {n} words, at least 3 are required"
  | sectionSize .fat n => s!"Fat exception section of {n} bytes exceeds the method body"
  | sectionSize .small n => s!"Small exception section of {n} bytes exceeds the method body"
  | tooManyClauses n => s!"Exception section with {n} clauses is too large"
  | clauseOffset v => s!"Exception clause offset overflow - {v.toNat}"
  | elementType b => s!"Unsupported ELEMENT_TYPE - {b.toNat}"
  | genericBase b => s!"GENERICINST - Next byte is not TYPE_CLASS or TYPE_VALUE - {b.toNat}"
  | localsTag b => s!"Local variable signature has invalid tag - 0x{Hex.padded 2 b.toNat}"
  | emptyLocalType => "Local variable type must not be empty"
  | noParameterList member => s!"Member '{member}' has no parameter list"
  | tooManyParameters member => s!"Member '{member}' has too many parameters"
  | notACall op => s!"'{op.mnemonic}' is not a call instruction"
  | notAJump op => s!"'{op.mnemonic}' is not a jump instruction"
  | operandKind op given =>
    s!"'{op.mnemonic}' takes a {op.operand.name} operand, not {given.name}"
  | noFixedEffect op => s!"'{op.mnemonic}' has no fixed stack effect"
  | labelPlacedTwice l => s!"Label {l} is placed twice"
  | noOpenTry position => s!"No open try block at {position}"
  | tryFallsThrough start => s!"Try block at {start} must be left explicitly"
  | noClosedTry position => s!"No closed try block at {position}"
  | noOpenHandler position => s!"No open catch block at {position}"
  | handlerFallsThrough start => s!"Catch block at {start} must be left explicitly"
  | regionNotClosed start => s!"Protected region at {start} is not closed"
  | ownCodePlacedTwice offset => s!"User code is already placed at offset {offset}"
  | jumpDistance distance => s!"Jump offset {distance} out of range"
  | clausesWithoutCode => "Original exception clauses without the original code"
  | argumentIndex index => s!"Argument index {index} out of range"
  | noResultLocal => "Method returns a value but has no result local"
  | arrayTooLarge length => s!"Array of {length} elements is too large"
  | reported _ _ message => message

/-- Why the evaluation stack would be left in an inconsistent state. -/
inductive Imbalance where
  | underflow (op : OpCode) (pops depth : Nat)
  | overflow
  | join (label expected actual : Nat)
  | jump (label depth expected : Nat)
  | tryEntered (depth : Nat)
  | ownCodeEntered (depth : Nat)
  | arrayElement (index : Nat) (left : Int)
  /-- Reported by the host. -/
  | reported (message : String)
  deriving Repr, DecidableEq

def Imbalance.message : Imbalance → String
  | underflow op pops depth =>
    s!"'{op.mnemonic}' pops {pops} values from a stack of depth {depth}"
  | overflow => "stack depth exceeds u16 range"
  | join l expected actual => s!"label {l} is reached with depth {expected} and {actual}"
  | jump l depth expected => s!"jump to label {l} with depth {depth}, expected {expected}"
  | tryEntered depth => s!"try block entered with depth {depth}"
  | ownCodeEntered depth => s!"user code entered with depth {depth}"
  | arrayElement index left => s!"array element {index} left {left} values instead of one"
  | reported message => message

/-- What a tiny header has no room for. -/
inductive TinyObstacle where
  | locals
  | clauses
  | deepStack
  /-- Reported by the host. -/
  | reported (name : String)
  deriving Repr, DecidableEq

def TinyObstacle.message : TinyObstacle → String
  | locals => "local variables"
  | clauses => "exception handling clauses"
  | deepStack => "an evaluation stack deeper than 8"
  | reported name => name

inductive Error where
  | fatal (reason : FatalReason)
  | malformed (fault : Malformation)
  /-- A read would go past the end of the data. -/
  | outOfBounds
  | recursionLimit (limit : Nat)
  | invalidMnemonic (text : String)
  /-- A label that is not part of the code, or was jumped to and never placed. -/
  | unknownLabel (label : Nat)
  | stackImbalance (fault : Imbalance)
  | tinyBodyTooLarge (size : Nat)
  | tinyBodyUnsupported (obstacle : TinyObstacle)
  /-- The host has no token for a name. -/
  | unresolvedName (name : String)
  /-- The host has no signature for a token. -/
  | unknownSignature (token : Token)
  deriving Repr, DecidableEq

namespace Error

def isFatal : Error → Bool
  | fatal _ => true
  | _ => false

/-- The full text. A malformation that the host reports shows the host's place. -/
def message : Error → String
  | fatal reason => s!"Fatal method rewrite failure - {reason.message}"
  | malformed (.reported file line text) => s!"Malformed - {file}:{line}: {text}"
  | malformed fault => s!"Malformed - {fault.message}"
  | outOfBounds => "Out of Bound read would have occurred!"
  | recursionLimit limit => s!"Reach the maximum recursion level allowed - {limit}"
  | invalidMnemonic text => s!"Invalid instruction mnemonic - {text}"
  | unknownLabel l => s!"Jump to label {l} which was never placed"
  | stackImbalance fault => s!"Evaluation stack imbalance - {fault.message}"
  | tinyBodyTooLarge size =>
    s!"Code of {size} bytes does not fit into a tiny method header (max 63)"
  | tinyBodyUnsupported obstacle => s!"Tiny method bodies can not carry {obstacle.message}"
  | unresolvedName name => s!"Failed to tokenize '{name}'"
  | unknownSignature token => s!"No signature found for token {token.text}"

end Error

end CilInstrument
