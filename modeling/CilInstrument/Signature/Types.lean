import CilInstrument.Token

/- Types, parameters and method signatures, as signature blobs describe them. -/
namespace CilInstrument

mutual

/-- A type. Modifiers inside it and the bounds of arrays are not kept. -/
inductive TypeSig where
  | void
  | boolean
  | char
  | int8
  | uint8
  | int16
  | uint16
  | int32
  | uint32
  | int64
  | uint64
  | float32
  | float64
  | string
  | pointer (target : TypeSig)
  | byRef (target : TypeSig)
  | valueType (token : Token)
  | classType (token : Token)
  /-- A generic parameter of the enclosing type. -/
  | typeParameter (index : Nat)
  | array (element : TypeSig) (rank : Nat)
  | genericInstance (base : TypeSig) (arguments : List TypeSig)
  | typedReference
  | nativeInt
  | nativeUInt
  | functionPointer (signature : MethodSig)
  | object
  /-- An array of one dimension that starts at zero. -/
  | vector (element : TypeSig)
  /-- A generic parameter of the enclosing method. -/
  | methodParameter (index : Nat)
  | pinned (target : TypeSig)

/-- A parameter or a return type, with the bytes that it was read from. -/
structure ParamSig where
  modifiers : List Token
  /-- Passed by reference. -/
  isByRef : Bool
  base : TypeSig
  /-- All bytes: modifiers, by-reference marker and type. -/
  blob : List UInt8
  /-- The bytes of `base` alone. -/
  typeBlob : List UInt8

structure MethodSig where
  hasThis : Bool
  /-- The receiver is the first of the parameters. -/
  explicitThis : Bool
  isVararg : Bool
  genericCount : Nat
  returnType : ParamSig
  params : List ParamSig

end

namespace TypeSig

def isVoid : TypeSig → Bool
  | void => true
  | _ => false

/-- Whether a value has to be boxed to become an object. Generic parameters count as
    value types: boxing a reference does nothing, and a value must be boxed. -/
def needsBoxing : TypeSig → Bool
  | boolean | char | int8 | uint8 | int16 | uint16 | int32 | uint32 | int64 | uint64 | float32
  | float64 | nativeInt | nativeUInt | valueType _ | typedReference | typeParameter _
  | methodParameter _ => true
  | genericInstance base _ => base.needsBoxing
  | pinned target => target.needsBoxing
  | _ => false

end TypeSig

/-- The return type of a method that returns nothing. -/
def ParamSig.isVoid (p : ParamSig) : Bool := !p.isByRef && p.base.isVoid

/-- The argument slot of the parameter at `index`: an implicit receiver takes the first
    slot, an explicit one is itself a parameter. -/
def MethodSig.argumentIndex (m : MethodSig) (index : Nat) : Nat :=
  index + if m.hasThis && !m.explicitThis then 1 else 0

end CilInstrument
