import CilInstrument.Error
import CilInstrument.Text.Blank

/- The stack effect of a call, read off the text of the member that is called:
   `[instance] <return type> <owner>::<name>(<parameters>)`. -/
namespace CilInstrument

namespace Member

/-- What stands in front of the first `(`, and what stands between it and the last `)`. -/
def split? (member : List Char) : Option (List Char × List Char) :=
  match member.dropWhile (· != '(') with
  | [] => none
  | _ :: tail =>
    match tail.reverse.dropWhile (· != ')') with
    | [] => none
    | _ :: inner => some (member.takeWhile (· != '('), inner.reverse)

/-- Counts the commas that stand outside all brackets; `nesting` is the number of open
    brackets less the closed ones. -/
def topLevelCommas : (nesting : Int) → List Char → Nat
  | _, [] => 0
  | nesting, c :: rest =>
    match c with
    | '<' | '[' | '(' => topLevelCommas (nesting + 1) rest
    | '>' | ']' | ')' => topLevelCommas (nesting - 1) rest
    | ',' => (if nesting = 0 then 1 else 0) + topLevelCommas nesting rest
    | _ => topLevelCommas nesting rest

/-- Parameters in a list: one more than its top-level commas, none in a blank list. -/
def parameterCount (parameters : List Char) : Nat :=
  let parameters := Text.trim parameters
  if parameters.isEmpty then 0 else 1 + topLevelCommas 0 parameters

/-- The word in front of the return type of an instance member. -/
def instanceWord : List Char := "instance ".toList

def voidWord : List Char := "void ".toList

/-- Whether the text in front of the parameters says that there is a receiver. -/
def isInstance (head : List Char) : Bool := instanceWord.isPrefixOf (Text.trimStart head)

/-- Whether the text in front of the parameters says that nothing is returned. -/
def returnsVoid (head : List Char) : Bool :=
  voidWord.isPrefixOf (Text.trimStart (Text.stripAll instanceWord (Text.trimStart head)))

end Member

/-- A call pops its arguments, and a receiver if the member is an instance member or the
    call is virtual, and pushes what is returned; `newobj` pops the arguments of the
    constructor and pushes the object. Values are counted in a byte, and a receiver on top
    of 255 arguments does not fit into it: the sum wraps. -/
def OpCode.callEffect (op : OpCode) (member : String) : Except Error StackEffect :=
  match Member.split? member.toList with
  | none => .error (.malformed (.noParameterList member))
  | some (head, parameters) =>
    let count := Member.parameterCount parameters
    if 255 < count then .error (.malformed (.tooManyParameters member))
    else if op = .newobj then .ok ⟨count, 1⟩
    else
      let receiver : UInt8 := if Member.isInstance head || op = .callvirt then 1 else 0
      .ok ⟨(UInt8.ofNat count + receiver).toNat, if Member.returnsVoid head then 0 else 1⟩

end CilInstrument
