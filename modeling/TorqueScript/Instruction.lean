import TorqueScript.Address
import TorqueScript.Binary64
import TorqueScript.Opcode
import TorqueScript.Operator
import TorqueScript.Signature

/-!
# Instructions

An `Operation` is what an instruction does, with its operands resolved: names instead of patched
words, strings and numbers instead of pool offsets. An `Instruction` is an operation at an address,
together with its size in code words and the opcode it was decoded from.
-/

namespace TorqueScript

/-- The machine's three types of value. -/
inductive ValueType where
  | uint
  | float
  | str
  deriving DecidableEq, Repr, Inhabited

/-- When a jump is taken, and whether the tested value stays on the stack. -/
inductive JumpKind where
  | always
  | ifNot
  | ifFloatNot
  | ifTrue
  | ifFloat
  | ifNotKeep
  | ifKeep
  deriving DecidableEq, Repr, Inhabited

namespace JumpKind

/-- All kinds of jump. -/
def all : List JumpKind := [always, ifNot, ifFloatNot, ifTrue, ifFloat, ifNotKeep, ifKeep]

/-- The jump tests a value. -/
def isConditional (kind : JumpKind) : Bool :=
  kind != always

/-- The jump skips the right operand of `&&` or `||`, leaving the tested value on the stack. -/
def isShortCircuit : JumpKind → Bool
  | ifNotKeep | ifKeep => true
  | _ => false

/-- The jump is taken when the tested value is true. -/
def whenTrue : JumpKind → Bool
  | ifTrue | ifFloat | ifKeep => true
  | _ => false

/-- The jump begins or ends a block of statements. -/
def makesBlock (kind : JumpKind) : Bool :=
  kind.isConditional && !kind.isShortCircuit

end JumpKind

/-- What an instruction does. -/
inductive Operation where
  | declareFunction (signature : Signature) (hasBody : Bool) (stop : Addr)
  | createObject (parent : Option String) (isDatablock : Bool) (failTarget : Addr)
  | addObject (atRoot : Bool)
  | endObject (atRoot : Bool)
  | jump (kind : JumpKind) (target : Addr)
  | ret (hasValue : Bool)
  | binary (op : BinaryOp)
  | unary (op : UnaryOp)
  | selectVar (name : String) (create : Bool)
  | selectVarArray (create : Bool)
  | loadVar (type : ValueType)
  | saveVar (type : ValueType)
  | selectObject
  | selectNewObject
  | selectField (name : String)
  | selectFieldArray
  | loadField (type : ValueType)
  | saveField (type : ValueType)
  /-- Converts the value of one type to another, or drops it. -/
  | convert (source : ValueType) (target : Option ValueType)
  | immediateUint (value : UInt32)
  | immediateFloat (value : Binary64)
  | immediateStr (value : String)
  | immediateIdent (name : String)
  | immediateTag (value : String)
  | call (name : String) (nameSpace : Option String) (callType : CallType) (resolve : Bool)
  | advanceStr
  | advanceStrAppend (char : Char)
  | advanceStrComma
  | advanceStrNul
  | rewindStr
  | terminateRewindStr
  | compareStr
  | push
  | pushFrame
  | debugBreak
  deriving DecidableEq, Repr, Inhabited

namespace Operation

/-- The operation leaves a string on the machine's string stack. -/
def leavesString : Operation → Bool
  | loadVar .str | loadField .str | saveVar .str | saveField .str => true
  | immediateStr _ | immediateIdent _ | immediateTag _ => true
  | call .. => true
  | convert _ (some .str) => true
  | rewindStr | terminateRewindStr => true
  | _ => false

end Operation

/-- An operation at an address. -/
structure Instruction where
  addr : Addr
  /-- The number of code words. -/
  size : Nat
  opcode : Opcode
  operation : Operation
  deriving DecidableEq, Repr, Inhabited

namespace Instruction

/-- The address after the instruction, in thirty-two bits. -/
def next (ins : Instruction) : Addr :=
  (ins.addr + ins.size) % (Addr.last + 1)

/-- Kind and target of a jump. -/
def jump? (ins : Instruction) : Option (JumpKind × Addr) :=
  match ins.operation with
  | .jump kind target => some (kind, target)
  | _ => none

end Instruction

end TorqueScript
