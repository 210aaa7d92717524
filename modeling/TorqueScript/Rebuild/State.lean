import TorqueScript.Error
import TorqueScript.Instruction
import TorqueScript.Node.Shape

/-!
# State of rebuilding

Statements are rebuilt by running the instructions on nodes instead of values. The state is a stack of
operands for the part of the stream being rebuilt, the stacks of the parts around it, the frames in
which call arguments are collected, the function being declared, the nesting depth of object
declarations, where the next field takes its object from, and the `&&` and `||` whose right operand is
not complete yet.

What a part of the stream leaves on its stack are its statements, so a statement is an operand too; but
only an expression can be taken off the stack as a value.
-/

namespace TorqueScript

namespace Node

/-- The node as a value. A choice between two single values is a conditional expression; any other
statement has no value, and the name of its kind is returned. -/
def asExpression : Node → Except String Node
  | ifElse condition [thenValue] [elseValue] => do
    let t ← asExpression thenValue
    let e ← asExpression elseValue
    pure (conditional condition t e)
  | n => if n.isStatement then throw n.kindName else pure n

end Node

namespace Rebuild

/-- What the left half of a string operation waits for. -/
inductive Accumulation where
  | join (join : Join)
  | comma
  | compare
  deriving DecidableEq, Repr

/-- An entry of the operand stack. -/
inductive Operand where
  | node (n : Node)
  /-- The left half of a string operation. -/
  | accumulator (left : Node) (kind : Accumulation)
  deriving Repr

/-- The function being declared. -/
structure FunctionFrame where
  signature : Signature
  /-- The address at which its body ends. -/
  stop : Addr
  /-- The number of parts around the declaration. -/
  depth : Nat
  deriving Repr

/-- Where the next field takes its object from. -/
inductive FieldOwner where
  | implicit
  | operand
  | newObject
  deriving DecidableEq, Repr

/-- A `&&` or `||` whose right operand ends before `target`. -/
structure Pending where
  target : Addr
  op : BinaryOp
  /-- The jump that skips the right operand. -/
  source : Instruction
  deriving Repr

/-- The state of rebuilding. Stacks have their top first. -/
structure State where
  operands : List Operand := []
  /-- The operand stacks of the parts around the current one. -/
  saved : List (List Operand) := []
  /-- The open argument frames, each with its last argument first. -/
  frames : List (List Node) := []
  function : Option FunctionFrame := none
  /-- The number of open object declarations. -/
  objectDepth : Nat := 0
  fieldOwner : FieldOwner := .implicit
  pending : List Pending := []
  deriving Repr

end Rebuild

/-- A computation on the state of rebuilding. -/
abbrev Rebuild := StateT Rebuild.State (Except Error)

namespace Rebuild

/-! ### Operands -/

/-- The instruction needs an operand that is not there. -/
def underflow (ins : Instruction) : Error :=
  .stackUnderflow ins.addr ins.opcode

/-- The instruction needs another kind of operand. -/
def unexpected (ins : Instruction) (expected found : String) : Error :=
  .unexpectedOperand ins.addr ins.opcode expected found

/-- The instruction needs an argument frame that is not open. -/
def frameUnderflow (ins : Instruction) : Error :=
  .frameUnderflow ins.addr ins.opcode

/-- Puts an operand on the stack. -/
def pushOperand (operand : Operand) : Rebuild Unit :=
  modify fun s => { s with operands := operand :: s.operands }

/-- Puts a node on the stack. -/
def push (n : Node) : Rebuild Unit :=
  pushOperand (.node n)

/-- Takes the top operand off the stack. -/
def popOperand (ins : Instruction) : Rebuild Operand := fun s =>
  match s.operands with
  | operand :: operands => .ok (operand, { s with operands })
  | [] => .error (underflow ins)

/-- Takes a value off the stack. -/
def pop (ins : Instruction) : Rebuild Node := do
  match ← popOperand ins with
  | .node n =>
    match n.asExpression with
    | .ok n => pure n
    | .error found => throw (unexpected ins "expression" found)
  | .accumulator .. => throw (unexpected ins "expression" "string accumulator")

/-- Takes the left half of a string operation off the stack. -/
def popAccumulator (ins : Instruction) : Rebuild (Node × Accumulation) := do
  match ← popOperand ins with
  | .accumulator left kind => pure (left, kind)
  | .node n => throw (unexpected ins "string accumulator" n.kindName)

/-- Takes the operands with a property off the stack, down to the first one without it; the deepest
one comes first in the result. -/
def popWhile (p : Operand → Bool) : Rebuild (List Operand) := do
  let s ← get
  set { s with operands := s.operands.dropWhile p }
  pure (s.operands.takeWhile p).reverse

/-! ### Parts of the stream -/

/-- The operands of a part as its statements; every string operation must be complete. -/
def statements (addr : Addr) (operands : List Operand) : Except Error (List Node) :=
  operands.reverse.mapM fun
    | .node n => .ok n
    | .accumulator .. => .error (.unclosedAccumulator addr)

/-- Begins a part inside the current one. -/
def openPart : Rebuild Unit :=
  modify fun s => { s with operands := [], saved := s.operands :: s.saved }

/-- Ends the current part and gives its statements. -/
def closePart (addr : Addr) : Rebuild (List Node) := fun s =>
  match s.saved with
  | [] => .error (.unstructuredBranch addr)
  | outer :: saved => do
    let body ← statements addr s.operands
    .ok (body, { s with operands := outer, saved })

/-! ### Short circuits and functions -/

/-- Completes the given `&&` and `||`, as long as their right operands end before `addr`. -/
def foldPending (addr : Addr) : List Pending → Rebuild Unit
  | [] => pure ()
  | p :: ps =>
    if p.target ≤ addr then do
      modify fun s => { s with pending := ps }
      let right ← pop p.source
      let left ← pop p.source
      push (.binary p.op left right)
      foldPending addr ps
    else pure ()

/-- Completes the `&&` and `||` whose right operands end before `addr`. -/
def foldLogic (addr : Addr) : Rebuild Unit := do
  let s ← get
  foldPending addr s.pending

/-- Ends the function being declared, which must be the current part. -/
def endFunction (addr : Addr) : Rebuild Unit := do
  let s ← get
  match s.function with
  | none => pure ()
  | some frame =>
    if s.saved.length ≠ frame.depth + 1 then throw (.unbalancedFunction addr frame.stop)
    else do
      set { s with function := none }
      let body ← closePart addr
      push (.function frame.signature body)

/-- Ends the function being declared if its body does not reach `addr`. -/
def closeFunction (addr : Addr) : Rebuild Unit := do
  let s ← get
  match s.function with
  | some frame => if addr < frame.stop then pure () else endFunction addr
  | none => pure ()

/-- What happens before every instruction. -/
def enter (addr : Addr) : Rebuild Unit := do
  closeFunction addr
  foldLogic addr

end Rebuild

end TorqueScript
