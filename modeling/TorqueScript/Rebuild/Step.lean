import TorqueScript.Rebuild.State

/-!
# Running one instruction

`Rebuild.step` runs an instruction on the state of rebuilding. Jumps that make blocks are no
instructions in this sense: they have become the structure around the others.
-/

namespace TorqueScript

namespace Rebuild

/-! ### Strings -/

/-- Makes the top value the left half of a string operation. -/
def advance (ins : Instruction) (kind : Accumulation) : Rebuild Unit := do
  let left ← pop ins
  pushOperand (.accumulator left kind)

/-- Completes a concatenation. -/
def rewind (ins : Instruction) : Rebuild Unit := do
  let right ← pop ins
  let (left, kind) ← popAccumulator ins
  match kind with
  | .join join => push (.concat join left right)
  | .comma => push (.comma left right)
  | .compare => throw (unexpected ins "concatenation" "string comparison")

/-- Completes a string comparison. -/
def compareStrings (ins : Instruction) : Rebuild Unit := do
  let right ← pop ins
  let (left, kind) ← popAccumulator ins
  if kind = .compare then push (.compare .equal left right)
  else throw (unexpected ins "string comparison" "concatenation")

/-- Gives up a string operation; its left half comes to the top. -/
def terminate (ins : Instruction) : Rebuild Unit := do
  match ← popOperand ins with
  | .accumulator left _ => push left
  | .node top => do
    let (left, _) ← popAccumulator ins
    push top
    push left

/-! ### Variables and fields -/

/-- An indexed variable. Most often its name has been joined to the index. -/
def indexVariable (ins : Instruction) : Rebuild Unit := do
  match ← pop ins with
  | .concat .plain (.constant (.str name)) index => push (.var name (some index))
  | .concat .plain (.constant (.ident name)) index => push (.var name (some index))
  | index => do
    match ← pop ins with
    | .var name none => push (.var name (some index))
    | other => throw (unexpected ins "variable" other.kindName)

/-- A field of the object chosen before. -/
def selectField (ins : Instruction) (name : String) : Rebuild Unit := do
  let s ← get
  set { s with fieldOwner := .implicit }
  match s.fieldOwner with
  | .operand => do
    let owner ← pop ins
    push (.field (some owner) name none)
  | .newObject | .implicit => push (.field none name none)

/-- An indexed field. -/
def indexField (ins : Instruction) : Rebuild Unit := do
  let index ← pop ins
  match ← pop ins with
  | .field owner name none => push (.field owner name (some index))
  | other => throw (unexpected ins "field" other.kindName)

/-- Assigning `target op value` to the target is a compound assignment. -/
def assignment (target value : Node) : Node :=
  match value with
  | .binary op left right =>
    if op.isCompound && left == target then .assign target (some op) right
    else .assign target none value
  | _ => .assign target none value

/-- Assigns to a variable. -/
def saveVariable (ins : Instruction) : Rebuild Unit := do
  let target ← pop ins
  match target with
  | .var .. => do
    let value ← pop ins
    push (assignment target value)
  | other => throw (unexpected ins "variable" other.kindName)

/-- Assigns to a field. -/
def saveField (ins : Instruction) : Rebuild Unit := do
  let target ← pop ins
  match target with
  | .field .. => do
    let value ← pop ins
    push (assignment target value)
  | other => throw (unexpected ins "field" other.kindName)

/-! ### Calls -/

/-- Closes the innermost argument frame and gives its arguments. -/
def popFrame (ins : Instruction) : Rebuild (List Node) := fun s =>
  match s.frames with
  | frame :: frames => .ok (frame.reverse, { s with frames })
  | [] => .error (frameUnderflow ins)

/-- Adds the top value to the innermost argument frame. -/
def pushArgument (ins : Instruction) : Rebuild Unit := do
  let value ← pop ins
  let s ← get
  match s.frames with
  | frame :: frames => set { s with frames := (value :: frame) :: frames }
  | [] => throw (frameUnderflow ins)

/-! ### Objects -/

/-- The name of an object; an empty one counts as none. -/
def objectName? : Option Node → Option Node
  | some (.constant (.str "")) => none
  | name => name

/-- Begins an object declaration. -/
def createObject (ins : Instruction) (parent : Option String) (isDatablock : Bool) :
    Rebuild Unit := do
  match ← popFrame ins with
  | [] => throw (underflow ins)
  | className :: rest => do
    let s ← get
    push (.object className (objectName? rest.head?) parent isDatablock rest.tail [] [] s.objectDepth)
    modify fun s => { s with objectDepth := s.objectDepth + 1 }

/-- An assignment to a field of the object being declared. -/
def isOwnField : Operand → Bool
  | .node (.assign (.field none _ _) _ _) => true
  | _ => false

/-- An object declared at the given depth. -/
def isObjectAt (depth : Nat) : Operand → Bool
  | .node (.object _ _ _ _ _ _ _ d) => d == depth
  | _ => false

/-- The nodes among operands. -/
def nodes (operands : List Operand) : List Node :=
  operands.filterMap fun
    | .node n => some n
    | .accumulator .. => none

/-- Takes the object being declared at a depth off the stack and puts it back changed. -/
def updateObject (ins : Instruction) (depth : Nat) (between : Rebuild Unit) (update : Node → Node) :
    Rebuild Unit := do
  match ← pop ins with
  | n@(.object _ _ _ _ _ _ _ d) =>
    if d = depth then do
      between
      push (update n)
    else throw (unexpected ins "object declaration" n.kindName)
  | other => throw (unexpected ins "object declaration" other.kindName)

/-- Gives an object its fields. -/
def withFields (fields : List Node) : Node → Node
  | .object className name parent isDatablock args _ children depth =>
    .object className name parent isDatablock args fields children depth
  | n => n

/-- Gives an object the objects declared inside it. -/
def withChildren (children : List Node) : Node → Node
  | .object className name parent isDatablock args fields _ depth =>
    .object className name parent isDatablock args fields children depth
  | n => n

/-- Takes off the zero that stands before an outermost declaration. -/
def popPlaceholder (ins : Instruction) : Rebuild Unit := do
  match ← pop ins with
  | n@(.constant (.uint v)) =>
    if v = 0 then pure () else throw (unexpected ins "root placeholder" n.kindName)
  | other => throw (unexpected ins "root placeholder" other.kindName)

/-- Ends the fields of the object being declared. -/
def addObject (ins : Instruction) (atRoot : Bool) : Rebuild Unit := do
  let s ← get
  match s.objectDepth with
  | 0 => throw (.objectDepthUnderflow ins.addr)
  | depth + 1 => do
    let fields ← popWhile isOwnField
    updateObject ins depth (if atRoot then popPlaceholder ins else pure ()) (withFields (nodes fields))

/-- Ends an object declaration. -/
def endObject (ins : Instruction) : Rebuild Unit := do
  let s ← get
  match s.objectDepth with
  | 0 => throw (.objectDepthUnderflow ins.addr)
  | depth + 1 => do
    set { s with objectDepth := depth }
    let children ← popWhile (isObjectAt (depth + 1))
    updateObject ins depth (pure ()) (withChildren (nodes children))

/-! ### Functions -/

/-- Declares a function; a body follows up to `stop` if there is one. -/
def declareFunction (ins : Instruction) (signature : Signature) (hasBody : Bool) (stop : Addr) :
    Rebuild Unit := do
  let s ← get
  if s.function.isSome then throw (.nestedFunction ins.addr)
  else if hasBody then do
    set { s with function := some { signature, stop, depth := s.saved.length } }
    openPart
  else push (.function signature [])

/-! ### All instructions -/

/-- Logical negation of a value, which turns a string comparison into its opposite. -/
def unaryNode (op : UnaryOp) (operand : Node) : Node :=
  match op, operand with
  | .not, .compare .. => operand.negate
  | _, _ => .unary op operand

/-- Runs an instruction. -/
def step (ins : Instruction) : Rebuild Unit :=
  match ins.operation with
  | .declareFunction signature hasBody stop => declareFunction ins signature hasBody stop
  | .createObject parent isDatablock _ => createObject ins parent isDatablock
  | .addObject atRoot => addObject ins atRoot
  | .endObject _ => endObject ins
  | .jump kind target =>
    if kind.isShortCircuit then
      let op := if kind.whenTrue then .or else .and
      modify fun s => { s with pending := ⟨target, op, ins⟩ :: s.pending }
    else throw (.unstructuredBranch ins.addr)
  | .ret true => do
    let value ← pop ins
    push (.ret (some value))
  | .ret false => push (.ret none)
  | .binary op => do
    let right ← pop ins
    let left ← pop ins
    push (.binary op left right)
  | .unary op => do
    let operand ← pop ins
    push (unaryNode op operand)
  | .selectVar name _ => push (.var name none)
  | .selectVarArray _ => indexVariable ins
  | .loadVar _ | .loadField _ | .convert .. | .debugBreak => pure ()
  | .saveVar _ => saveVariable ins
  | .saveField _ => saveField ins
  | .selectObject => modify fun s => { s with fieldOwner := .operand }
  | .selectNewObject => modify fun s => { s with fieldOwner := .newObject }
  | .selectField name => selectField ins name
  | .selectFieldArray => indexField ins
  | .immediateUint v => push (.constant (.uint v))
  | .immediateFloat x => push (.constant (.float x))
  | .immediateStr s => push (.constant (.str s))
  | .immediateIdent s => push (.constant (.ident s))
  | .immediateTag s => push (.constant (.tagged s))
  | .call name nameSpace callType _ => do
    let args ← popFrame ins
    push (.call name nameSpace callType args)
  | .advanceStr => advance ins (.join .plain)
  | .advanceStrAppend c =>
    match Join.ofChar? c with
    | some join => advance ins (.join join)
    | none => throw (.invalidAppendChar ins.addr c.toNat)
  | .advanceStrComma => advance ins .comma
  | .advanceStrNul => advance ins .compare
  | .rewindStr => rewind ins
  | .terminateRewindStr => terminate ins
  | .compareStr => compareStrings ins
  | .push => pushArgument ins
  | .pushFrame => modify fun s => { s with frames := [] :: s.frames }

end Rebuild

end TorqueScript
