import TorqueScript.Node

/-!
# Shape of a node

What printing and rebuilding ask of a node: the name of its kind, how tightly it binds, whether it may
stand bare as a right operand, the compound form of an assignment, the nodes below it, and its logical
negation.
-/

namespace TorqueScript

/-! ### Binding strengths of expressions other than binary operators -/

namespace Precedence

/-- Names, literals and other expressions that never need parentheses. -/
def primary : Nat := 0

/-- Fields and method calls. -/
def member : Nat := 1

/-- Unary operators. -/
def unary : Nat := 2

/-- Concatenation and string comparison. -/
def concat : Nat := 6

/-- The choice `c ? a : b`. -/
def conditional : Nat := 14

/-- Assignments. -/
def assignment : Nat := 15

/-- Several dimensions of an index. -/
def comma : Nat := 16

/-- Statements, which are no expressions at all. -/
def statement : Nat := 255

end Precedence

namespace Node

/-- The name of a node's kind in messages. -/
def kindName : Node → String
  | ret _ => "return"
  | ifElse .. => "if"
  | loop .. => "loop"
  | breakLoop => "break"
  | continueLoop => "continue"
  | unary .. => "unary expression"
  | binary .. => "binary expression"
  | compare .. => "string comparison"
  | concat .. => "concatenation"
  | comma .. => "comma concatenation"
  | conditional .. => "conditional expression"
  | field .. => "field"
  | var .. => "variable"
  | constant _ => "constant"
  | assign .. => "assignment"
  | object .. => "object declaration"
  | call .. => "function call"
  | function .. => "function declaration"
  | package .. => "package"

/-- How tightly a node binds; a lower number binds tighter. -/
def precedence : Node → Nat
  | constant _ | var .. | object .. => Precedence.primary
  | field .. => Precedence.member
  | call _ _ .method _ => Precedence.member
  | call .. => Precedence.primary
  | unary .. => Precedence.unary
  | binary op _ _ => op.precedence
  | compare .. | concat .. => Precedence.concat
  | conditional .. => Precedence.conditional
  | assign .. => Precedence.assignment
  | comma .. => Precedence.comma
  | ret _ | ifElse .. | loop .. | breakLoop | continueLoop | function .. | package .. =>
    Precedence.statement

/-- The node is a statement and no expression. -/
def isStatement (n : Node) : Bool :=
  n.precedence == Precedence.statement

/-- The node, as the right operand of a parent that binds as tightly, means the same without
parentheses. -/
def associatesWith : Node → Node → Bool
  | concat .., concat .. => true
  | field .., field .. | field .., call .. | call .., field .. | call .., call .. => true
  | binary a _ _, binary b _ _ => a == b && a.isAssociative
  | _, _ => false

/-- The compound form `target op= value` of an assignment: it has an operator, or its value is
`target op value` for an operator with a compound form. -/
def compound? : Node → Option (BinaryOp × Node)
  | assign _ (some op) value => some (op, value)
  | assign target none (binary op left right) =>
    if op.isCompound && left == target then some (op, right) else none
  | _ => none

/-- The nodes directly below, in the order of the source. -/
def children : Node → List Node
  | ret value => value.toList
  | ifElse condition thenBody elseBody => condition :: thenBody ++ elseBody
  | loop _ init condition step body => init.toList ++ condition :: step.toList ++ body
  | breakLoop | continueLoop | constant _ => []
  | unary _ operand => [operand]
  | binary _ left right | compare _ left right | concat _ left right | comma left right =>
    [left, right]
  | conditional condition thenValue elseValue => [condition, thenValue, elseValue]
  | field owner _ index => owner.toList ++ index.toList
  | var _ index => index.toList
  | assign target _ value => [target, value]
  | object className name _ _ args fields children _ =>
    className :: name.toList ++ args ++ fields ++ children
  | call _ _ _ args => args
  | function _ body => body
  | package _ functions => functions

mutual

/-- The node and all nodes below it, each before the nodes below it. -/
def subnodes : Node → List Node
  | n@(ret value) => n :: optionSubnodes value
  | n@(ifElse condition thenBody elseBody) =>
    n :: (subnodes condition ++ listSubnodes thenBody ++ listSubnodes elseBody)
  | n@(loop _ init condition step body) =>
    n :: (optionSubnodes init ++ subnodes condition ++ optionSubnodes step ++ listSubnodes body)
  | breakLoop => [breakLoop]
  | continueLoop => [continueLoop]
  | constant c => [constant c]
  | n@(unary _ operand) => n :: subnodes operand
  | n@(binary _ left right) => n :: (subnodes left ++ subnodes right)
  | n@(compare _ left right) => n :: (subnodes left ++ subnodes right)
  | n@(concat _ left right) => n :: (subnodes left ++ subnodes right)
  | n@(comma left right) => n :: (subnodes left ++ subnodes right)
  | n@(conditional condition thenValue elseValue) =>
    n :: (subnodes condition ++ subnodes thenValue ++ subnodes elseValue)
  | n@(field owner _ index) => n :: (optionSubnodes owner ++ optionSubnodes index)
  | n@(var _ index) => n :: optionSubnodes index
  | n@(assign target _ value) => n :: (subnodes target ++ subnodes value)
  | n@(object className name _ _ args fields children _) =>
    n :: (subnodes className ++ optionSubnodes name ++ listSubnodes args ++ listSubnodes fields ++
      listSubnodes children)
  | n@(call _ _ _ args) => n :: listSubnodes args
  | n@(function _ body) => n :: listSubnodes body
  | n@(package _ functions) => n :: listSubnodes functions

/-- The nodes of a node that may be missing. -/
def optionSubnodes : Option Node → List Node
  | none => []
  | some n => subnodes n

/-- The nodes of a list of nodes. -/
def listSubnodes : List Node → List Node
  | [] => []
  | n :: ns => subnodes n ++ listSubnodes ns

end

/-- `needle` is the node or occurs below it. -/
def contains (n needle : Node) : Bool :=
  n.subnodes.contains needle

/-- Logical negation. Negating a negation removes it, and a string comparison has its opposite. -/
def negate : Node → Node
  | unary .not operand => operand
  | compare op left right => compare op.negate left right
  | n => unary .not n

/-! ### Subnodes are the node and the subnodes of its children -/

theorem listSubnodes_eq (ns : List Node) : listSubnodes ns = ns.flatMap subnodes := by
  induction ns with
  | nil => rfl
  | cons n ns ih => simp [listSubnodes, ih]

theorem optionSubnodes_eq (n : Option Node) : optionSubnodes n = n.toList.flatMap subnodes := by
  cases n <;> simp [optionSubnodes]

theorem subnodes_eq (n : Node) : n.subnodes = n :: n.children.flatMap subnodes := by
  cases n <;> simp [subnodes, children, listSubnodes_eq, optionSubnodes_eq, List.flatMap_append]

end Node

end TorqueScript
