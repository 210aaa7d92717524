import TorqueScript.Binary64
import TorqueScript.Operator
import TorqueScript.Signature

/-!
# Syntax trees

A `Node` is a statement or an expression of the script language. One type serves for both, because a
tree may put a statement where an expression belongs; `Node.precedence` tells them apart, and printing
refuses such a tree.

Nodes have decidable equality, in which constants that are floating point numbers compare by their
bits.
-/

namespace TorqueScript

/-- The three loops of the language. -/
inductive LoopKind where
  | whileLoop
  | forLoop
  | doWhile
  deriving DecidableEq, Repr, Inhabited

namespace LoopKind

/-- All kinds of loop. -/
def all : List LoopKind := [.whileLoop, .forLoop, .doWhile]

/-- The kind of loop's name in a serialized tree. -/
def name : LoopKind → String
  | .whileLoop => "While"
  | .forLoop => "For"
  | .doWhile => "DoWhile"

end LoopKind

/-- A literal. -/
inductive Constant where
  | uint (value : UInt32)
  | float (value : Binary64)
  | str (value : String)
  | ident (name : String)
  | tagged (value : String)
  deriving DecidableEq, Repr, Inhabited

namespace Constant

/-- The text of a string or an identifier. -/
def text? : Constant → Option String
  | str s | ident s => some s
  | _ => none

/-- The constant is the number one. -/
def isOne : Constant → Bool
  | uint v => v == 1
  | float x => x == .one
  | _ => false

end Constant

/-- A statement or an expression. -/
inductive Node where
  | ret (value : Option Node)
  | ifElse (condition : Node) (thenBody elseBody : List Node)
  | loop (kind : LoopKind) (init : Option Node) (condition : Node) (step : Option Node)
      (body : List Node)
  | breakLoop
  | continueLoop
  | unary (op : UnaryOp) (operand : Node)
  | binary (op : BinaryOp) (left right : Node)
  | compare (op : StringOp) (left right : Node)
  | concat (join : Join) (left right : Node)
  /-- The parts of an index with several dimensions. -/
  | comma (left right : Node)
  | conditional (condition thenValue elseValue : Node)
  | field (owner : Option Node) (name : String) (index : Option Node)
  | var (name : String) (index : Option Node)
  | constant (value : Constant)
  /-- `target = value`, or `target op= value` with an operator. -/
  | assign (target : Node) (op : Option BinaryOp) (value : Node)
  | object (className : Node) (name : Option Node) (parent : Option String) (isDatablock : Bool)
      (args fields children : List Node) (depth : Nat)
  | call (name : String) (nameSpace : Option String) (callType : CallType) (args : List Node)
  | function (signature : Signature) (body : List Node)
  | package (name : String) (functions : List Node)
  deriving Repr, Inhabited

namespace Node

/-! ### Equality -/

mutual

/-- Two nodes are the same. -/
def beq : Node → Node → Bool
  | ret v, ret v' => optionBeq v v'
  | ifElse c t e, ifElse c' t' e' => beq c c' && listBeq t t' && listBeq e e'
  | loop k i c s b, loop k' i' c' s' b' =>
    k == k' && optionBeq i i' && beq c c' && optionBeq s s' && listBeq b b'
  | breakLoop, breakLoop => true
  | continueLoop, continueLoop => true
  | unary o x, unary o' x' => o == o' && beq x x'
  | binary o l r, binary o' l' r' => o == o' && beq l l' && beq r r'
  | compare o l r, compare o' l' r' => o == o' && beq l l' && beq r r'
  | concat j l r, concat j' l' r' => j == j' && beq l l' && beq r r'
  | comma l r, comma l' r' => beq l l' && beq r r'
  | conditional c t e, conditional c' t' e' => beq c c' && beq t t' && beq e e'
  | field o n i, field o' n' i' => optionBeq o o' && n == n' && optionBeq i i'
  | var n i, var n' i' => n == n' && optionBeq i i'
  | constant c, constant c' => c == c'
  | assign t o v, assign t' o' v' => beq t t' && o == o' && beq v v'
  | object c n p d a f ch k, object c' n' p' d' a' f' ch' k' =>
    beq c c' && optionBeq n n' && p == p' && d == d' && listBeq a a' && listBeq f f' &&
      listBeq ch ch' && k == k'
  | call n s t a, call n' s' t' a' => n == n' && s == s' && t == t' && listBeq a a'
  | function s b, function s' b' => s == s' && listBeq b b'
  | package n f, package n' f' => n == n' && listBeq f f'
  | _, _ => false

/-- Two nodes that may be missing are the same. -/
def optionBeq : Option Node → Option Node → Bool
  | none, none => true
  | some a, some b => beq a b
  | _, _ => false

/-- Two lists of nodes are the same. -/
def listBeq : List Node → List Node → Bool
  | [], [] => true
  | a :: as, b :: bs => beq a b && listBeq as bs
  | _, _ => false

end

mutual

theorem beq_iff (a b : Node) : beq a b = true ↔ a = b := by
  cases a with
  | ret v => cases b <;> simp [beq, optionBeq_iff v]
  | ifElse c t e => cases b <;> simp [beq, beq_iff c, listBeq_iff t, listBeq_iff e, and_assoc]
  | loop k i c s bd =>
    cases b <;>
      simp [beq, optionBeq_iff i, beq_iff c, optionBeq_iff s, listBeq_iff bd, and_assoc]
  | breakLoop => cases b <;> simp [beq]
  | continueLoop => cases b <;> simp [beq]
  | unary o x => cases b <;> simp [beq, beq_iff x]
  | binary o l r => cases b <;> simp [beq, beq_iff l, beq_iff r, and_assoc]
  | compare o l r => cases b <;> simp [beq, beq_iff l, beq_iff r, and_assoc]
  | concat j l r => cases b <;> simp [beq, beq_iff l, beq_iff r, and_assoc]
  | comma l r => cases b <;> simp [beq, beq_iff l, beq_iff r]
  | conditional c t e => cases b <;> simp [beq, beq_iff c, beq_iff t, beq_iff e, and_assoc]
  | field o n i => cases b <;> simp [beq, optionBeq_iff o, optionBeq_iff i, and_assoc]
  | var n i => cases b <;> simp [beq, optionBeq_iff i]
  | constant c => cases b <;> simp [beq]
  | assign t o v => cases b <;> simp [beq, beq_iff t, beq_iff v, and_assoc]
  | object c n p d a f ch k =>
    cases b <;>
      simp [beq, beq_iff c, optionBeq_iff n, listBeq_iff a, listBeq_iff f, listBeq_iff ch, and_assoc]
  | call n s t a => cases b <;> simp [beq, listBeq_iff a, and_assoc]
  | function s bd => cases b <;> simp [beq, listBeq_iff bd]
  | package n f => cases b <;> simp [beq, listBeq_iff f]

theorem optionBeq_iff (a b : Option Node) : optionBeq a b = true ↔ a = b := by
  cases a with
  | none => cases b <;> simp [optionBeq]
  | some a => cases b <;> simp [optionBeq, beq_iff a]

theorem listBeq_iff (as bs : List Node) : listBeq as bs = true ↔ as = bs := by
  cases as with
  | nil => cases bs <;> simp [listBeq]
  | cons a as => cases bs <;> simp [listBeq, beq_iff a, listBeq_iff as]

end

instance : DecidableEq Node := fun a b => decidable_of_iff (beq a b = true) (beq_iff a b)

end Node

end TorqueScript
