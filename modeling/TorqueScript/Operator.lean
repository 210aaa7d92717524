/-!
# Operators of the script language

The operators that both the instruction set and the syntax tree speak about: binary and unary
operators, string comparison, the ways of joining two strings, and the kinds of call. Each knows how
it is spelled; a binary operator also knows how tightly it binds, whether a run of it reads the same
however it is grouped, and whether it has an `op=` assignment form.
-/

namespace TorqueScript

/-- Operators between two values. -/
inductive BinaryOp where
  | equal
  | greater
  | greaterEqual
  | less
  | lessEqual
  | notEqual
  | xor
  | mod
  | bitAnd
  | bitOr
  | shr
  | shl
  | and
  | or
  | add
  | sub
  | mul
  | div
  deriving DecidableEq, Repr, Inhabited

namespace BinaryOp

/-- All binary operators. -/
def all : List BinaryOp :=
  [equal, greater, greaterEqual, less, lessEqual, notEqual, xor, mod, bitAnd, bitOr, shr, shl, and,
    or, add, sub, mul, div]

/-- The operator as it is written in source. -/
def token : BinaryOp → String
  | equal => "=="
  | greater => ">"
  | greaterEqual => ">="
  | less => "<"
  | lessEqual => "<="
  | notEqual => "!="
  | xor => "^"
  | mod => "%"
  | bitAnd => "&"
  | bitOr => "|"
  | shr => ">>"
  | shl => "<<"
  | and => "&&"
  | or => "||"
  | add => "+"
  | sub => "-"
  | mul => "*"
  | div => "/"

/-- The operator's name in a serialized tree. -/
def name : BinaryOp → String
  | equal => "Equal"
  | greater => "Greater"
  | greaterEqual => "GreaterEqual"
  | less => "Less"
  | lessEqual => "LessEqual"
  | notEqual => "NotEqual"
  | xor => "Xor"
  | mod => "Mod"
  | bitAnd => "BitAnd"
  | bitOr => "BitOr"
  | shr => "Shr"
  | shl => "Shl"
  | and => "And"
  | or => "Or"
  | add => "Add"
  | sub => "Sub"
  | mul => "Mul"
  | div => "Div"

/-- Binding strength; a lower number binds tighter. -/
def precedence : BinaryOp → Nat
  | mul | div | mod => 3
  | add | sub => 4
  | shl | shr => 5
  | less | lessEqual | greater | greaterEqual => 7
  | equal | notEqual => 8
  | bitAnd => 9
  | xor => 10
  | bitOr => 11
  | and => 12
  | or => 13

/-- `a op (b op c)` may be written `a op b op c`. -/
def isAssociative : BinaryOp → Bool
  | add | mul | and | or | bitAnd | bitOr | xor => true
  | _ => false

/-- The operator has an assignment form `op=`. -/
def isCompound : BinaryOp → Bool
  | add | sub | mul | div | mod | bitAnd | bitOr | xor | shl | shr => true
  | _ => false

end BinaryOp

/-- Operators on one value. -/
inductive UnaryOp where
  | not
  | complement
  | neg
  deriving DecidableEq, Repr, Inhabited

namespace UnaryOp

/-- All unary operators. -/
def all : List UnaryOp := [not, complement, neg]

/-- The operator as it is written in source. -/
def token : UnaryOp → String
  | not => "!"
  | complement => "~"
  | neg => "-"

/-- The operator's name in a serialized tree. -/
def name : UnaryOp → String
  | not => "Not"
  | complement => "Complement"
  | neg => "Neg"

end UnaryOp

/-- Comparison of two strings. -/
inductive StringOp where
  | equal
  | notEqual
  deriving DecidableEq, Repr, Inhabited

namespace StringOp

/-- Both string comparisons. -/
def all : List StringOp := [equal, notEqual]

/-- The comparison as it is written in source. -/
def token : StringOp → String
  | equal => "$="
  | notEqual => "!$="

/-- The comparison's name in a serialized tree. -/
def name : StringOp → String
  | equal => "Equal"
  | notEqual => "NotEqual"

/-- The opposite comparison. -/
def negate : StringOp → StringOp
  | equal => notEqual
  | notEqual => equal

end StringOp

/-- How the two halves of a concatenation are joined. -/
inductive Join where
  | plain
  | space
  | tab
  | newLine
  deriving DecidableEq, Repr, Inhabited

namespace Join

/-- All ways to join. -/
def all : List Join := [plain, space, tab, newLine]

/-- The join that puts the character `c` between the halves. -/
def ofChar? : Char → Option Join
  | ' ' => some space
  | '\t' => some tab
  | '\n' => some newLine
  | _ => none

/-- The join as it is written in source. -/
def token : Join → String
  | plain => "@"
  | space => "SPC"
  | tab => "TAB"
  | newLine => "NL"

/-- The join's name in a serialized tree. -/
def name : Join → String
  | plain => "Plain"
  | space => "Space"
  | tab => "Tab"
  | newLine => "NewLine"

end Join

/-- How a call finds its function. -/
inductive CallType where
  | function
  | method
  | parent
  deriving DecidableEq, Repr, Inhabited

namespace CallType

/-- All kinds of call. -/
def all : List CallType := [function, method, parent]

/-- The kind of call's name in a serialized tree. -/
def name : CallType → String
  | function => "Function"
  | method => "Method"
  | parent => "Parent"

end CallType

end TorqueScript
