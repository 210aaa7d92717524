import TorqueScript.Node.Shape
import TorqueScript.Source.Literal

/-!
# Source tokens

`Node.tokens` writes a node as a list of tokens, blanks and line ends among them; indentation comes
later. An expression stands bare or, where precedence asks for it, in parentheses. In the position of a
statement an expression is followed by a semicolon; in the position of an expression a statement is
refused. If several parts of a tree cannot be written, the first of them is told.
-/

namespace TorqueScript

namespace Source

/-- Opens a block. -/
def openBrace : String := "\x7b"

/-- Closes a block. -/
def closeBrace : String := "\x7d"

/-- Where a node is written. -/
inductive Position where
  | statement
  | expression
  deriving DecidableEq, Repr

namespace Position

/-- An expression, which a semicolon turns into a statement. -/
def value (pos : Position) (tokens : List String) : List String :=
  match pos with
  | .statement => tokens ++ [";", "\n"]
  | .expression => tokens

/-- A statement, which is no expression. -/
def only (pos : Position) (n : Node) (tokens : Except Error (List String)) :
    Except Error (List String) :=
  match pos with
  | .statement => tokens
  | .expression => throw (.statementInExpression n.kindName)

end Position

/-- Puts parentheses around tokens, or not. -/
def parens (wrap : Bool) (tokens : List String) : List String :=
  if wrap then "(" :: tokens ++ [")"] else tokens

/-- The left operand of `parent` needs parentheses. -/
def wrapsLeft (parent child : Node) : Bool :=
  parent.precedence < child.precedence

/-- The right operand of `parent` needs parentheses. -/
def wrapsRight (parent child : Node) : Bool :=
  parent.precedence < child.precedence ||
    (child.precedence == parent.precedence && !child.associatesWith parent)

/-- The operand of a unary operator needs parentheses: it binds less tightly, or begins with an
operator itself. -/
def wrapsOperand (op : UnaryOp) (operand : Node) : Bool :=
  Precedence.unary < operand.precedence ||
    match operand with
    | .unary .. => true
    | .constant (.float x) => x.isBelowZero && op == .neg
    | _ => false

/-- An infix operator between its operands. -/
def infixed (left : List String) (op : String) (right : List String) : List String :=
  left ++ [" ", op, " "] ++ right

/-- The node `n` with the infix operator `op` and the operands `left` and `right`, whose tokens are
`l` and `r`. -/
def infixTokens (n left right : Node) (op : String) (l r : List String) : List String :=
  infixed (parens (wrapsLeft n left) l) op (parens (wrapsRight n right) r)

/-- A block of statements. -/
def block (body : List String) : List String :=
  openBrace :: "\n" :: body ++ [closeBrace, "\n"]

/-- The node is the number one. -/
def isOne : Node → Bool
  | .constant c => c.isOne
  | _ => false

/-- The right side of a plain assignment; a compound assignment in it stands in parentheses. -/
def assignedTokens (value : Node) (tokens : List String) : List String :=
  [" ", "=", " "] ++ parens value.compound?.isSome tokens

/-- The right side of a compound assignment; adding or subtracting one has a form of its own. -/
def compoundTokens (op : BinaryOp) (value : Node) (tokens : List String) : List String :=
  match op, isOne value with
  | .add, true => ["++"]
  | .sub, true => ["--"]
  | _, _ => [" ", op.token ++ "=", " "] ++ parens value.compound?.isSome tokens

/-- A qualifier in front of a name. -/
def qualifier : Option String → List String
  | some s => [s, "::"]
  | none => []

/-- Names separated by commas. -/
def names (ns : List String) : List String :=
  (ns.map fun n => [n]).intersperse [",", " "] |>.flatten

/-- The head of a function declaration. -/
def signature (s : Signature) : List String :=
  ["function", " "] ++ qualifier s.nameSpace ++ [s.name, "("] ++ names s.args ++ [")", "\n"]

end Source

namespace Node

open Source

/-- The node is a choice between statements. -/
def isIf : Node → Bool
  | ifElse .. => true
  | _ => false

mutual

/-- The tokens of a node in a position. -/
def tokens (pos : Position) : Node → Except Error (List String)
  | n@(ret none) => pos.only n (pure ["return", ";", "\n"])
  | n@(ret (some value)) => pos.only n do
    let v ← tokens .expression value
    pure ("return" :: " " :: v ++ [";", "\n"])
  | breakLoop => pos.only breakLoop (pure ["break", ";", "\n"])
  | continueLoop => pos.only continueLoop (pure ["continue", ";", "\n"])
  | n@(ifElse condition thenBody elseBody) => pos.only n do
    let c ← tokens .expression condition
    let t ← statementTokens thenBody
    let e ← elseTokens elseBody
    pure (["if", " ", "("] ++ c ++ [")", "\n"] ++ block t ++ e)
  | n@(loop .whileLoop _ condition _ body) => pos.only n do
    let c ← tokens .expression condition
    let b ← statementTokens body
    pure (["while", " ", "("] ++ c ++ [")", "\n"] ++ block b)
  | n@(loop .forLoop init condition step body) => pos.only n do
    let i ← optionTokens init
    let c ← tokens .expression condition
    let s ← optionTokens step
    let b ← statementTokens body
    pure (["for", " ", "("] ++ i ++ [";", " "] ++ c ++ [";", " "] ++ s ++ [")", "\n"] ++ block b)
  | n@(loop .doWhile _ condition _ body) => pos.only n do
    let b ← statementTokens body
    let c ← tokens .expression condition
    pure (["do", "\n"] ++ block b ++ ["while", " ", "("] ++ c ++ [")", ";", "\n"])
  | n@(function s body) => pos.only n do
    let b ← statementTokens body
    pure (signature s ++ block b)
  | n@(package name functions) => pos.only n do
    let fs ← packageTokens functions
    pure (["package", " ", name, "\n", openBrace, "\n"] ++ fs ++ [closeBrace, ";", "\n"])
  | constant c => do
    let text ← literal c
    pure (pos.value [text])
  | var name index => do
    let i ← indexTokens index
    pure (pos.value (name :: i))
  | field none name index => do
    let i ← indexTokens index
    pure (pos.value (name :: i))
  | n@(field (some owner) name index) => do
    let o ← tokens .expression owner
    let i ← indexTokens index
    pure (pos.value (parens (wrapsLeft n owner) o ++ "." :: name :: i))
  | unary op operand => do
    let x ← tokens .expression operand
    pure (pos.value (op.token :: parens (wrapsOperand op operand) x))
  | n@(binary op left right) => do
    let l ← tokens .expression left
    let r ← tokens .expression right
    pure (pos.value (infixTokens n left right op.token l r))
  | n@(compare op left right) => do
    let l ← tokens .expression left
    let r ← tokens .expression right
    pure (pos.value (infixTokens n left right op.token l r))
  | n@(concat join left right) => do
    let l ← tokens .expression left
    let r ← tokens .expression right
    pure (pos.value (infixTokens n left right join.token l r))
  | n@(comma left right) => do
    let l ← tokens .expression left
    let r ← tokens .expression right
    pure (pos.value (parens (wrapsLeft n left) l ++ [",", " "] ++ parens (wrapsRight n right) r))
  | conditional condition thenValue elseValue => do
    let c ← tokens .expression condition
    let t ← tokens .expression thenValue
    let e ← tokens .expression elseValue
    pure (pos.value
      (infixed (parens (Precedence.conditional ≤ condition.precedence) c) "?"
        (infixed (parens (Precedence.conditional < thenValue.precedence) t) ":"
          (parens (Precedence.conditional < elseValue.precedence) e))))
  | assign target (some op) value => do
    let t ← tokens .expression target
    let v ← tokens .expression value
    pure (pos.value (t ++ compoundTokens op value v))
  | assign target none (binary op left right) => do
    let t ← tokens .expression target
    let l ← tokens .expression left
    let r ← tokens .expression right
    let value := binary op left right
    pure (pos.value (t ++
      if op.isCompound && left == target then compoundTokens op right r
      else assignedTokens value (infixTokens value left right op.token l r)))
  | assign target none value => do
    let t ← tokens .expression target
    let v ← tokens .expression value
    pure (pos.value (t ++ assignedTokens value v))
  | n@(call name nameSpace callType args) => do
    let as ← callTokens n name nameSpace callType args
    pure (pos.value as)
  | object className name parent isDatablock args fields children _ => do
    let c ← tokens .expression className
    let c := match bareName? className with
      | some s => [s]
      | none => parens true c
    let n ← nameTokens name
    let n := match name with
      | none => if args.isEmpty then [] else ["\"\""]
      | some _ => n
    let p := match parent with
      | some s => [" ", ":", " ", s]
      | none => []
    let as ← restTokens args
    let fs ← statementTokens fields
    let cs ← statementTokens children
    let body :=
      if fields.isEmpty && children.isEmpty then []
      else ["\n", openBrace, "\n"] ++ fs ++ cs ++ [closeBrace]
    pure (pos.value
      ([if isDatablock then "datablock" else "new", " "] ++ c ++ ["("] ++ n ++ p ++ as ++ [")"] ++ body))

/-- An expression that may be missing. -/
def optionTokens : Option Node → Except Error (List String)
  | none => pure []
  | some n => tokens .expression n

/-- The name of an object, which may be a bare word. -/
def nameTokens : Option Node → Except Error (List String)
  | none => pure []
  | some n => do
    let ts ← tokens .expression n
    match bareName? n with
    | some s => pure [s]
    | none => pure ts

/-- An index in brackets, which may be missing. -/
def indexTokens : Option Node → Except Error (List String)
  | none => pure []
  | some n => do
    let i ← tokens .expression n
    pure ("[" :: i ++ ["]"])

/-- Statements one after the other. -/
def statementTokens : List Node → Except Error (List String)
  | [] => pure []
  | n :: ns => do
    let t ← tokens .statement n
    let ts ← statementTokens ns
    pure (t ++ ts)

/-- The alternative of a choice; a choice alone in it continues the chain. -/
def elseTokens : List Node → Except Error (List String)
  | [] => pure []
  | n :: ns => do
    let t ← tokens .statement n
    let ts ← statementTokens ns
    pure (if n.isIf && ns.isEmpty then "else" :: " " :: t else "else" :: "\n" :: block (t ++ ts))

/-- The functions of a package, with an empty line between them. -/
def packageTokens : List Node → Except Error (List String)
  | [] => pure []
  | n :: ns => do
    let t ← tokens .statement n
    let ts ← packageTokens ns
    pure (if ns.isEmpty then t else t ++ "\n" :: ts)

/-- Arguments after the first, each behind a comma. -/
def restTokens : List Node → Except Error (List String)
  | [] => pure []
  | n :: ns => do
    let t ← tokens .expression n
    let ts ← restTokens ns
    pure ("," :: " " :: t ++ ts)

/-- A call of the node `n`: a method call has its first argument in front. -/
def callTokens (n : Node) (name : String) (nameSpace : Option String) (callType : CallType) :
    List Node → Except Error (List String)
  | [] =>
    pure (match callType with
      | .function => qualifier nameSpace ++ [name, "(", ")"]
      | .method => [name, "(", ")"]
      | .parent => ["Parent", "::", name, "(", ")"])
  | a :: as => do
    let t ← tokens .expression a
    match callType with
    | .method => do
      let ts ← argumentTokens as
      pure (parens (wrapsLeft n a) t ++ [".", name, "("] ++ ts ++ [")"])
    | .function => do
      let ts ← restTokens as
      pure (qualifier nameSpace ++ [name, "("] ++ t ++ ts ++ [")"])
    | .parent => do
      let ts ← restTokens as
      pure (["Parent", "::", name, "("] ++ t ++ ts ++ [")"])

/-- Arguments separated by commas. -/
def argumentTokens : List Node → Except Error (List String)
  | [] => pure []
  | n :: ns => do
    let t ← tokens .expression n
    let ts ← restTokens ns
    pure (t ++ ts)

end

end Node

end TorqueScript
