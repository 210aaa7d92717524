import TorqueScript.Proofs.Straight
import TorqueScript.Proofs.Words
import TorqueScript.Source.Layout

/-!
# The grammar of scripts

A reader for the tokens of a script, white space left out.  It knows of an operator what its token is
and how tightly it binds, a lower number tighter, and nothing else about what was printed:

* operators between two operands group to the left, so what stands on their right binds tighter than
  they do;
* `c ? a : b` and assignments group to the right;
* an operator in front of its operand binds tighter than all operators between operands, and what
  follows a dot, an index and the arguments of a call bind tighter still.

`read limit` reads an operand and leaves it to `climb` to go on from there with operators that bind at
most as loosely as `limit`.  `climb floor limit left` has read `left`, which binds as loosely as
`floor`; an operator that binds tighter than that cannot take it as its operand.

What is read takes tokens away, so reading ends.  No function goes on with tokens before it has seen that
they are fewer than those it began with (`shorter?`).
-/

namespace TorqueScript

namespace Grammar

/-! ### Operators -/

/-- Operators between two operands. -/
inductive Between where
  | binary (op : BinaryOp)
  | compare (op : StringOp)
  | concat (join : Join)
  | comma
  deriving DecidableEq, Repr

namespace Between

/-- All operators between two operands. -/
def all : List Between :=
  BinaryOp.all.map binary ++ StringOp.all.map compare ++ Join.all.map concat ++ [comma]

theorem mem_all (d : Between) : d ∈ all := by
  cases d with
  | binary op => cases op <;> decide
  | compare op => cases op <;> decide
  | concat join => cases join <;> decide
  | comma => decide

def token : Between → String
  | binary op => op.token
  | compare op => op.token
  | concat join => join.token
  | comma => ","

/-- The node of the operator with its operands. -/
def node : Between → Node → Node → Node
  | binary op => .binary op
  | compare op => .compare op
  | concat join => .concat join
  | comma => .comma

def precedence : Between → Nat
  | binary op => op.precedence
  | compare _ | concat _ => Precedence.concat
  | comma => Precedence.comma

@[simp] theorem precedence_node (d : Between) (left right : Node) :
    (d.node left right).precedence = d.precedence := by
  cases d <;> rfl

end Between

/-- What can follow an operand. -/
inductive Operator where
  /-- A dot, for a field or a method. -/
  | member
  | between (op : Between)
  /-- The mark behind a condition. -/
  | choice
  | assign (op : Option BinaryOp)
  /-- Adding or subtracting one. -/
  | step (op : BinaryOp)
  deriving DecidableEq, Repr

namespace Operator

def precedence : Operator → Nat
  | member => Precedence.member
  | between op => op.precedence
  | choice => Precedence.conditional
  | assign _ | step _ => Precedence.assignment

/-- All operators with their tokens. -/
def table : List (String × Operator) :=
  [(".", member), ("?", choice), ("=", assign none), ("++", step .add), ("--", step .sub)] ++
    Between.all.map (fun d => (d.token, between d)) ++
    (BinaryOp.all.filter (·.isCompound)).map fun op => (op.token ++ "=", assign (some op))

def ofToken? (t : String) : Option Operator :=
  table.lookup t

end Operator

/-! ### Expressions -/

/-- The tokens behind the given one. -/
def expect (t : String) : List String → Option (List String)
  | [] => none
  | t' :: rest => if t' = t then some rest else none

/-- An identifier and the tokens behind it. -/
def word? : List String → Option (String × List String)
  | [] => none
  | t :: rest => if isIdentifier t then some (t, rest) else none

/-- An expression can begin here. -/
def begins (tokens : List String) : Bool :=
  tokens.head?.any fun t => (opener? t).isSome

/-- The tokens `rest`, which must be fewer than `tokens`. -/
def shorter? (tokens rest : List String) : Option { rest : List String // rest.length < tokens.length } :=
  if h : rest.length < tokens.length then some ⟨rest, h⟩ else none

mutual

/-- Reads an expression that binds at most as loosely as `limit`. -/
def read (limit : Nat) (tokens : List String) : Option (Node × List String) :=
  match tokens with
  | [] => none
  | t :: tail =>
    match opener? t with
    | none => none
    | some .group => do
      let (n, rest) ← read Precedence.comma tail
      let rest ← expect ")" rest
      let ⟨rest, _⟩ ← shorter? (t :: tail) rest
      climb Precedence.primary limit n rest
    | some (.unary op) => do
      let (operand, rest) ← read Precedence.unary tail
      let ⟨rest, _⟩ ← shorter? (t :: tail) rest
      climb Precedence.unary limit (.unary op operand) rest
    | some (.constant c) => climb Precedence.primary limit (.constant c) tail
    | some .var => do
      let (index, rest) ← readIndex tail
      let ⟨rest, _⟩ ← shorter? (t :: tail) rest
      climb Precedence.primary limit (.var t index) rest
    | some .name =>
      match expect "::" tail with
      | some rest => do
        let (name, rest) ← word? rest
        let ⟨rest, _⟩ ← shorter? (t :: tail) rest
        let (args, rest) ← readArguments rest
        let ⟨rest, _⟩ ← shorter? (t :: tail) rest
        climb Precedence.primary limit (.call name (some t) .function args) rest
      | none => do
        let (args, rest) ← readArguments tail
        let ⟨rest, _⟩ ← shorter? (t :: tail) rest
        climb Precedence.primary limit (.call t none .function args) rest
    | some .parent => do
      let rest ← expect "::" tail
      let (name, rest) ← word? rest
      let ⟨rest, _⟩ ← shorter? (t :: tail) rest
      let (args, rest) ← readArguments rest
      let ⟨rest, _⟩ ← shorter? (t :: tail) rest
      climb Precedence.primary limit (.call name none .parent args) rest
  termination_by tokens.length
  decreasing_by all_goals first | assumption | exact Nat.lt_succ_self _

/-- Goes on behind the operand `left`. -/
def climb (floor limit : Nat) (left : Node) (tokens : List String) : Option (Node × List String) :=
  match tokens with
  | [] => some (left, [])
  | t :: tail =>
    match (Operator.ofToken? t).filter fun o => floor ≤ o.precedence && o.precedence ≤ limit with
    | none => some (left, t :: tail)
    | some .member => do
      let (name, rest) ← word? tail
      let ⟨rest, _⟩ ← shorter? (t :: tail) rest
      if rest.head? = some "(" then
        let (args, rest) ← readArguments rest
        let ⟨rest, _⟩ ← shorter? (t :: tail) rest
        climb Precedence.member limit (.call name none .method (left :: args)) rest
      else
        let (index, rest) ← readIndex rest
        let ⟨rest, _⟩ ← shorter? (t :: tail) rest
        climb Precedence.member limit (.field (some left) name index) rest
    | some (.between op) => do
      let (right, rest) ← read (op.precedence - 1) tail
      let ⟨rest, _⟩ ← shorter? (t :: tail) rest
      climb op.precedence limit (op.node left right) rest
    | some .choice => do
      let (thenValue, rest) ← read Precedence.conditional tail
      let rest ← expect ":" rest
      let ⟨rest, _⟩ ← shorter? (t :: tail) rest
      let (elseValue, rest) ← read Precedence.conditional rest
      let ⟨rest, _⟩ ← shorter? (t :: tail) rest
      climb Precedence.conditional limit (.conditional left thenValue elseValue) rest
    | some (.assign op) =>
      if left.isPlace then do
        let (value, rest) ← read Precedence.assignment tail
        let ⟨rest, _⟩ ← shorter? (t :: tail) rest
        climb Precedence.assignment limit (.assign left op value) rest
      else none
    | some (.step op) =>
      if left.isPlace then
        climb Precedence.assignment limit (.assign left (some op) (.constant (.uint 1))) tail
      else none
  termination_by tokens.length
  decreasing_by all_goals first | assumption | exact Nat.lt_succ_self _

/-- An index in brackets, if there is one. -/
def readIndex (tokens : List String) : Option (Option Node × List String) :=
  match expect "[" tokens with
  | some rest => do
    let ⟨rest, _⟩ ← shorter? tokens rest
    let (index, rest) ← read Precedence.comma rest
    let rest ← expect "]" rest
    some (some index, rest)
  | none => some (none, tokens)
  termination_by tokens.length
  decreasing_by assumption

/-- Arguments in parentheses. -/
def readArguments (tokens : List String) : Option (List Node × List String) := do
  let rest ← expect "(" tokens
  if begins rest then
    let ⟨rest, _⟩ ← shorter? tokens rest
    let (arg, rest) ← read Precedence.assignment rest
    let ⟨rest, _⟩ ← shorter? tokens rest
    let (args, rest) ← readRest rest
    some (arg :: args, rest)
  else
    let rest ← expect ")" rest
    some ([], rest)
  termination_by tokens.length
  decreasing_by all_goals assumption

/-- The arguments behind the first, each behind a comma. -/
def readRest (tokens : List String) : Option (List Node × List String) :=
  match expect "," tokens with
  | some rest => do
    let ⟨rest, _⟩ ← shorter? tokens rest
    let (arg, rest) ← read Precedence.assignment rest
    let ⟨rest, _⟩ ← shorter? tokens rest
    let (args, rest) ← readRest rest
    some (arg :: args, rest)
  | none => do
    let rest ← expect ")" tokens
    some ([], rest)
  termination_by tokens.length
  decreasing_by all_goals assumption

end

/-! ### Statements -/

/-- The words that statements begin with. -/
inductive Keyword where
  | ret
  | breakLoop
  | continueLoop
  | ifElse
  | whileLoop
  | forLoop
  | doWhile
  | function
  deriving DecidableEq, Repr

namespace Keyword

def table : List (String × Keyword) :=
  [("return", ret), ("break", breakLoop), ("continue", continueLoop), ("if", ifElse),
    ("while", whileLoop), ("for", forLoop), ("do", doWhile), ("function", function)]

def ofToken? (t : String) : Option Keyword :=
  table.lookup t

end Keyword

/-- An expression that may be missing. -/
def readOptional (tokens : List String) : Option (Option Node × List String) :=
  if begins tokens then do
    let (n, rest) ← read Precedence.assignment tokens
    some (some n, rest)
  else some (none, tokens)

/-- A condition in parentheses. -/
def readCondition (tokens : List String) : Option (Node × List String) := do
  let rest ← expect "(" tokens
  let (n, rest) ← read Precedence.assignment rest
  let rest ← expect ")" rest
  some (n, rest)

/-- A name, which may have a name space in front. -/
def readName (tokens : List String) : Option (Option String × String × List String) := do
  let (first, rest) ← word? tokens
  match expect "::" rest with
  | some rest => do
    let (name, rest) ← word? rest
    some (some first, name, rest)
  | none => some (none, first, rest)

/-- The parameters of a function behind the first, each behind a comma. -/
def readParameters : List String → Option (List String × List String)
  | [] => none
  | t :: rest =>
    if t = ")" then some ([], rest)
    else
      match rest with
      | [] => none
      | name :: rest =>
        if t = "," ∧ isVariable name then do
          let (names, rest) ← readParameters rest
          some (name :: names, rest)
        else none

/-- The head of a function. -/
def readSignature (tokens : List String) : Option (Signature × List String) := do
  let (nameSpace, name, rest) ← readName tokens
  let rest ← expect "(" rest
  match rest with
  | [] => none
  | t :: rest =>
    if isVariable t then do
      let (names, rest) ← readParameters rest
      some (⟨name, nameSpace, none, t :: names⟩, rest)
    else do
      let rest ← expect ")" (t :: rest)
      some (⟨name, nameSpace, none, []⟩, rest)

mutual

/-- Reads a statement. -/
def readStatement (tokens : List String) : Option (Node × List String) :=
  match tokens with
  | [] => none
  | t :: tail =>
    if begins (t :: tail) then do
      let (n, rest) ← read Precedence.assignment (t :: tail)
      let rest ← expect ";" rest
      some (n, rest)
    else
      match Keyword.ofToken? t with
      | none => none
      | some .ret => do
        let (value, rest) ← readOptional tail
        let rest ← expect ";" rest
        some (.ret value, rest)
      | some .breakLoop => do
        let rest ← expect ";" tail
        some (.breakLoop, rest)
      | some .continueLoop => do
        let rest ← expect ";" tail
        some (.continueLoop, rest)
      | some .ifElse => do
        let (condition, rest) ← readCondition tail
        let ⟨rest, _⟩ ← shorter? (t :: tail) rest
        let (thenBody, rest) ← readBlock rest
        let ⟨rest, _⟩ ← shorter? (t :: tail) rest
        let (elseBody, rest) ← readElse rest
        some (.ifElse condition thenBody elseBody, rest)
      | some .whileLoop => do
        let (condition, rest) ← readCondition tail
        let ⟨rest, _⟩ ← shorter? (t :: tail) rest
        let (body, rest) ← readBlock rest
        some (.loop .whileLoop none condition none body, rest)
      | some .forLoop => do
        let rest ← expect "(" tail
        let (init, rest) ← readOptional rest
        let rest ← expect ";" rest
        let (condition, rest) ← read Precedence.assignment rest
        let rest ← expect ";" rest
        let (step, rest) ← readOptional rest
        let rest ← expect ")" rest
        let ⟨rest, _⟩ ← shorter? (t :: tail) rest
        let (body, rest) ← readBlock rest
        some (.loop .forLoop init condition step body, rest)
      | some .doWhile => do
        let (body, rest) ← readBlock tail
        let rest ← expect "while" rest
        let (condition, rest) ← readCondition rest
        let rest ← expect ";" rest
        some (.loop .doWhile none condition none body, rest)
      | some .function => do
        let (signature, rest) ← readSignature tail
        let ⟨rest, _⟩ ← shorter? (t :: tail) rest
        let (body, rest) ← readBlock rest
        some (.function signature body, rest)
  termination_by (tokens.length, 0)
  decreasing_by all_goals first | exact .left _ _ ‹_› | exact .left _ _ (Nat.lt_succ_self _)

/-- Reads the alternative of a choice, if there is one. -/
def readElse (tokens : List String) : Option (List Node × List String) :=
  match expect "else" tokens with
  | some rest => do
    let ⟨rest, _⟩ ← shorter? tokens rest
    if rest.head? = some "if" then
      let (n, rest) ← readStatement rest
      some ([n], rest)
    else readBlock rest
  | none => some ([], tokens)
  termination_by (tokens.length, 0)
  decreasing_by all_goals exact .left _ _ ‹_›

/-- Reads statements between braces. -/
def readBlock (tokens : List String) : Option (List Node × List String) := do
  let rest ← expect Source.openBrace tokens
  let ⟨rest, _⟩ ← shorter? tokens rest
  let (body, rest) ← readStatements rest
  let rest ← expect Source.closeBrace rest
  some (body, rest)
  termination_by (tokens.length, 0)
  decreasing_by exact .left _ _ ‹_›

/-- Reads statements up to a closing brace or the end. -/
def readStatements (tokens : List String) : Option (List Node × List String) :=
  match tokens with
  | [] => some ([], [])
  | t :: tail =>
    if t = Source.closeBrace then some ([], t :: tail)
    else do
      let (n, rest) ← readStatement (t :: tail)
      let ⟨rest, _⟩ ← shorter? (t :: tail) rest
      let (ns, rest) ← readStatements rest
      some (n :: ns, rest)
  termination_by (tokens.length, 1)
  decreasing_by
    · exact .right _ Nat.zero_lt_one
    · exact .left _ _ ‹_›

end

/-- **Reads a script** from its tokens, none of which may be left. -/
def readScript (tokens : List String) : Option (List Node) := do
  let (nodes, rest) ← readStatements tokens
  if rest.isEmpty then some nodes else none

end Grammar

end TorqueScript
