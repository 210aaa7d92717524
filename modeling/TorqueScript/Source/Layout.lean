import TorqueScript.Source.Tokens

/-!
# Layout

`Layout.indented` puts indentation in front of the tokens of each line: one indent for every brace that
is open there, where a line that begins with a closing brace already counts it as closed. A line
without tokens stays empty. `program` writes a list of statements as a script, with an empty line around
every function and package.
-/

namespace TorqueScript

namespace Source

/-- One step of indentation. -/
def indent : String := "   "

/-- Where the next token goes. -/
structure Layout where
  /-- The number of open braces. -/
  depth : Nat := 0
  atLineStart : Bool := true
  deriving DecidableEq, Repr

namespace Layout

/-- The layout in front of which a token is placed: a closing brace closes first. -/
def before (layout : Layout) (token : String) : Layout :=
  if token = closeBrace then { layout with depth := layout.depth - 1 } else layout

@[simp] theorem before_atLineStart (layout : Layout) (token : String) :
    (layout.before token).atLineStart = layout.atLineStart := by
  rw [before]
  split <;> rfl

/-- The layout behind a token that has been placed. -/
def after (layout : Layout) (token : String) : Layout where
  depth := if token = openBrace then layout.depth + 1 else layout.depth
  atLineStart := token == "\n"

/-- The token with the indentation in front of it. -/
def place (layout : Layout) (token : String) : List String :=
  if layout.atLineStart && token != "\n" then List.replicate layout.depth indent ++ [token]
  else [token]

/-- Indents a list of tokens. -/
def indented (layout : Layout) : List String → List String
  | [] => []
  | token :: tokens =>
    let here := layout.before token
    here.place token ++ (here.after token).indented tokens

end Layout

/-- Functions and packages stand apart from their neighbours. -/
def standsApart : Node → Bool
  | .function .. | .package .. => true
  | _ => false

/-- The statements that follow `previous` in a script. -/
def followingTokens (previous : Node) : List Node → Except Error (List String)
  | [] => pure []
  | n :: ns => do
    let t ← n.tokens .statement
    let ts ← followingTokens n ns
    pure ((if standsApart n || standsApart previous then ["\n"] else []) ++ t ++ ts)

/-- The tokens of a script without indentation. -/
def programTokens : List Node → Except Error (List String)
  | [] => pure []
  | n :: ns => do
    let t ← n.tokens .statement
    let ts ← followingTokens n ns
    pure (t ++ ts)

/-- The tokens of a script. -/
def program (nodes : List Node) : Except Error (List String) := do
  let tokens ← programTokens nodes
  pure (({} : Layout).indented tokens)

/-- The text of a list of tokens. -/
def text (tokens : List String) : String :=
  String.join tokens

end Source

end TorqueScript
