/-!
# Function signatures

What a function declaration says before its body, shared by the instruction set and the syntax tree.
-/

namespace TorqueScript

/-- The head of a function declaration. -/
structure Signature where
  name : String
  nameSpace : Option String
  package : Option String
  args : List String
  deriving DecidableEq, Repr, Inhabited

end TorqueScript
