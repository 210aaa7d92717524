import TorqueScript.Command.Path

/-!
# Patterns

The folder of a run may be written as a pattern. In a name, `?` stands for any character, `*` for any
text, and `[…]` for one character of a set, or with `!` in front for one outside it; `**` as a whole name
stands for any number of folders. Nothing escapes these signs but a set that holds one.

A pattern is read twice: as a whole, where a set may reach over a separator, and then name by name. What
is wrong with it is told with a position, counted in characters from the start of the text being read.

Main fact: a pattern without signs accepts its own text and no other (`accepts_map_char`).
-/

namespace TorqueScript

namespace Pattern

/-- The characters from `first` to `last`. -/
structure Range where
  first : Char
  last : Char
  deriving DecidableEq, Repr

/-- The character lies in the range. -/
def Range.contains (r : Range) (c : Char) : Bool :=
  r.first ≤ c && c ≤ r.last

/-- A piece of a pattern. -/
inductive Token where
  | char (c : Char)
  | anyChar
  | anyText
  | anyFolders
  | oneOf (set : List Range)
  | noneOf (set : List Range)
  deriving DecidableEq, Repr

/-- What is wrong with a pattern, and where. -/
inductive Fault where
  /-- More than two stars in a row. -/
  | tooManyStars (position : Nat)
  /-- Two stars that are not a whole name. -/
  | starsInName (position : Nat)
  /-- A set without an end. -/
  | openSet (position : Nat)
  deriving DecidableEq, Repr

namespace Fault

/-- The position of a fault. -/
def position : Fault → Nat
  | tooManyStars p | starsInName p | openSet p => p

/-- The kind of a fault in words. -/
def reason : Fault → String
  | tooManyStars _ => "wildcards are either regular `*` or recursive `**`"
  | starsInName _ => "recursive wildcards must form a single path component"
  | openSet _ => "invalid range pattern"

/-- What is told about a fault. -/
def message (f : Fault) : String :=
  s!"Pattern syntax error near position {f.position}: {f.reason}"

end Fault

/-! ### Reading -/

/-- The ranges of a set. A dash between two characters makes them a range. -/
def ranges : List Char → List Range
  | a :: '-' :: b :: cs => ⟨a, b⟩ :: ranges cs
  | a :: cs => ⟨a, a⟩ :: ranges cs
  | [] => []

/-- The set with the given characters, or all others. -/
def set (negated : Bool) (content : List Char) : Token :=
  if negated then .noneOf (ranges content) else .oneOf (ranges content)

/-- A name begins behind the character in front, or behind none. -/
def beginsName (previous : Option Char) : Bool :=
  previous.all (· == '/')

mutual

/-- The tokens of a text that begins at `position`, behind the character `previous`. -/
def tokens (position : Nat) (previous : Option Char) : List Char → Except Fault (List Token)
  | [] => .ok []
  | '?' :: cs => (.anyChar :: ·) <$> tokens (position + 1) (some '?') cs
  | '*' :: '*' :: '*' :: _ => .error (.tooManyStars (position + 2))
  | '*' :: '*' :: '/' :: cs =>
    if beginsName previous then (.anyFolders :: ·) <$> tokens (position + 3) (some '/') cs
    else .error (.starsInName (position - 1))
  | ['*', '*'] =>
    if beginsName previous then .ok [.anyFolders] else .error (.starsInName (position - 1))
  | '*' :: '*' :: _ =>
    .error (.starsInName (if beginsName previous then position + 2 else position - 1))
  | '*' :: cs => (.anyText :: ·) <$> tokens (position + 1) (some '*') cs
  | '[' :: '!' :: c :: cs => setTokens position true [c] (position + 3) cs
  | '[' :: c :: cs => setTokens position false [c] (position + 2) cs
  | ['['] => .error (.openSet position)
  | c :: cs => (.char c :: ·) <$> tokens (position + 1) (some c) cs

/-- The rest of a set that began at `start`, with the characters read so far in reverse, and the tokens
behind it. A set has at least one character, so a closing bracket in first place belongs to it. -/
def setTokens (start : Nat) (negated : Bool) (content : List Char) (position : Nat) :
    List Char → Except Fault (List Token)
  | [] => .error (.openSet start)
  | ']' :: cs => (set negated content.reverse :: ·) <$> tokens (position + 1) (some ']') cs
  | c :: cs => setTokens start negated (c :: content) (position + 1) cs

end

/-! ### Matching -/

/-- A text and all that is left of it when characters are dropped from its front. -/
def suffixes : List Char → List (List Char)
  | [] => [[]]
  | c :: cs => (c :: cs) :: suffixes cs

/-- The tokens stand for the text. -/
def accepts : List Token → List Char → Bool
  | [], cs => cs.isEmpty
  | .anyText :: ts, cs | .anyFolders :: ts, cs => (suffixes cs).any (accepts ts)
  | .char c :: ts, d :: cs => c == d && accepts ts cs
  | .anyChar :: ts, _ :: cs => accepts ts cs
  | .oneOf set :: ts, c :: cs => set.any (·.contains c) && accepts ts cs
  | .noneOf set :: ts, c :: cs => !set.any (·.contains c) && accepts ts cs
  | _ :: _, [] => false

/-- A pattern without signs accepts its own text and no other. -/
theorem accepts_map_char (cs ds : List Char) : accepts (cs.map .char) ds = true ↔ cs = ds := by
  induction cs generalizing ds with
  | nil => cases ds <;> simp [accepts]
  | cons c cs ih => cases ds <;> simp [accepts, ih]

/-! ### Patterns of paths -/

/-- What a pattern asks of one name on a path. -/
inductive Part where
  /-- Just this name. -/
  | name (text : List Char)
  /-- A name that the tokens stand for. -/
  | any (tokens : List Token)
  /-- Any number of folders. -/
  | folders
  deriving DecidableEq, Repr

namespace Part

/-- The text of tokens without signs. -/
def text? : List Token → Option (List Char)
  | [] => some []
  | .char c :: ts => (c :: ·) <$> text? ts
  | _ => none

/-- What the tokens of a name ask for. -/
def ofTokens (ts : List Token) : Part :=
  if ts = [.anyFolders] then .folders
  else
    match text? ts with
    | some text => .name text
    | none => .any ts

/-- A single name meets the part. -/
def accepts (part : Part) (name : List Char) : Bool :=
  match part with
  | .name text => text == name
  | .any ts => Pattern.accepts ts name
  | .folders => false

/-- The part asks for a name that begins with a dot. Only then it is also asked of `.` and `..`. -/
def beginsWithDot : Part → Bool
  | .any (.char '.' :: _) => true
  | _ => false

end Part

/-- The parts of the pattern of a path. -/
def parts (path : List Char) : Except Fault (List Part) := do
  let _ ← tokens 0 none path
  let inner := if path.head? = some '/' then path.tail else path
  (Path.split inner).mapM fun name => Part.ofTokens <$> tokens 0 none name

/-- The pattern of the compiled files below a folder. -/
def scriptsBelow (folder : String) : Except Fault (List Part) :=
  parts (Path.child (Path.child folder "**") "*.dso").toList

end Pattern

end TorqueScript
