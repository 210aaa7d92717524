import TorqueScript.Command.Pattern

/-!
# Searching a folder

Which files the pattern of a path stands for. What a search asks about the file system is a `View`, so the
same search runs on a real one and on a directory that is data.

A part that is just a name is followed without looking around. Any other part is asked of the entries of a
folder, in the order of their names; `**` is asked of what lies below them too. Different ways through the
pattern may lead to the same file, and then it is found once for each.

Each entry makes its path longer, and paths are bounded, so a search ends after `Path.maxSize` folders at
the latest.
-/

namespace TorqueScript

/-- What a search asks about a file system. -/
structure View (m : Type → Type) where
  isFolder : String → m Bool
  isFile : String → m Bool
  /-- The names of the entries of a folder, in ascending order. -/
  entries : String → m (List String)

namespace View

variable {m : Type → Type} [Monad m] (view : View m)

open Pattern (Part)

/-- The path itself, if it is that of a file. -/
def fileAt (path : String) : m (List String) := do
  if ← view.isFile path then pure [path] else pure []

/-- The parts behind the first, where several `**` in a row count as one. -/
def behind : List Part → List Part
  | .folders :: .folders :: parts => behind (.folders :: parts)
  | _ :: parts => parts
  | [] => []

/-- The parts that lie ahead of the entries below an entry: the same `**` again. -/
def below : List Part → List Part
  | .folders :: parts => .folders :: behind (.folders :: parts)
  | _ => []

/-- The part that an entry itself has to meet, and those behind it. -/
def own : List Part → List Part
  | .folders :: parts => behind (.folders :: parts)
  | parts => parts

/-- The files at and below `path` that the parts stand for, found within `fuel` folders. -/
def find (fuel : Nat) (parts : List Part) (path : String) : m (List String) :=
  match parts with
  | [] => pure []
  | .name text :: rest => do
    let next := Path.within path (String.ofList text)
    if ← view.isFolder next then find fuel rest next else pure []
  | part :: rest =>
    match fuel with
    | 0 => pure []
    | fuel + 1 => do
      if ← view.isFolder path then
        let dots := [".", ".."].filter fun dot => part.beginsWithDot && part.accepts dot.toList
        let around ← dots.reverse.mapM fun dot => find fuel rest (Path.child path dot)
        let inside ← (← view.entries path).mapM fun name => do
          let entry := Path.within path name
          let deeper ← find fuel (below (part :: rest)) entry
          match own (part :: rest) with
          | [] => pure deeper
          | part :: rest => do
            if part.accepts name.toList then
              let here ← if rest.isEmpty then view.fileAt entry else find fuel rest entry
              pure (here ++ deeper)
            else pure deeper
        pure (around.flatten ++ inside.flatten)
      else pure []
  termination_by (fuel, parts.length)

/-- Where the search for a path begins. -/
def origin (path : String) : String :=
  if Path.isAbsolute path then "/" else "."

/-- The compiled files below a folder, whose path may be a pattern. -/
def scripts (folder : String) : m (Except Pattern.Fault (List String)) :=
  match Pattern.scriptsBelow folder with
  | .error fault => pure (.error fault)
  | .ok parts => .ok <$> view.find Path.maxSize parts (origin folder)

end View

end TorqueScript
