import TorqueScript.Decompile

/-!
# Paths

The text of a path: names divided by `/`. A path that ends in a name has an extension to be replaced,
which gives the place of an output beside its input.
-/

namespace TorqueScript.Path

/-- The separators and the `/.` at the end of a path are no part of its name. The text is reversed. -/
def trimReversed : List Char → List Char
  | '/' :: cs => trimReversed cs
  | '.' :: '/' :: cs => trimReversed cs
  | cs => cs

/-- The name that a path ends in, after the text in front of it. A path that ends in a folder that is
not named (`.`, `..`, or nothing) has none. -/
def splitName (path : List Char) : Option (List Char × List Char) :=
  let reversed := trimReversed path.reverse
  let name := (reversed.takeWhile (· != '/')).reverse
  if name = [] ∨ name = ['.'] ∨ name = ['.', '.'] then none
  else some ((reversed.dropWhile (· != '/')).reverse, name)

/-- A name as its stem and its extension, which follows the last dot. A dot in front of the whole name
starts no extension. -/
def splitExtension (name : List Char) : List Char × Option (List Char) :=
  match name.reverse.dropWhile (· != '.') with
  | [] | ['.'] => (name, none)
  | _ :: stem => (stem.reverse, some (name.reverse.takeWhile (· != '.')).reverse)

/-- The path up to the extension of its name: as many characters are cut off its end as the extension
has. -/
def cutExtension (path : List Char) : List Char :=
  match splitName path with
  | none => path
  | some (_, name) =>
    match splitExtension name with
    | (_, none) => path
    | (_, some extension) => path.take (path.length - extension.length)

/-- The path up to the stem of its name, followed by an extension unless that is empty. -/
def putExtension (extension path : List Char) : List Char :=
  match splitName path with
  | none => path
  | some (folder, name) =>
    folder ++ (splitExtension name).1 ++ if extension = [] then [] else '.' :: extension

/-- The path with another extension. -/
def withExtension (extension path : List Char) : List Char :=
  putExtension extension (cutExtension path)

/-- The texts between the separators of a path, empty ones included. -/
def split : List Char → List (List Char)
  | [] => [[]]
  | c :: cs =>
    if c = '/' then [] :: split cs
    else
      match split cs with
      | [] => [[c]]
      | name :: names => (c :: name) :: names

/-- The names of a path, from the first folder on. -/
def names (path : String) : List String :=
  (split path.toList).map String.ofList

/-- An empty name and `.` lead nowhere else. -/
def isStill (name : String) : Bool :=
  name == "" || name == "."

/-- The names that are left when those that lead nowhere else are dropped. -/
def steps (path : String) : List String :=
  (names path).filter (!isStill ·)

/-- Paths are in the order of their names, where `..` comes before every other name. -/
def sortKey (path : String) : List String :=
  (steps path).map fun name => if name = ".." then "" else name

/-- The first name is before the second, character by character. -/
def isNameBefore (name other : String) : Bool :=
  name.toList.lex other.toList fun c d => c.toNat < d.toNat

/-- The first path is before the second, name by name. -/
def isBefore (path other : String) : Bool :=
  (sortKey path).lex (sortKey other) isNameBefore

/-- The path starts at the root of the file system. -/
def isAbsolute (path : String) : Bool :=
  path.toList.head? = some '/'

/-- The path of a name within a folder. -/
def child (folder name : String) : String :=
  if folder.toList.getLast? = some '/' then folder ++ name else folder ++ "/" ++ name

/-- The path says no more than `.` does. -/
def isHere (path : String) : Bool :=
  (names path).head? = some "." && (names path).all isStill

/-- The path of a name within a folder, where the folder `.` need not be named. -/
def within (folder name : String) : String :=
  if isHere folder then name else child folder name

/-- No path has more bytes. -/
def maxSize : Nat := 4095

/-- No name has more bytes. -/
def maxNameSize : Nat := 255

/-- Names with a separator between each two of them. -/
def join : List (List Char) → List Char
  | [] => []
  | [name] => name
  | name :: names => name ++ '/' :: join names

/-- The path with given names. -/
def ofNames (names : List String) : String :=
  String.ofList (join (names.map String.toList))

/-! ### Splitting undoes joining -/

theorem split_ne_nil (cs : List Char) : split cs ≠ [] := by
  cases cs with
  | nil => simp [split]
  | cons c cs =>
    rw [split]
    split
    · simp
    · split <;> simp

theorem split_name_append {name : List Char} (h : '/' ∉ name) (cs : List Char) :
    split (name ++ '/' :: cs) = name :: split cs := by
  induction name with
  | nil => simp [split]
  | cons c name ih =>
    simp only [List.mem_cons, not_or] at h
    simp [split, ih h.2, Ne.symm h.1]

theorem split_name {name : List Char} (h : '/' ∉ name) : split name = [name] := by
  induction name with
  | nil => rfl
  | cons c name ih =>
    simp only [List.mem_cons, not_or] at h
    simp [split, ih h.2, Ne.symm h.1]

/-- The names of a joined path are the names it was joined from. -/
theorem split_join {names : List (List Char)} (hne : names ≠ [])
    (h : ∀ name ∈ names, '/' ∉ name) : split (join names) = names := by
  induction names with
  | nil => exact absurd rfl hne
  | cons name names ih =>
    cases names with
    | nil => exact split_name (h name (by simp))
    | cons next names =>
      rw [join, split_name_append (h name (by simp)), ih (by simp) fun n hn => h n (by simp [hn])]
      simp

end TorqueScript.Path

namespace TorqueScript

/-- The extension of the file that an output is written to. -/
def Mode.extension : Mode → String
  | .source => ""
  | .listing => "dso.txt"
  | .tree => "dso.json"

/-- The place of an output beside its input: the source of `a.cs.dso` is `a.cs`. -/
def Path.output (mode : Mode) (path : String) : String :=
  String.ofList (withExtension mode.extension.toList path.toList)

end TorqueScript
