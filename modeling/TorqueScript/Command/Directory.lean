import TorqueScript.Command.Search

/-!
# Directories

A directory as data: the files below it, each with the names that lead to it. A folder is there as far as
a file needs it. Reading and writing by the text of a path fail as a file system does, and say why.

A place may also lie outside: above the directory, with `..` for each level, or below the root of the file
system, with `/` as its first name. Nothing is known to lie there but the folders on the way up.

Main fact: putting bytes at a place changes that place only (`get?_put`).
-/

namespace TorqueScript

/-- Why a file cannot be read or written. -/
inductive Fault where
  | missing
  | notFolder
  | isFolder
  /-- A name or a path has more bytes than there may be. -/
  | tooLong
  /-- The bytes of a file are no text. -/
  | notText
  | other (text : String)
  deriving DecidableEq, Repr, Inhabited

/-- What is told about a fault. -/
def Fault.message : Fault → String
  | missing => "No such file or directory (os error 2)"
  | notFolder => "Not a directory (os error 20)"
  | isFolder => "Is a directory (os error 21)"
  | tooLong => "File name too long (os error 36)"
  | notText => "stream did not contain valid UTF-8"
  | other text => text

/-- The files below a directory, each with the names that lead to it and its bytes. -/
structure Directory where
  files : List (List String × List UInt8) := []
  deriving DecidableEq, Repr, Inhabited

namespace Directory

/-- The bytes of a file. -/
def get? (d : Directory) (place : List String) : Option (List UInt8) :=
  d.files.lookup place

/-- The name leads out of the directory. -/
def isOutward (name : String) : Bool :=
  name == ".." || name == "/"

/-- A file lies below the place, or the place is the directory itself or on the way up from it. -/
def isFolder (d : Directory) (place : List String) : Bool :=
  place.all isOutward || d.files.any fun (p, _) => place.isPrefixOf p && place != p

/-- Files with the bytes of one place replaced, or with a new one at the end. -/
def replace (place : List String) (bytes : List UInt8) :
    List (List String × List UInt8) → List (List String × List UInt8)
  | [] => [(place, bytes)]
  | (p, b) :: rest => if p = place then (p, bytes) :: rest else (p, b) :: replace place bytes rest

/-- The directory with other bytes at a place. -/
def put (d : Directory) (place : List String) (bytes : List UInt8) : Directory :=
  ⟨replace place bytes d.files⟩

theorem lookup_cons_ite (p q : List String) (b : List UInt8)
    (files : List (List String × List UInt8)) :
    ((q, b) :: files).lookup p = if p = q then some b else files.lookup p := by
  rw [List.lookup_cons]
  by_cases h : p = q
  · simp [h]
  · rw [beq_false_of_ne h, if_neg h]

theorem lookup_replace (place p : List String) (bytes : List UInt8)
    (files : List (List String × List UInt8)) :
    (replace place bytes files).lookup p = if p = place then some bytes else files.lookup p := by
  induction files with
  | nil => simp [replace, lookup_cons_ite]
  | cons f files ih =>
    obtain ⟨q, b⟩ := f
    rw [replace]
    split
    · rename_i hq
      subst hq
      rw [lookup_cons_ite, lookup_cons_ite]
      split <;> rfl
    · rename_i hq
      rw [lookup_cons_ite, lookup_cons_ite, ih]
      by_cases hp : p = place
      · rw [if_neg fun h => hq (h.symm.trans hp), if_pos hp, if_pos hp]
      · rw [if_neg hp, if_neg hp]

/-- Putting bytes at a place changes that place only. -/
theorem get?_put (d : Directory) (place p : List String) (bytes : List UInt8) :
    (d.put place bytes).get? p = if p = place then some bytes else d.get? p :=
  lookup_replace place p bytes d.files

/-- The directory that holds the given files. -/
def ofFiles (files : List (String × List UInt8)) : Directory :=
  files.foldl (fun d (path, bytes) => d.put (Path.steps path) bytes) {}

/-! ### Places -/

/-- A place from which names lead on is a folder. -/
def enter (d : Directory) (place : List String) : Except Fault Unit :=
  if d.isFolder place then pure ()
  else if (d.get? place).isSome then throw .notFolder
  else throw .missing

/-- The place above a place. Above the root is the root. -/
def up (place : List String) : List String :=
  match place.getLast? with
  | none | some ".." => place ++ [".."]
  | some "/" => place
  | some _ => place.dropLast

/-- The place one name leads to. -/
def step (place : List String) (name : String) : List String :=
  if Path.isStill name then place
  else if name = ".." then up place
  else place ++ [name]

/-- The place that names lead to. There need be nothing at it. -/
def follow (d : Directory) (place : List String) : List String → Except Fault (List String)
  | [] => pure place
  | name :: names => do
    d.enter place
    if Path.maxNameSize < name.utf8ByteSize then throw .tooLong
    d.follow (step place name) names

/-- The place where a path begins. An empty path leads nowhere. -/
def start (path : String) : Except Fault (List String) :=
  if path = "" then throw .missing
  else if Path.maxSize < path.utf8ByteSize then throw .tooLong
  else pure (if Path.isAbsolute path then ["/"] else [])

/-- The place a path leads to. -/
def locate (d : Directory) (path : String) : Except Fault (List String) := do
  d.follow (← start path) (Path.names path)

/-! ### Reading, writing, listing -/

/-- The bytes at a path. -/
def read (d : Directory) (path : String) : Except Fault (List UInt8) := do
  let place ← d.locate path
  match d.get? place with
  | some bytes => pure bytes
  | none => if d.isFolder place then throw .isFolder else throw .missing

/-- The place to write to. A path that ends in a separator names a folder. -/
def target (d : Directory) (path : String) : Except Fault (List String) := do
  let names := (Path.names path).reverse
  if names.head? = some "" then do
    let place ← d.follow (← start path) (names.dropWhile (· = "")).tail.reverse
    d.enter place
    throw .isFolder
  else do
    let place ← d.locate path
    if d.isFolder place then throw .isFolder else pure place

/-- The directory with a text at a path. -/
def write (d : Directory) (path text : String) : Except Fault Directory := do
  let place ← d.target path
  pure (d.put place text.toUTF8.toList)

/-- The names of the entries of a folder, in ascending order. -/
def entries (d : Directory) (folder : List String) : List String :=
  let names := d.files.filterMap fun (place, _) =>
    if folder.isPrefixOf place then (place.drop folder.length).head? else none
  names.eraseDups.mergeSort

/-- The directory as a search sees it. -/
def view (d : Directory) : View Id where
  isFolder path :=
    match d.locate path with
    | .ok place => d.isFolder place
    | .error _ => false
  isFile path := (d.read path).isOk
  entries path :=
    match d.locate path with
    | .ok place => d.entries place
    | .error _ => []

/-- The paths of the compiled files below a folder. -/
def scripts (d : Directory) (folder : String) : Except Pattern.Fault (List String) :=
  d.view.scripts folder

/-- The files that a later state of the directory has and this one has not, or with other bytes, in the
order of their paths. -/
def changes (d later : Directory) : List (String × List UInt8) :=
  let changed := later.files.filter fun (place, bytes) =>
    !place.head?.any isOutward && d.get? place ≠ some bytes
  (changed.map fun (place, bytes) => (Path.ofNames place, bytes)).mergeSort fun a b => a.1 ≤ b.1

end Directory

end TorqueScript
