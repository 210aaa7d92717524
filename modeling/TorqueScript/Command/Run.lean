import TorqueScript.Command.Arguments
import TorqueScript.Command.Directory

/-!
# Running a command

A command reads and writes files and prints. What it needs of its surroundings is a `Host`, so the same
command runs on a real file system and on a directory that is data (`Session`).

A run over a folder takes its files in the order of their names and goes on after a failure. It reads each
file when its turn comes, and tells at the end how many files it decompiled and how many failed.
-/

namespace TorqueScript

/-- What a run needs of its surroundings. -/
structure Host (m : Type → Type) where
  read : String → m (Except Fault (List UInt8))
  write : (path text : String) → m (Except Fault Unit)
  /-- The paths of the compiled files below a folder, whose path may be a pattern. -/
  scripts : String → m (Except Pattern.Fault (List String))
  /-- Prints a part of the result. -/
  print : String → m Unit
  /-- Prints a line about the run. -/
  tell : String → m Unit

/-- Why a command fails. -/
inductive Failure where
  | unreadable (path : String) (fault : Fault)
  | unwritable (path : String) (fault : Fault)
  | script (error : Error)
  | pattern (fault : Pattern.Fault)
  /-- A failure that belongs to an input. -/
  | within (path : String) (failure : Failure)
  deriving DecidableEq, Repr

/-- What is told about a failure. -/
def Failure.message : Failure → String
  | unreadable path fault => s!"failed to read {path}: {fault.message}"
  | unwritable path fault => s!"failed to write {path}: {fault.message}"
  | script error => error.message
  | pattern fault => fault.message
  | within path failure => s!"{path}: {failure.message}"

/-- The text of bytes in UTF-8. -/
def textOfBytes? (bytes : List UInt8) : Option String :=
  String.fromUTF8? ⟨bytes.toArray⟩

/-- How many files of a folder were decompiled and how many were not. -/
structure Summary where
  succeeded : Nat := 0
  failed : Nat := 0
  deriving DecidableEq, Repr

namespace Summary

/-- One more file, with what became of it. -/
def add {ε α : Type} (s : Summary) : Except ε α → Summary
  | .ok _ => { s with succeeded := s.succeeded + 1 }
  | .error _ => { s with failed := s.failed + 1 }

/-- The last line of a run over a folder. -/
def text (s : Summary) : String :=
  s!"{s.succeeded} decompiled, {s.failed} failed"

end Summary

/-- The exit status of a run that succeeds or fails. -/
def exitStatus (success : Bool) : Nat :=
  if success then 0 else 1

/-- The exit status for arguments that cannot be read. -/
def usageStatus : Nat := 2

namespace Host

variable {m : Type → Type} [Monad m] (host : Host m)

/-- Tells a message if it is to be shown. -/
def log (level : Level) (message : Message) : m Unit :=
  if message.shownAt level then host.tell s!"{message.level.name}: {message.text}" else pure ()

/-- Reads a file. -/
def load (path : String) : ExceptT Failure m (List UInt8) := do
  match ← host.read path with
  | .ok bytes => pure bytes
  | .error fault => throw (.unreadable path fault)

/-- Writes a file. -/
def store (path text : String) : ExceptT Failure m Unit := do
  match ← host.write path text with
  | .ok () => pure ()
  | .error fault => throw (.unwritable path fault)

/-- The compiled files below a folder. -/
def search (folder : String) : ExceptT Failure m (List String) := do
  match ← host.scripts folder with
  | .ok paths => pure paths
  | .error fault => throw (.pattern fault)

/-- The numbering table that a request names. -/
def table : Option String → ExceptT Failure m Opcode.Table
  | none => pure .standard
  | some path => do
    let bytes ← host.load path
    match textOfBytes? bytes with
    | none => throw (.unreadable path .notText)
    | some text =>
      match Opcode.Table.ofText text with
      | .ok table => pure table
      | .error error => throw (.script error)

/-- The options that a request asks for. -/
def options (request : Request) : ExceptT Failure m Options := do
  let table ← host.table request.opcodes
  pure { mode := request.mode, allowVersionMismatch := request.allowVersionMismatch, table }

/-- Decompiles a file and shows its log. -/
def decompileFile (level : Level) (options : Options) (path : String) : ExceptT Failure m String := do
  let bytes ← host.load path
  let (result, messages) := (decompile options bytes).outcome
  messages.forM fun message => ExceptT.lift (host.log level message)
  match result with
  | .ok text => pure text
  | .error error => throw (.script error)

/-- Decompiles a file and prints the text, or writes it to a path. -/
def runFile (level : Level) (request : Request) (path : String) (output : Option String) :
    ExceptT Failure m Unit := do
  let options ← host.options request
  let text ← ExceptT.adapt (.within path) (host.decompileFile level options path)
  match output with
  | none => ExceptT.lift (host.print text)
  | some target => host.store target text

/-- Decompiles a file of a folder and writes the text beside it. -/
def convert (level : Level) (options : Options) (path : String) : ExceptT Failure m String := do
  let text ← host.decompileFile level options path
  let target := Path.output options.mode path
  host.store target text
  pure target

/-- Decompiles a file of a folder and tells what became of it. -/
def convertAndTell (level : Level) (options : Options) (summary : Summary) (path : String) :
    m Summary := do
  let result ← (host.convert level options path).run
  match result with
  | .ok target => host.log level (.written path target)
  | .error failure => host.tell s!"failed {(Failure.within path failure).message}"
  pure (summary.add result)

/-- Paths in the order of their names. -/
def inOrder (paths : List String) : List String :=
  paths.mergeSort fun a b => !Path.isBefore b a

/-- Decompiles every compiled file below a folder. -/
def runFolder (level : Level) (request : Request) (folder : String) : ExceptT Failure m Summary := do
  let options ← host.options request
  let paths := inOrder (← host.search folder)
  ExceptT.lift (host.log level (.found paths.length folder))
  ExceptT.lift (paths.foldlM (host.convertAndTell level options) {})

/-- Runs a task; the result says whether all went well. -/
def runTask (invocation : Invocation) : ExceptT Failure m Bool := do
  match invocation.task with
  | .file path output => do
    host.runFile invocation.level invocation.request path output
    pure true
  | .folder path => do
    let summary ← host.runFolder invocation.level invocation.request path
    ExceptT.lift (host.tell summary.text)
    pure (summary.failed = 0)

/-- Runs a command line and gives its exit status. -/
def run (invocation : Invocation) : m Nat := do
  match ← (host.runTask invocation).run with
  | .ok success => pure (exitStatus success)
  | .error failure => do
    host.tell s!"error: {failure.message}"
    pure (exitStatus false)

end Host

end TorqueScript
