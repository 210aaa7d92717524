import TorqueScript.Command.Run

/-!
# The program

Runs a command line on the file system.
-/

namespace TorqueScript.Program

/-- The fault that an error of the file system stands for. -/
def fault : IO.Error → Fault
  | .noFileOrDirectory .. => .missing
  | .inappropriateType _ code _ => if code = 21 then .isFolder else .notFolder
  | e => .other (toString e)

/-- The result of an access to the file system. -/
def attempt {α : Type} (access : IO α) : IO (Except Fault α) := do
  try return .ok (← access)
  catch e => return .error (fault e)

/-- The names of the entries of a folder, in ascending order. One that cannot be read has none. -/
def entries (path : String) : IO (List String) := do
  try
    let found ← ((← IO.currentDir) / path).readDir
    return (found.toList.map (·.fileName)).mergeSort
  catch _ => return []

/-- The file system as a search sees it. -/
def view : View IO where
  isFolder path := do
    if path.isEmpty then return false
    ((← IO.currentDir) / path).isDir
  isFile path := do
    let file := (← IO.currentDir) / path
    return (← file.pathExists) && !(← file.isDir)
  entries := entries

/-- The file system and the streams of the process. -/
def host : Host IO where
  read path := attempt do return (← IO.FS.readBinFile path).toList
  write path text := attempt (IO.FS.writeFile path text)
  scripts := view.scripts
  print := IO.print
  tell := IO.eprintln

/-- How to call the program. -/
def usage : String :=
  "usage: [-v | -q] decompile (file | dir) PATH [--mode source|disasm|ast] [--opcodes MAP.json] " ++
    "[--allow-version-mismatch] [-o OUTPUT]"

/-- Reads the arguments and runs the command. -/
def run (args : List String) : IO UInt32 := do
  match Invocation.ofArguments args with
  | none => do
    IO.eprintln usage
    return usageStatus.toUInt32
  | some invocation => return (← host.run invocation).toUInt32

end TorqueScript.Program

def main (args : List String) : IO UInt32 :=
  TorqueScript.Program.run args
