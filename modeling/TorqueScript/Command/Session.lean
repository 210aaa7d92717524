import TorqueScript.Command.Run

/-!
# Sessions

A command line that runs on a directory that is data. What it prints and what becomes of the directory is
the result.
-/

namespace TorqueScript

/-- A directory and what has been printed. -/
structure Session where
  directory : Directory
  stdout : String := ""
  stderr : String := ""
  deriving DecidableEq, Repr

namespace Session

/-- Writes a text in the directory of a session. A write that fails changes nothing. -/
def write (path text : String) : StateM Session (Except Fault Unit) :=
  fun s =>
    match s.directory.write path text with
    | .ok directory => (.ok (), { s with directory })
    | .error fault => (.error fault, s)

/-- The surroundings of a command within a session. -/
def host : Host (StateM Session) where
  read path := fun s => (s.directory.read path, s)
  write := write
  scripts path := fun s => (s.directory.scripts path, s)
  print text := modify fun s => { s with stdout := s.stdout ++ text }
  tell line := modify fun s => { s with stderr := s.stderr ++ line ++ "\n" }

/-- Runs a command line in a directory: the exit status and the session at the end. -/
def run (invocation : Invocation) (directory : Directory) : Nat × Session :=
  (host.run invocation).run { directory }

end Session

end TorqueScript
