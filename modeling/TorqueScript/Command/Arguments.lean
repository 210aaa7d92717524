import TorqueScript.Decompile

/-!
# Arguments

The command line `decompile file PATH` or `decompile dir PATH`, with switches and settings. An argument
list is read in two steps: each argument becomes words, and the words of each of the three commands (the
program, `decompile`, and `file` or `dir`) are then counted. Reading fails without a reason, as every
mistake in the arguments has the same end.

The switches for more or fewer messages may stand after any of the commands. The two exclude each other
only within one command, a later command's count of messages replaces that of an earlier one, and one
request for fewer messages is enough.
-/

namespace TorqueScript

namespace Arguments

/-- An option without a value. -/
inductive Switch where
  | verbose
  | quiet
  | allowVersionMismatch
  deriving DecidableEq, Repr

/-- An option with a value. -/
inductive Setting where
  | mode
  | opcodes
  | output
  deriving DecidableEq, Repr

/-- The long name of a switch. -/
def Switch.long : Switch → String
  | verbose => "verbose"
  | quiet => "quiet"
  | allowVersionMismatch => "allow-version-mismatch"

/-- The letter of a switch. -/
def Switch.short : Switch → Option Char
  | verbose => some 'v'
  | quiet => some 'q'
  | allowVersionMismatch => none

/-- The long name of a setting. -/
def Setting.long : Setting → String
  | mode => "mode"
  | opcodes => "opcodes"
  | output => "output"

/-- The letter of a setting. -/
def Setting.short : Setting → Option Char
  | output => some 'o'
  | mode | opcodes => none

/-- The options that a command takes. -/
structure Grammar where
  switches : List Switch
  settings : List Setting
  deriving DecidableEq, Repr

namespace Grammar

/-- The options of a command that only leads to another one. -/
def leading : Grammar := ⟨[.verbose, .quiet], []⟩

/-- The options for one file. -/
def file : Grammar := ⟨[.verbose, .quiet, .allowVersionMismatch], [.mode, .opcodes, .output]⟩

/-- The options for the files of a folder. -/
def folder : Grammar := ⟨[.verbose, .quiet, .allowVersionMismatch], [.mode, .opcodes]⟩

end Grammar

/-! ### Words -/

/-- What an argument says. -/
inductive Word where
  | switch (s : Switch)
  | setting (s : Setting) (value : String)
  | plain (text : String)
  deriving DecidableEq, Repr

/-- An argument that starts with a dash, a lone dash apart, is an option. -/
def isOption (arg : String) : Bool :=
  match arg.toList with
  | '-' :: _ :: _ => true
  | _ => false

/-- The words of an option, and the setting whose value is still to come. -/
structure Reading where
  words : List Word := []
  awaits : Option Setting := none
  deriving DecidableEq, Repr

/-- A text after a letter, where a sign may divide the two. -/
def afterSign : List Char → List Char
  | '=' :: cs => cs
  | cs => cs

/-- The letters of an option with one dash. A setting takes the text that follows its letter. -/
def letters (g : Grammar) : List Char → Option Reading
  | [] => some {}
  | c :: cs =>
    match g.switches.find? (·.short = some c), g.settings.find? (·.short = some c) with
    | some s, _ => do
      let rest ← letters g cs
      some { rest with words := .switch s :: rest.words }
    | none, some s =>
      match cs with
      | [] => some { awaits := some s }
      | _ => some { words := [.setting s (String.ofList (afterSign cs))] }
    | none, none => none

/-- The name and value of an option with two dashes. -/
def long (g : Grammar) (text : List Char) : Option Reading :=
  let name := String.ofList (text.takeWhile (· != '='))
  let value := (text.dropWhile (· != '=')).tail?.map String.ofList
  match g.switches.find? (·.long = name), g.settings.find? (·.long = name), value with
  | some s, _, none => some { words := [.switch s] }
  | none, some s, none => some { awaits := some s }
  | none, some s, some v => some { words := [.setting s v] }
  | _, _, _ => none

/-- One option. -/
def option (g : Grammar) (arg : String) : Option Reading :=
  match arg.toList with
  | '-' :: '-' :: text => long g text
  | '-' :: text => letters g text
  | _ => none

/-- The words of the arguments of a command, where a setting may await its value. After two dashes every
argument is plain. -/
def words (g : Grammar) : Option Setting → List String → Option (List Word)
  | none, [] => some []
  | some _, [] => none
  | some s, arg :: args =>
    if isOption arg then none else (.setting s arg :: ·) <$> words g none args
  | none, arg :: args =>
    if arg = "--" then some (args.map .plain)
    else if isOption arg then do
      let reading ← option g arg
      (reading.words ++ ·) <$> words g reading.awaits args
    else (.plain arg :: ·) <$> words g none args

/-- The words in front of the name of a further command, that name, and the arguments after it. -/
def leadingWords : List String → Option (List Word × String × List String)
  | [] => none
  | arg :: args =>
    if isOption arg then do
      let reading ← option .leading arg
      let (ws, name, rest) ← leadingWords args
      some (reading.words ++ ws, name, rest)
    else some ([], arg, args)

/-! ### Counts -/

/-- A switch that is given at most once. -/
def once (s : Switch) (ws : List Word) : Option Bool :=
  match ws.count (.switch s) with
  | 0 => some false
  | 1 => some true
  | _ => none

/-- The value of a setting that is given at most once. It is not empty. -/
def value? (s : Setting) (ws : List Word) : Option (Option String) :=
  match ws.filterMap fun | .setting t v => if t = s then some v else none | _ => none with
  | [] => some none
  | [v] => if v = "" then none else some (some v)
  | _ => none

/-- The one plain argument. It is not empty. -/
def path? (ws : List Word) : Option String :=
  match ws.filterMap fun | .plain t => some t | _ => none with
  | [t] => if t = "" then none else some t
  | _ => none

/-- How many messages a command asks for. -/
structure Volume where
  verbose : Nat := 0
  quiet : Bool := false
  deriving DecidableEq, Repr

namespace Volume

/-- What the words of one command ask for: not both more and fewer messages. -/
def ofWords (ws : List Word) : Option Volume := do
  let verbose := ws.count (.switch .verbose)
  let quiet ← once .quiet ws
  if quiet && verbose > 0 then none else some ⟨verbose, quiet⟩

/-- What two commands ask for, one after the other. -/
def andThen (first later : Volume) : Volume :=
  ⟨if later.verbose = 0 then first.verbose else later.verbose, first.quiet || later.quiet⟩

/-- The level of the messages to be shown. -/
def level (v : Volume) : Level :=
  Level.ofFlags v.verbose v.quiet

end Volume

/-- The form of output with a name. -/
def mode? : Option String → Option Mode
  | none => some .source
  | some "source" => some .source
  | some "disasm" => some .listing
  | some "ast" => some .tree
  | some _ => none

end Arguments

/-- How to decompile, as far as the arguments say. -/
structure Request where
  mode : Mode := .source
  allowVersionMismatch : Bool := false
  /-- The path of a numbering table. -/
  opcodes : Option String := none
  deriving DecidableEq, Repr

/-- What to decompile. -/
inductive Task where
  /-- One file; its text goes to a path or is printed. -/
  | file (path : String) (output : Option String)
  /-- Every compiled file below a folder; each text goes beside its file. -/
  | folder (path : String)
  deriving DecidableEq, Repr

/-- A whole command line. -/
structure Invocation where
  level : Level
  request : Request
  task : Task
  deriving DecidableEq, Repr

namespace Invocation

open Arguments

/-- How to decompile, by the words of a command. -/
def request? (ws : List Word) : Option Request := do
  let mode ← mode? (← value? .mode ws)
  let allowVersionMismatch ← once .allowVersionMismatch ws
  let opcodes ← value? .opcodes ws
  some { mode, allowVersionMismatch, opcodes }

/-- What to decompile, by the name and the arguments of the last command, with the words of that
command. -/
def task? (name : String) (args : List String) : Option (Task × List Word) :=
  match name with
  | "file" => do
    let ws ← words .file none args
    some (.file (← path? ws) (← value? .output ws), ws)
  | "dir" => do
    let ws ← words .folder none args
    some (.folder (← path? ws), ws)
  | _ => none

/-- Reads the arguments of the program. -/
def ofArguments (args : List String) : Option Invocation := do
  let (programWords, command, args) ← leadingWords args
  if command ≠ "decompile" then none
  let (commandWords, name, args) ← leadingWords args
  let (task, taskWords) ← task? name args
  let request ← request? taskWords
  let first ← Volume.ofWords programWords
  let second ← Volume.ofWords commandWords
  let third ← Volume.ofWords taskWords
  some { level := ((first.andThen second).andThen third).level, request, task }

end Invocation

end TorqueScript
