/-!
# Log

What a run tells besides its result. A message is data with a level and a text; a message is shown if
its level is at most as detailed as the one asked for.
-/

namespace TorqueScript

/-- How detailed a message is, from the least to the most. -/
inductive Level where
  | error
  | warn
  | info
  | debug
  | trace
  deriving DecidableEq, Repr, Inhabited

namespace Level

/-- The position of a level among all levels. -/
def rank : Level → Nat
  | error => 0
  | warn => 1
  | info => 2
  | debug => 3
  | trace => 4

/-- The name of a level in front of a message. -/
def name : Level → String
  | error => "error"
  | warn => "warn"
  | info => "info"
  | debug => "debug"
  | trace => "trace"

/-- The level asked for by a number of requests for more messages, or by one for fewer. -/
def ofFlags (verbose : Nat) (quiet : Bool) : Level :=
  if quiet then error
  else match verbose with
    | 0 => warn
    | 1 => debug
    | _ => trace

end Level

/-- Something a run tells. -/
inductive Message where
  /-- Bytes that follow the last section of a file. -/
  | trailingBytes (count : Nat)
  | versionDiffers (version supported : Nat)
  | decoded (instructions words : Nat)
  | controlFlow (blocks branches : Nat)
  /-- Argument frames that no call closes. -/
  | openFrames (count : Nat)
  /-- Jumps over a right operand that does not end. -/
  | openLogic (count : Nat)
  | built (statements : Nat)
  | found (files : Nat) (directory : String)
  | written (source target : String)
  deriving DecidableEq, Repr

namespace Message

/-- The level of a message. -/
def level : Message → Level
  | versionDiffers .. | openFrames _ | openLogic _ => .warn
  | found .. => .info
  | _ => .debug

/-- The text of a message. -/
def text : Message → String
  | trailingBytes count => s!"ignoring {count} trailing bytes after identifier table"
  | versionDiffers version supported =>
    s!"DSO version {version} differs from {supported}, decoding anyway"
  | decoded instructions words => s!"decoded {instructions} instructions from {words} code words"
  | controlFlow blocks branches =>
    s!"control flow: {blocks} blocks, {branches} unconditional branches"
  | openFrames count => s!"{count} argument frames left open at end of stream"
  | openLogic count => s!"{count} short-circuit jumps never reached their target"
  | built statements => s!"built {statements} top level statements"
  | found files directory => s!"found {files} DSO files under {directory}"
  | written source target => s!"{source} -> {target}"

/-- The message is shown at a level. -/
def shownAt (m : Message) (level : Level) : Bool :=
  m.level.rank ≤ level.rank

end Message

end TorqueScript
