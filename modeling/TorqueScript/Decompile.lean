import TorqueScript.Block.Classify
import TorqueScript.Image.Read
import TorqueScript.Instruction.Decode
import TorqueScript.Listing
import TorqueScript.Log
import TorqueScript.Node.Serial
import TorqueScript.Rebuild.Run
import TorqueScript.Source.Layout

/-!
# Decompiling

From the bytes of a compiled file to its text: source, listing or serialized tree. The computation keeps
a log, and the log is kept when it fails.
-/

namespace TorqueScript

/-- A computation that may fail and keeps a log either way. -/
abbrev Logged := ExceptT Error (StateM (List Message))

namespace Logged

/-- A result without messages. -/
def silent {α : Type} (x : Except Error α) : Logged α :=
  ExceptT.mk (pure x)

/-- Adds a message to the log. -/
def tell (m : Message) : Logged Unit :=
  modify (· ++ [m])

/-- Adds a message that counts something, if there is something to count. -/
def tellCount (count : Nat) (m : Nat → Message) : Logged Unit :=
  if count = 0 then pure () else tell (m count)

/-- The result and the log. -/
def outcome {α : Type} (x : Logged α) : Except Error α × List Message :=
  x.run.run []

end Logged

/-- The forms of output. -/
inductive Mode where
  | source
  | listing
  | tree
  deriving DecidableEq, Repr, Inhabited

/-- What is asked for. -/
structure Options where
  mode : Mode := .source
  /-- Decode a file of another version all the same. -/
  allowVersionMismatch : Bool := false
  table : Opcode.Table := .standard
  deriving DecidableEq, Repr

namespace Stream

open Logged

/-- The block tree of a stream. -/
def analyze (instrs : List Instruction) : Logged Block := do
  let tree ← silent (blockTree instrs)
  tell (.controlFlow tree.preorder.length tree.allBranches.length)
  pure tree

/-- Runs the regions of a stream to its end. -/
def run (tree : Block) (instrs : List Instruction) : Rebuild Unit := do
  Rebuild.runAll (Region.ofStream tree instrs)
  Rebuild.close (last instrs)

/-- The statements of a stream with a block tree. -/
def rebuild (tree : Block) (instrs : List Instruction) : Logged (List Node) := do
  let ((), s) ← silent (StateT.run (run tree instrs) {})
  tellCount s.frames.length .openFrames
  tellCount s.pending.length .openLogic
  let nodes ← silent (Rebuild.program (last instrs) s)
  tell (.built nodes.length)
  pure nodes

/-- The statements of a stream. -/
def statements (instrs : List Instruction) : Logged (List Node) := do
  let tree ← analyze instrs
  rebuild tree instrs

/-- The text of a stream in the form asked for. -/
def text (mode : Mode) (lineBreaks : List LineBreak) (instrs : List Instruction) : Logged String := do
  match mode with
  | .source => do
    let nodes ← statements instrs
    let tokens ← silent (Source.program nodes)
    pure (Source.text tokens)
  | .listing => do
    let tree ← analyze instrs
    pure (Listing.text tree lineBreaks instrs)
  | .tree => do
    let nodes ← statements instrs
    pure (Json.list (Node.listToJson nodes)).pretty

end Stream

open Logged

/-- Reads a compiled file. -/
def Image.load (bytes : List UInt8) : Logged Image := do
  let (image, rest) ← silent (Image.read bytes)
  tellCount rest.length .trailingBytes
  pure image

/-- A file of another version is refused unless the options allow it. -/
def Image.checkVersion (options : Options) (image : Image) : Logged Unit :=
  if image.version.toNat = supportedVersion then pure ()
  else if options.allowVersionMismatch then
    tell (.versionDiffers image.version.toNat supportedVersion)
  else throw (.unsupportedVersion image.version.toNat)

/-- The instructions of a compiled file. -/
def Image.decode (table : Opcode.Table) (image : Image) : Logged (List Instruction) := do
  let instrs ← silent (image.instructions table)
  tell (.decoded instrs.length image.code.length)
  pure instrs

/-- Decompiles a file. -/
def decompile (options : Options) (bytes : List UInt8) : Logged String := do
  let image ← Image.load bytes
  image.checkVersion options
  let instrs ← image.decode options.table
  Stream.text options.mode image.lineBreaks instrs

end TorqueScript
