import TorqueScript.Block
import TorqueScript.Decimal.Text
import TorqueScript.Image
import TorqueScript.Instruction
import TorqueScript.Text.Quoted

/-!
# Listings

A listing has a line for every instruction, with its address, opcode and operands, the class of an
unconditional jump and the source line that begins there. In front of it stands a line for every block
that begins with the instruction, outer blocks first.
-/

namespace TorqueScript

namespace Listing

/-- Adds characters in front of a text until it has the given length. -/
def padLeft (width : Nat) (c : Char) (s : String) : String :=
  String.ofList (List.replicate (width - s.length) c) ++ s

/-- Adds characters behind a text until it has the given length. -/
def padRight (width : Nat) (c : Char) (s : String) : String :=
  s ++ String.ofList (List.replicate (width - s.length) c)

/-- A name behind its qualifier. -/
def qualified (nameSpace : Option String) (name : String) : String :=
  match nameSpace with
  | some s => s ++ "::" ++ name
  | none => name

/-- The name of a kind of call. -/
def callName : CallType → String
  | .function => "function"
  | .method => "method"
  | .parent => "parent"

/-- The text of a flag. -/
def flag : Bool → String
  | true => "true"
  | false => "false"

/-- The operands of an operation; empty if it has none. -/
def operands : Operation → String
  | .declareFunction s hasBody stop =>
    qualified s.nameSpace s.name ++ "(" ++ ", ".intercalate s.args ++ ")" ++
      (match s.package with
        | some p => " package=" ++ p
        | none => "") ++
      (if hasBody then s!" end={stop}" else "")
  | .createObject parent isDatablock failTarget =>
    "parent=" ++ parent.getD "-" ++ " datablock=" ++ flag isDatablock ++ s!" fail={failTarget}"
  | .addObject atRoot | .endObject atRoot => "root=" ++ flag atRoot
  | .jump _ target => toString target
  | .selectVar name _ | .selectField name => name
  | .immediateUint v => toString v.toNat
  | .immediateFloat x => x.sourceText
  | .immediateStr s => Text.shown '"' s.toList
  | .immediateIdent s => s
  | .immediateTag s => "'" ++ s ++ "'"
  | .call name nameSpace callType _ => qualified nameSpace name ++ " (" ++ callName callType ++ ")"
  | .advanceStrAppend c => Text.shown '\'' [c]
  | .ret true => "value"
  | _ => ""

/-- The name of a class of jumps. -/
def className : BranchKind → String
  | .alternative => "else"
  | .nextRound => "continue"
  | .leave => "break"

/-- The line in front of a block. -/
def header (b : Block) : Option String :=
  let line (label : String) :=
    s!"      ; {label} [{b.start}, {b.stop}]" ++
      (match b.continuePoint with
        | some point => s!" continue={point}"
        | none => "") ++ "\n"
  match b.kind with
  | .root => none
  | .conditional => some (line "conditional")
  | .loop => some (line "loop")

/-- The source line that begins at an address; the last one told counts. -/
def sourceLine? (lineBreaks : List LineBreak) (addr : Addr) : Option Nat :=
  (lineBreaks.reverse.find? (·.addr == addr)).map (·.line)

/-- The line of an instruction. -/
def line (branches : List Branch) (lineBreaks : List LineBreak) (ins : Instruction) : String :=
  let shown := operands ins.operation
  padLeft 5 '0' (toString ins.addr) ++ " " ++ padRight 24 ' ' ins.opcode.label ++
    (if shown.isEmpty then "" else " " ++ shown) ++
    (match Branch.find? ins.addr branches with
      | some branch => "       ; " ++ className branch.kind
      | none => "") ++
    (match sourceLine? lineBreaks ins.addr with
      | some n => s!"       ; line {n}"
      | none => "") ++ "\n"

/-- The lines of a listing. -/
def lines (tree : Block) (lineBreaks : List LineBreak) (instrs : List Instruction) : List String :=
  let branches := tree.allBranches
  instrs.flatMap fun ins =>
    (tree.startingAt ins.addr).filterMap header ++ [line branches lineBreaks ins]

/-- The listing of a stream. -/
def text (tree : Block) (lineBreaks : List LineBreak) (instrs : List Instruction) : String :=
  String.join (lines tree lineBreaks instrs)

end Listing

end TorqueScript
