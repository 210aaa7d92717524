import TorqueScript.Address
import TorqueScript.Decimal.Text
import TorqueScript.Json.Fault
import TorqueScript.Opcode

/-!
# Causes of failure

Every way in which reading, decoding, structuring, rebuilding or printing a script can fail, and the
message for each.
-/

namespace TorqueScript

/-- The version of compiled files that is understood. -/
def supportedVersion : Nat := 33

/-- A cause of failure. -/
inductive Error where
  /-- The file ends before its last section does. -/
  | endOfInput
  | unsupportedVersion (version : Nat)
  | invalidStringOffset (offset : Nat)
  | invalidFloatIndex (index : Nat)
  /-- An identifier is patched into a word that the code does not have. -/
  | patchOutsideCode (ip : Addr) (codeLength : Nat)
  /-- The text of a numbering table cannot be read. -/
  | unreadableTable (fault : Json.Fault)
  | emptyTable
  | invalidOpcode (addr : Addr) (word : Nat)
  /-- The code ends inside an instruction. -/
  | truncatedOperand (addr : Addr) (opcode : Opcode)
  | unresolvedIdentifier (addr ip : Addr)
  | invalidCallType (addr : Addr) (value : Nat)
  | invalidAppendChar (addr : Addr) (value : Nat)
  /-- A jump leads to no instruction. -/
  | branchTargetMissing (addr target : Addr)
  | overlappingBlocks (start stop enclosingStop : Addr)
  | unbalancedBlocks (openBlocks : Nat)
  | stackUnderflow (addr : Addr) (opcode : Opcode)
  | unexpectedOperand (addr : Addr) (opcode : Opcode) (expected found : String)
  | frameUnderflow (addr : Addr) (opcode : Opcode)
  | nestedFunction (addr : Addr)
  /-- A function ends while a block that began in it is still open. -/
  | unbalancedFunction (addr stop : Addr)
  | objectDepthUnderflow (addr : Addr)
  | unterminatedObject (depth : Nat)
  | unclosedAccumulator (addr : Addr)
  | unstructuredBranch (addr : Addr)
  /-- A statement stands where source text needs an expression. -/
  | statementInExpression (kind : String)
  | nonFiniteFloat (value : Binary64)
  deriving DecidableEq, Repr, Inhabited

namespace Error

/-- What is told about a failure. -/
def message : Error → String
  | endOfInput => "unexpected end of input"
  | unsupportedVersion version =>
    s!"unsupported DSO version: {version} (expected {supportedVersion})"
  | invalidStringOffset offset => s!"invalid string table offset: {offset}"
  | invalidFloatIndex index => s!"invalid float table index: {index}"
  | patchOutsideCode ip codeLength =>
    s!"identifier patch at ip={ip} is outside the code ({codeLength} words)"
  | unreadableTable fault => s!"invalid opcode table: {fault.message}"
  | emptyTable => "invalid opcode table: opcode table is empty"
  | invalidOpcode addr word => s!"invalid opcode {word} at {addr}"
  | truncatedOperand addr opcode => s!"truncated {opcode.label} at {addr}"
  | unresolvedIdentifier addr ip =>
    s!"unresolved identifier operand at ip={ip} (instruction at {addr})"
  | invalidCallType addr value => s!"invalid call type {value} at {addr}"
  | invalidAppendChar addr value => s!"invalid append character {value} at {addr}"
  | branchTargetMissing addr target =>
    s!"branch at {addr} targets {target}, which is not an instruction"
  | overlappingBlocks start stop enclosingStop =>
    s!"block [{start}, {stop}] overlaps its enclosing block ending at {enclosingStop}"
  | unbalancedBlocks openBlocks => s!"unbalanced block nesting ({openBlocks} blocks still open)"
  | stackUnderflow addr opcode => s!"{opcode.label} at {addr}: stack underflow"
  | unexpectedOperand addr opcode expected found =>
    s!"{opcode.label} at {addr}: expected {expected}, found {found}"
  | frameUnderflow addr opcode => s!"{opcode.label} at {addr}: no open argument frame"
  | nestedFunction addr => s!"nested function declaration at {addr}"
  | unbalancedFunction addr stop =>
    s!"function body ending at {stop} is still inside a nested block at {addr}"
  | objectDepthUnderflow addr => s!"object declaration depth underflow at {addr}"
  | unterminatedObject depth => s!"{depth} object declarations left open at end of stream"
  | unclosedAccumulator addr => s!"string accumulator left open at {addr}"
  | unstructuredBranch addr => s!"unstructured branch at {addr}"
  | statementInExpression kind => s!"{kind} cannot be printed as an expression"
  | nonFiniteFloat value => s!"float constant {value.sourceText} has no script literal"

end Error

end TorqueScript
