import TorqueScript.Error
import TorqueScript.Image
import TorqueScript.Instruction
import TorqueScript.Opcode.Table

/-!
# Decoding

`Image.instructions` turns the code words of a file into instructions. Each instruction is an opcode
word followed by its operand words, so decoding reads the operands of one opcode (`Operands.operation`)
and goes on behind them.

Two things are carried from one instruction to the next (`Decoder`): the end of the function whose
declaration was passed last, because code inside a function uses its own pools, and whether the
instruction before left a string, because a return hands back a value exactly then.
-/

namespace TorqueScript

/-- Where the operands of an instruction are read. -/
structure Site where
  image : Image
  /-- The pools that string and number operands refer to. -/
  pools : Pools
  addr : Addr
  opcode : Opcode
  /-- The code word of the opcode. -/
  word : UInt32
  /-- The code words after it. -/
  words : List UInt32

/-- Reads operands at a site; the state is the number of operand words read so far. -/
abbrev Operands := ReaderT Site (StateT Nat (Except Error))

namespace Operands

/-- The next operand word. -/
def word : Operands UInt32 := fun site used =>
  match site.words[used]? with
  | some w => .ok (w, used + 1)
  | none => .error (.truncatedOperand site.addr site.opcode)

/-- The address of the next operand word. -/
def position : Operands Addr := fun site used =>
  .ok (site.addr + 1 + used, used)

/-- An address operand. -/
def address : Operands Addr := do
  let w ← word
  pure w.toNat

/-- An operand that is false if it is zero. -/
def flag : Operands Bool := do
  let w ← word
  pure (w != 0)

/-- An identifier that may be missing: a word without a patch must be zero. -/
def identifier? : Operands (Option String) := do
  let site ← read
  let ip ← position
  let w ← word
  match site.image.identifier? ip with
  | some name => pure (some name)
  | none => if w = 0 then pure none else throw (.unresolvedIdentifier site.addr ip)

/-- An identifier that must be there. -/
def identifier : Operands String := do
  let site ← read
  let ip ← position
  match ← identifier? with
  | some name => pure name
  | none => throw (.unresolvedIdentifier site.addr ip)

/-- A list of `n` identifiers. -/
def identifiers : Nat → Operands (List String)
  | 0 => pure []
  | n + 1 => do
    let name ← identifier
    let names ← identifiers n
    pure (name :: names)

/-- A string of the site's pool. -/
def string : Operands String := do
  let site ← read
  let offset ← word
  match site.pools.strings.get? offset.toNat with
  | some s => pure s
  | none => throw (.invalidStringOffset offset.toNat)

/-- A number of the site's pool. -/
def float : Operands Binary64 := do
  let site ← read
  let index ← word
  match site.pools.floats[index.toNat]? with
  | some x => pure x
  | none => throw (.invalidFloatIndex index.toNat)

/-- How a call finds its function. -/
def callType : Operands CallType := do
  let site ← read
  let w ← word
  match w.toNat with
  | 0 => pure .function
  | 1 => pure .method
  | 2 => pure .parent
  | v => throw (.invalidCallType site.addr v)

/-- A character given by its code. -/
def char : Operands Char := do
  let site ← read
  let w ← word
  if w.toNat.isValidChar then pure (Char.ofNat w.toNat)
  else throw (.invalidAppendChar site.addr w.toNat)

/-- A jump of a given kind. -/
def jump (kind : JumpKind) : Operands Operation := do
  let target ← address
  pure (.jump kind target)

/-- A tagged string is stored behind a marker with code one, which is not part of it. -/
def untag (s : String) : String :=
  match s.toList with
  | '\x01' :: cs => String.ofList cs
  | _ => s

/-- A call, resolved at run time or not. -/
def call (resolve : Bool) : Operands Operation := do
  let name ← identifier
  let nameSpace ← identifier?
  let type ← callType
  pure (.call name nameSpace type resolve)

/-- A function declaration. -/
def declaration : Operands Operation := do
  let name ← identifier
  let nameSpace ← identifier?
  let package ← identifier?
  let hasBody ← flag
  let stop ← address
  let count ← word
  let args ← identifiers count.toNat
  pure (.declareFunction { name, nameSpace, package, args } hasBody stop)

/-- The operation of the site's opcode with its operands; `live` tells whether the instruction before
left a string. -/
def operation (live : Bool) : Operands Operation := do
  let site ← read
  match site.opcode with
  | .funcDecl => declaration
  | .createObject => do
    let parent ← identifier?
    let isDatablock ← flag
    let failTarget ← address
    pure (.createObject parent isDatablock failTarget)
  | .addObject => do pure (.addObject (← flag))
  | .endObject => do pure (.endObject (← flag))
  | .jmpIfFloatNot => jump .ifFloatNot
  | .jmpIfNot => jump .ifNot
  | .jmpIfFloat => jump .ifFloat
  | .jmpIf => jump .ifTrue
  | .jmpIfNotNp => jump .ifNotKeep
  | .jmpIfNp => jump .ifKeep
  | .jmp => jump .always
  | .ret => pure (.ret live)
  | .cmpEq => pure (.binary .equal)
  | .cmpGr => pure (.binary .greater)
  | .cmpGe => pure (.binary .greaterEqual)
  | .cmpLt => pure (.binary .less)
  | .cmpLe => pure (.binary .lessEqual)
  | .cmpNe => pure (.binary .notEqual)
  | .xor => pure (.binary .xor)
  | .mod => pure (.binary .mod)
  | .bitAnd => pure (.binary .bitAnd)
  | .bitOr => pure (.binary .bitOr)
  | .not | .notFloat => pure (.unary .not)
  | .onesComplement => pure (.unary .complement)
  | .shr => pure (.binary .shr)
  | .shl => pure (.binary .shl)
  | .and => pure (.binary .and)
  | .or => pure (.binary .or)
  | .add => pure (.binary .add)
  | .sub => pure (.binary .sub)
  | .mul => pure (.binary .mul)
  | .div => pure (.binary .div)
  | .neg => pure (.unary .neg)
  | .setCurVar => do pure (.selectVar (← identifier) false)
  | .setCurVarCreate => do pure (.selectVar (← identifier) true)
  | .setCurVarArray => pure (.selectVarArray false)
  | .setCurVarArrayCreate => pure (.selectVarArray true)
  | .loadVarUint => pure (.loadVar .uint)
  | .loadVarFloat => pure (.loadVar .float)
  | .loadVarStr => pure (.loadVar .str)
  | .saveVarUint => pure (.saveVar .uint)
  | .saveVarFloat => pure (.saveVar .float)
  | .saveVarStr => pure (.saveVar .str)
  | .setCurObject => pure .selectObject
  | .setCurObjectNew => pure .selectNewObject
  | .setCurField => do pure (.selectField (← identifier))
  | .setCurFieldArray => pure .selectFieldArray
  | .loadFieldUint => pure (.loadField .uint)
  | .loadFieldFloat => pure (.loadField .float)
  | .loadFieldStr => pure (.loadField .str)
  | .saveFieldUint => pure (.saveField .uint)
  | .saveFieldFloat => pure (.saveField .float)
  | .saveFieldStr => pure (.saveField .str)
  | .strToUint => pure (.convert .str (some .uint))
  | .strToFloat => pure (.convert .str (some .float))
  | .strToNone => pure (.convert .str none)
  | .floatToUint => pure (.convert .float (some .uint))
  | .floatToStr => pure (.convert .float (some .str))
  | .floatToNone => pure (.convert .float none)
  | .uintToFloat => pure (.convert .uint (some .float))
  | .uintToStr => pure (.convert .uint (some .str))
  | .uintToNone => pure (.convert .uint none)
  | .loadImmedUint => do pure (.immediateUint (← word))
  | .loadImmedFloat => do pure (.immediateFloat (← float))
  | .tagToStr => do pure (.immediateTag (untag (← string)))
  | .loadImmedStr => do pure (.immediateStr (← string))
  | .loadImmedIdent => do pure (.immediateIdent (← identifier))
  | .callFuncResolve => call true
  | .callFunc => call false
  | .advanceStr => pure .advanceStr
  | .advanceStrAppendChar => do pure (.advanceStrAppend (← char))
  | .advanceStrComma => pure .advanceStrComma
  | .advanceStrNul => pure .advanceStrNul
  | .rewindStr => pure .rewindStr
  | .terminateRewindStr => pure .terminateRewindStr
  | .compareStr => pure .compareStr
  | .push => pure .push
  | .pushFrame => pure .pushFrame
  | .debugBreak => pure .debugBreak
  | .invalid => throw (.invalidOpcode site.addr site.word.toNat)

end Operands

/-- What decoding carries from one instruction to the next. -/
structure Decoder where
  /-- The end of the function being decoded. -/
  functionStop : Option Addr := none
  /-- The instruction before left a string. -/
  live : Bool := false
  deriving DecidableEq, Repr

namespace Decoder

/-- The decoder at the address `addr`: a function that ends there or earlier is left. -/
def enter (d : Decoder) (addr : Addr) : Decoder :=
  { d with functionStop := d.functionStop.filter (addr < ·) }

/-- The pools that operands refer to. -/
def pools (d : Decoder) (image : Image) : Pools :=
  if d.functionStop.isSome then image.inner else image.outer

/-- The decoder behind an operation. -/
def after (d : Decoder) (operation : Operation) : Decoder where
  functionStop := match operation with
    | .declareFunction _ true stop => some stop
    | _ => d.functionStop
  live := operation.leavesString

/-- Decodes the instruction whose opcode is `word`, followed by `words`. -/
def instruction (d : Decoder) (image : Image) (table : Opcode.Table) (addr : Addr) (word : UInt32)
    (words : List UInt32) : Except Error Instruction :=
  match table.lookup word.toNat with
  | none => throw (.invalidOpcode addr word.toNat)
  | some opcode => do
    let site : Site := { image, pools := d.pools image, addr, opcode, word, words }
    let (operation, used) ← (Operands.operation d.live).run site |>.run 0
    pure { addr, size := used + 1, opcode, operation }

/-- Decodes all words, the first of which has the address `addr`. -/
def instructions (d : Decoder) (image : Image) (table : Opcode.Table) (addr : Addr) :
    List UInt32 → Except Error (List Instruction)
  | [] => pure []
  | word :: words => do
    let d := d.enter addr
    let ins ← d.instruction image table addr word words
    let rest ← (d.after ins.operation).instructions image table (addr + ins.size)
      (words.drop (ins.size - 1))
    pure (ins :: rest)
  termination_by words => words.length

end Decoder

namespace Image

/-- The instructions of a file under a numbering table. -/
def instructions (image : Image) (table : Opcode.Table) : Except Error (List Instruction) :=
  ({} : Decoder).instructions image table 0 image.code

end Image

end TorqueScript
