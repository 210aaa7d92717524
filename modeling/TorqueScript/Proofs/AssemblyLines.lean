import TorqueScript.Proofs.Decoding
import TorqueScript.Proofs.FileLayout

/-!
# Lines of assembly

A line of assembly is an operation under one of the opcodes that stand for it.  It takes a word for the
number of the opcode and a word for each of its operands (`Operation.cells`).  Names are patched into their
words, strings and numbers lie in the pools of functions if the line lies in a body, and in the others if
not.  `Image.Holds` says that an image is laid out in this way.
-/

namespace TorqueScript

/-! ### Lines -/

/-- What a word of an instruction behind its opcode stands for. -/
inductive Cell where
  | number (n : Nat)
  | flag (b : Bool)
  /-- A name, or none where there may be none. -/
  | name (text : Option String)
  | text (s : String)
  | float (x : Binary64)
  deriving DecidableEq

/-- The number of a kind of call. -/
def CallType.number : CallType → Nat
  | function => 0
  | method => 1
  | parent => 2

/-- The opcode of a kind of jump. -/
def JumpKind.opcode : JumpKind → Opcode
  | always => .jmp
  | ifNot => .jmpIfNot
  | ifFloatNot => .jmpIfFloatNot
  | ifTrue => .jmpIf
  | ifFloat => .jmpIfFloat
  | ifNotKeep => .jmpIfNotNp
  | ifKeep => .jmpIfNp

/-- The opcode of an operator between two values. -/
def BinaryOp.opcode : BinaryOp → Opcode
  | equal => .cmpEq
  | greater => .cmpGr
  | greaterEqual => .cmpGe
  | less => .cmpLt
  | lessEqual => .cmpLe
  | notEqual => .cmpNe
  | xor => .xor
  | mod => .mod
  | bitAnd => .bitAnd
  | bitOr => .bitOr
  | shr => .shr
  | shl => .shl
  | and => .and
  | or => .or
  | add => .add
  | sub => .sub
  | mul => .mul
  | div => .div

namespace Operation

/-- The words of an operation behind its opcode. -/
def cells : Operation → List Cell
  | declareFunction signature hasBody stop =>
    [.name (some signature.name), .name signature.nameSpace, .name signature.package, .flag hasBody,
      .number stop, .number signature.args.length] ++ signature.args.map fun arg => .name (some arg)
  | createObject parent isDatablock failTarget => [.name parent, .flag isDatablock, .number failTarget]
  | addObject atRoot | endObject atRoot => [.flag atRoot]
  | jump _ target => [.number target]
  | selectVar name _ | selectField name | immediateIdent name => [.name (some name)]
  | immediateUint value => [.number value.toNat]
  | immediateFloat value => [.float value]
  | immediateStr value | immediateTag value => [.text value]
  | call name nameSpace callType _ => [.name (some name), .name nameSpace, .number callType.number]
  | advanceStrAppend char => [.number char.toNat]
  | _ => []

/-- The opcodes that stand for an operation.  There are none for a conversion to the same type. -/
def opcodes : Operation → List Opcode
  | declareFunction .. => [.funcDecl]
  | createObject .. => [.createObject]
  | addObject _ => [.addObject]
  | endObject _ => [.endObject]
  | jump kind _ => [kind.opcode]
  | ret _ => [.ret]
  | binary op => [op.opcode]
  | unary .not => [.not, .notFloat]
  | unary .complement => [.onesComplement]
  | unary .neg => [.neg]
  | selectVar _ false => [.setCurVar]
  | selectVar _ true => [.setCurVarCreate]
  | selectVarArray false => [.setCurVarArray]
  | selectVarArray true => [.setCurVarArrayCreate]
  | loadVar .uint => [.loadVarUint]
  | loadVar .float => [.loadVarFloat]
  | loadVar .str => [.loadVarStr]
  | saveVar .uint => [.saveVarUint]
  | saveVar .float => [.saveVarFloat]
  | saveVar .str => [.saveVarStr]
  | selectObject => [.setCurObject]
  | selectNewObject => [.setCurObjectNew]
  | selectField _ => [.setCurField]
  | selectFieldArray => [.setCurFieldArray]
  | loadField .uint => [.loadFieldUint]
  | loadField .float => [.loadFieldFloat]
  | loadField .str => [.loadFieldStr]
  | saveField .uint => [.saveFieldUint]
  | saveField .float => [.saveFieldFloat]
  | saveField .str => [.saveFieldStr]
  | convert .str (some .uint) => [.strToUint]
  | convert .str (some .float) => [.strToFloat]
  | convert .str none => [.strToNone]
  | convert .float (some .uint) => [.floatToUint]
  | convert .float (some .str) => [.floatToStr]
  | convert .float none => [.floatToNone]
  | convert .uint (some .float) => [.uintToFloat]
  | convert .uint (some .str) => [.uintToStr]
  | convert .uint none => [.uintToNone]
  | convert .str (some .str) | convert .float (some .float) | convert .uint (some .uint) => []
  | immediateUint _ => [.loadImmedUint]
  | immediateFloat _ => [.loadImmedFloat]
  | immediateStr _ => [.loadImmedStr]
  | immediateIdent _ => [.loadImmedIdent]
  | immediateTag _ => [.tagToStr]
  | call _ _ _ false => [.callFunc]
  | call _ _ _ true => [.callFuncResolve]
  | advanceStr => [.advanceStr]
  | advanceStrAppend _ => [.advanceStrAppendChar]
  | advanceStrComma => [.advanceStrComma]
  | advanceStrNul => [.advanceStrNul]
  | rewindStr => [.rewindStr]
  | terminateRewindStr => [.terminateRewindStr]
  | compareStr => [.compareStr]
  | push => [.push]
  | pushFrame => [.pushFrame]
  | debugBreak => [.debugBreak]

/-- The operation as it is decoded behind an instruction that has left a string or not. -/
def settle (live : Bool) : Operation → Operation
  | ret _ => ret live
  | immediateTag value => immediateTag (Operands.untag value)
  | op => op

@[simp] theorem leavesString_settle (live : Bool) (op : Operation) :
    (op.settle live).leavesString = op.leavesString := by
  cases op <;> rfl

@[simp] theorem bodyStop?_settle (live : Bool) (op : Operation) :
    (op.settle live).bodyStop? = op.bodyStop? := by
  cases op <;> rfl

end Operation

/-- An operation under one of its opcodes. -/
structure Line where
  opcode : Opcode
  operation : Operation
  mem_opcodes : opcode ∈ operation.opcodes

namespace Line

/-- The number of words of a line. -/
def size (l : Line) : Nat :=
  l.operation.cells.length + 1

/-- The line as an instruction. -/
def instruction (l : Line) (live : Bool) (addr : Addr) : Instruction where
  addr
  size := l.size
  opcode := l.opcode
  operation := l.operation.settle live

/-- The lines as instructions, the first at the address and behind one that has left a string or not. -/
def instructions : Bool → Addr → List Line → List Instruction
  | _, _, [] => []
  | live, addr, l :: ls => l.instruction live addr :: instructions l.operation.leavesString (addr + l.size) ls

/-- Each line gives one instruction. -/
theorem length_instructions (live : Bool) (addr : Addr) (ls : List Line) :
    (instructions live addr ls).length = ls.length := by
  induction ls generalizing live addr with
  | nil => rfl
  | cons l ls ih => rw [instructions, List.length_cons, ih, List.length_cons]

end Line

/-! ### Images that hold lines -/

/-- The word at the address `ip` stands for the cell. -/
def Cell.Written (image : Image) (pools : Pools) (ip : Addr) (w : UInt32) : Cell → Prop
  | number n => w.toNat = n
  | flag b => w ≠ 0 ↔ b = true
  | name (some s) => image.identifier? ip = some s
  | name none => image.identifier? ip = none ∧ w = 0
  | text s => w.toNat < pools.strings.bytes.length ∧ pools.strings.Spells w.toNat s
  | float x => pools.floats[w.toNat]? = some x

/-- The words from the address `ip` on stand for the cells. -/
def Cell.Laid (image : Image) (pools : Pools) : Addr → List UInt32 → List Cell → Prop
  | _, _, [] => True
  | _, [], _ :: _ => False
  | ip, w :: ws, c :: cs => c.Written image pools ip w ∧ Laid image pools (ip + 1) ws cs

/-- Cells that follow one another are laid out in words that follow one another. -/
theorem Cell.laid_append {image : Image} {pools : Pools} {ip : Addr} {ws : List UInt32} {cs cs' : List Cell} :
    Laid image pools ip ws (cs ++ cs') ↔
      Laid image pools ip ws cs ∧ Laid image pools (ip + cs.length) (ws.drop cs.length) cs' := by
  induction cs generalizing ip ws with
  | nil => simp [Laid]
  | cons c cs ih =>
      cases ws with
      | nil => simp [Laid]
      | cons w ws =>
          simp only [List.cons_append, Laid, ih, List.length_cons, List.drop_succ_cons, and_assoc,
            Nat.add_assoc, Nat.add_comm 1]

end TorqueScript
