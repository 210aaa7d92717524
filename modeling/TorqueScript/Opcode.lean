/-!
# Opcodes

The instruction set of the script machine. `Opcode.all` lists it in the order of the engine's own
numbering, and `Opcode.mnemonic` gives each opcode the name under which numbering tables and listings
know it.
-/

namespace TorqueScript

/-- An instruction of the script machine, without its operands. -/
inductive Opcode where
  | funcDecl
  | createObject
  | addObject
  | endObject
  | jmpIfFloatNot
  | jmpIfNot
  | jmpIfFloat
  | jmpIf
  | jmpIfNotNp
  | jmpIfNp
  | jmp
  | ret
  | cmpEq
  | cmpGr
  | cmpGe
  | cmpLt
  | cmpLe
  | cmpNe
  | xor
  | mod
  | bitAnd
  | bitOr
  | not
  | notFloat
  | onesComplement
  | shr
  | shl
  | and
  | or
  | add
  | sub
  | mul
  | div
  | neg
  | setCurVar
  | setCurVarCreate
  | setCurVarArray
  | setCurVarArrayCreate
  | loadVarUint
  | loadVarFloat
  | loadVarStr
  | saveVarUint
  | saveVarFloat
  | saveVarStr
  | setCurObject
  | setCurObjectNew
  | setCurField
  | setCurFieldArray
  | loadFieldUint
  | loadFieldFloat
  | loadFieldStr
  | saveFieldUint
  | saveFieldFloat
  | saveFieldStr
  | strToUint
  | strToFloat
  | strToNone
  | floatToUint
  | floatToStr
  | floatToNone
  | uintToFloat
  | uintToStr
  | uintToNone
  | loadImmedUint
  | loadImmedFloat
  | tagToStr
  | loadImmedStr
  | loadImmedIdent
  | callFuncResolve
  | callFunc
  | advanceStr
  | advanceStrAppendChar
  | advanceStrComma
  | advanceStrNul
  | rewindStr
  | terminateRewindStr
  | compareStr
  | push
  | pushFrame
  | debugBreak
  | invalid
  deriving DecidableEq, Repr, Inhabited

namespace Opcode

/-- Every opcode, in the order of the engine's own numbering. -/
def all : List Opcode :=
  [funcDecl, createObject, addObject, endObject, jmpIfFloatNot, jmpIfNot, jmpIfFloat, jmpIf,
    jmpIfNotNp, jmpIfNp, jmp, ret, cmpEq, cmpGr, cmpGe, cmpLt, cmpLe, cmpNe, xor, mod, bitAnd,
    bitOr, not, notFloat, onesComplement, shr, shl, and, or, add, sub, mul, div, neg, setCurVar,
    setCurVarCreate, setCurVarArray, setCurVarArrayCreate, loadVarUint, loadVarFloat, loadVarStr,
    saveVarUint, saveVarFloat, saveVarStr, setCurObject, setCurObjectNew, setCurField,
    setCurFieldArray, loadFieldUint, loadFieldFloat, loadFieldStr, saveFieldUint, saveFieldFloat,
    saveFieldStr, strToUint, strToFloat, strToNone, floatToUint, floatToStr, floatToNone,
    uintToFloat, uintToStr, uintToNone, loadImmedUint, loadImmedFloat, tagToStr, loadImmedStr,
    loadImmedIdent, callFuncResolve, callFunc, advanceStr, advanceStrAppendChar, advanceStrComma,
    advanceStrNul, rewindStr, terminateRewindStr, compareStr, push, pushFrame, debugBreak, invalid]

/-- The name of an opcode in numbering tables. -/
def mnemonic : Opcode → String
  | funcDecl => "FUNC_DECL"
  | createObject => "CREATE_OBJECT"
  | addObject => "ADD_OBJECT"
  | endObject => "END_OBJECT"
  | jmpIfFloatNot => "JMPIFFNOT"
  | jmpIfNot => "JMPIFNOT"
  | jmpIfFloat => "JMPIFF"
  | jmpIf => "JMPIF"
  | jmpIfNotNp => "JMPIFNOT_NP"
  | jmpIfNp => "JMPIF_NP"
  | jmp => "JMP"
  | ret => "RETURN"
  | cmpEq => "CMPEQ"
  | cmpGr => "CMPGR"
  | cmpGe => "CMPGE"
  | cmpLt => "CMPLT"
  | cmpLe => "CMPLE"
  | cmpNe => "CMPNE"
  | xor => "XOR"
  | mod => "MOD"
  | bitAnd => "BITAND"
  | bitOr => "BITOR"
  | not => "NOT"
  | notFloat => "NOTF"
  | onesComplement => "ONESCOMPLEMENT"
  | shr => "SHR"
  | shl => "SHL"
  | and => "AND"
  | or => "OR"
  | add => "ADD"
  | sub => "SUB"
  | mul => "MUL"
  | div => "DIV"
  | neg => "NEG"
  | setCurVar => "SETCURVAR"
  | setCurVarCreate => "SETCURVAR_CREATE"
  | setCurVarArray => "SETCURVAR_ARRAY"
  | setCurVarArrayCreate => "SETCURVAR_ARRAY_CREATE"
  | loadVarUint => "LOADVAR_UINT"
  | loadVarFloat => "LOADVAR_FLT"
  | loadVarStr => "LOADVAR_STR"
  | saveVarUint => "SAVEVAR_UINT"
  | saveVarFloat => "SAVEVAR_FLT"
  | saveVarStr => "SAVEVAR_STR"
  | setCurObject => "SETCUROBJECT"
  | setCurObjectNew => "SETCUROBJECT_NEW"
  | setCurField => "SETCURFIELD"
  | setCurFieldArray => "SETCURFIELD_ARRAY"
  | loadFieldUint => "LOADFIELD_UINT"
  | loadFieldFloat => "LOADFIELD_FLT"
  | loadFieldStr => "LOADFIELD_STR"
  | saveFieldUint => "SAVEFIELD_UINT"
  | saveFieldFloat => "SAVEFIELD_FLT"
  | saveFieldStr => "SAVEFIELD_STR"
  | strToUint => "STR_TO_UINT"
  | strToFloat => "STR_TO_FLT"
  | strToNone => "STR_TO_NONE"
  | floatToUint => "FLT_TO_UINT"
  | floatToStr => "FLT_TO_STR"
  | floatToNone => "FLT_TO_NONE"
  | uintToFloat => "UINT_TO_FLT"
  | uintToStr => "UINT_TO_STR"
  | uintToNone => "UINT_TO_NONE"
  | loadImmedUint => "LOADIMMED_UINT"
  | loadImmedFloat => "LOADIMMED_FLT"
  | tagToStr => "TAG_TO_STR"
  | loadImmedStr => "LOADIMMED_STR"
  | loadImmedIdent => "LOADIMMED_IDENT"
  | callFuncResolve => "CALLFUNC_RESOLVE"
  | callFunc => "CALLFUNC"
  | advanceStr => "ADVANCE_STR"
  | advanceStrAppendChar => "ADVANCE_STR_APPENDCHAR"
  | advanceStrComma => "ADVANCE_STR_COMMA"
  | advanceStrNul => "ADVANCE_STR_NUL"
  | rewindStr => "REWIND_STR"
  | terminateRewindStr => "TERMINATE_REWIND_STR"
  | compareStr => "COMPARE_STR"
  | push => "PUSH"
  | pushFrame => "PUSH_FRAME"
  | debugBreak => "BREAK"
  | invalid => "INVALID"

/-- The name of an opcode in listings and messages. -/
def label (op : Opcode) : String :=
  "OP_" ++ op.mnemonic

/-- The opcode with a given mnemonic. -/
def ofMnemonic? (s : String) : Option Opcode :=
  all.find? (·.mnemonic == s)

/-- No opcode is missing from the numbering. -/
theorem mem_all (op : Opcode) : op ∈ all := by
  cases op <;> decide

end Opcode

end TorqueScript
