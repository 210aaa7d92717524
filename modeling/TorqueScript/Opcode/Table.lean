import TorqueScript.Error
import TorqueScript.Json.Scan

/-!
# Numbering tables

Engines number the opcodes differently, so a table lists the opcodes in the order of their numbers.
`Table.standard` is the engine's own numbering. Any other is read from text: a JSON array of
mnemonics, in which an element may also be written as an object with the mnemonic as its one key and
`null` as its value.
-/

namespace TorqueScript

namespace Opcode

/-- The opcodes in the order of their numbers. -/
structure Table where
  opcodes : List Opcode
  deriving DecidableEq, Repr

namespace Table

open Json.Scan

/-- The engine's own numbering. -/
def standard : Table := ⟨Opcode.all⟩

/-- The opcode with the number `word`. -/
def lookup (table : Table) (word : Nat) : Option Opcode :=
  table.opcodes[word]?

/-! ### Tables as text -/

/-- A mnemonic between quotes. -/
def scanName : Json.Scan Opcode := do
  match ← peekPastBlanks with
  | none => stop .endInValue
  | some '"' => do
    skip
    let name ← string
    match Opcode.ofMnemonic? name with
    | some op => pure op
    | none => stop (.unknownName name (Opcode.all.map Opcode.mnemonic))
  | some _ => mismatch .name

/-- A mnemonic as the key of an object, whose opening brace has been taken. -/
def scanKey : Json.Scan Opcode := do
  let op ← scanName
  match ← peekPastBlanks with
  | none => stop .endInObject
  | some ':' => skip
  | some _ => stopAfter .expectedColon
  null
  match ← peekPastBlanks with
  | none => stop .endInObject
  | some '\x7d' => skip
  | some _ => stop .expectedValue
  pure op

/-- An element of a table. -/
def scanElement : Json.Scan Opcode := do
  match ← peekPastBlanks with
  | none => stop .endInValue
  | some '"' => scanName
  | some '\x7b' => do
    skip
    scanKey
  | some _ => stopAfter .expectedValue

/-- The elements after the first, each behind a comma, and the closing bracket. An element takes at least
one byte, so as many steps as there are bytes are enough. -/
def scanMore : Nat → Json.Scan (List Opcode)
  | 0 => stop .endInList
  | steps + 1 => do
    match ← peekPastBlanks with
    | none => stop .endInList
    | some ']' => do
      skip
      pure []
    | some ',' => do
      skip
      match ← peekPastBlanks with
      | none => stop .endInValue
      | some ']' => stopAfter .trailingComma
      | some _ => do
        let op ← scanElement
        let ops ← scanMore steps
        pure (op :: ops)
    | some _ => stopAfter .expectedComma

/-- The elements of a list whose opening bracket has been taken, and the closing bracket. -/
def scanElements : Json.Scan (List Opcode) := do
  match ← peekPastBlanks with
  | none => stop .endInList
  | some ']' => do
    skip
    pure []
  | some _ => do
    let op ← scanElement
    let ops ← scanMore (← get).length
    pure (op :: ops)

/-- A list of opcodes with nothing behind it. -/
def scan : Json.Scan (List Opcode) := do
  match ← peekPastBlanks with
  | none => stop .endInValue
  | some '[' => do
    skip
    let ops ← scanElements
    match ← peekPastBlanks with
    | none => pure ops
    | some _ => stopAfter .trailingText
  | some _ => mismatch .list

/-- Reads a table. A table lists at least one opcode. -/
def ofText (text : String) : Except Error Table :=
  let bytes := text.toUTF8.toList
  match scan.run bytes with
  | .error s => throw (.unreadableTable (s.fault bytes))
  | .ok ([], _) => throw .emptyTable
  | .ok (opcodes, _) => pure ⟨opcodes⟩

end Table

end Opcode

end TorqueScript
