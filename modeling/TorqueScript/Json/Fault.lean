import TorqueScript.Decimal.Text
import TorqueScript.Text.Quoted

/-!
# Why JSON text cannot be read

A fault is a reason and the place where it shows. A place is a line and a column, and columns count
bytes. `Fault.message` is what is told about it.
-/

namespace TorqueScript

namespace Json

/-- A place in a text: its line, counted from one, and the number of bytes before it on that line. -/
structure Place where
  line : Nat
  column : Nat
  deriving DecidableEq, Repr

/-- The byte that ends a line. -/
def lineEnd : UInt8 := 10

/-- The place after some bytes of a text. -/
def Place.after (bs : List UInt8) : Place :=
  ⟨1 + bs.count lineEnd, (bs.reverse.takeWhile (· != lineEnd)).length⟩

/-- What may stand where another kind of value is wanted. -/
inductive Found where
  | null
  | bool (value : Bool)
  | int (value : Int)
  | float (value : Binary64)
  | str (value : String)
  | list
  | object
  deriving DecidableEq, Repr

/-- How a message names what was found. -/
def Found.text : Found → String
  | null => "null"
  | bool value => s!"boolean `{value}`"
  | int value => s!"integer `{value}`"
  | float value => s!"floating point `{value.jsonText}`"
  | str value => "string " ++ Text.shown '"' value.toList
  | list => "sequence"
  | object => "map"

/-- A kind of value that may be wanted. -/
inductive Wanted where
  | list
  | name
  | null
  deriving DecidableEq, Repr

/-- How a message names what was wanted. -/
def Wanted.text : Wanted → String
  | list => "a sequence"
  | name => "variant identifier"
  | null => "unit"

/-- A reason for which text cannot be read. -/
inductive Reason where
  | endInValue
  | endInList
  | endInObject
  | endInString
  | expectedValue
  | expectedColon
  /-- An item of a list is followed by neither a comma nor the end of the list. -/
  | expectedComma
  /-- A word begins as one of the known words does and goes on differently. -/
  | expectedWord
  /-- A list ends after a comma. -/
  | trailingComma
  /-- Something follows the value. -/
  | trailingText
  | invalidEscape
  | controlCharacter
  /-- Half of a pair of escapes has no other half that fits it. -/
  | loneSurrogate
  /-- The first half of a pair of escapes is followed by no escape at all. -/
  | cutSurrogate
  | invalidNumber
  | numberOutOfRange
  /-- A name is none of those that are known. -/
  | unknownName (name : String) (known : List String)
  | unexpected (found : Found) (wanted : Wanted)
  deriving DecidableEq, Repr

/-- A name as messages show it. -/
def ticked (name : String) : String :=
  s!"`{name}`"

/-- How a message tells a reason. -/
def Reason.text : Reason → String
  | endInValue => "EOF while parsing a value"
  | endInList => "EOF while parsing a list"
  | endInObject => "EOF while parsing an object"
  | endInString => "EOF while parsing a string"
  | expectedValue => "expected value"
  | expectedColon => "expected `:`"
  | expectedComma => "expected `,` or `]`"
  | expectedWord => "expected ident"
  | trailingComma => "trailing comma"
  | trailingText => "trailing characters"
  | invalidEscape => "invalid escape"
  | controlCharacter => "control character (\\u0000-\\u001F) found while parsing a string"
  | loneSurrogate => "lone leading surrogate in hex escape"
  | cutSurrogate => "unexpected end of hex escape"
  | invalidNumber => "invalid number"
  | numberOutOfRange => "number out of range"
  | unknownName name known =>
    s!"unknown variant {ticked name}, expected one of " ++ ", ".intercalate (known.map ticked)
  | unexpected found wanted => s!"invalid type: {found.text}, expected {wanted.text}"

/-- A reason and the place where it shows. -/
structure Fault where
  reason : Reason
  place : Place
  deriving DecidableEq, Repr

/-- What is told about a fault. -/
def Fault.message (fault : Fault) : String :=
  s!"{fault.reason.text} at line {fault.place.line} column {fault.place.column}"

end Json

end TorqueScript
