import TorqueScript.Decimal.Text
import TorqueScript.Text.Hex

/-!
# JSON text

Values with the fields of an object in a fixed order, and their two texts: `Json.compact` without any
blanks and `Json.pretty` with one item on a line.
-/

namespace TorqueScript

/-- A JSON value. The fields of an object keep their order. -/
inductive Json where
  | null
  | bool (value : Bool)
  | nat (value : Nat)
  | float (value : Binary64)
  | str (value : String)
  | list (items : List Json)
  | object (fields : List (String × Json))
  deriving Repr, Inhabited

namespace Json

/-- One character of a string. Only the quote, the backslash and control characters are escaped. -/
def escapeChar (c : Char) : List Char :=
  if c = '"' then ['\\', '"']
  else if c = '\\' then ['\\', '\\']
  else if c = '\x08' then ['\\', 'b']
  else if c = '\t' then ['\\', 't']
  else if c = '\n' then ['\\', 'n']
  else if c = '\x0c' then ['\\', 'f']
  else if c = '\r' then ['\\', 'r']
  else if c.toNat < 32 then ['\\', 'u', '0', '0'] ++ Text.hexPair c.toNat
  else [c]

/-- A string between quotes. -/
def quoted (s : String) : String :=
  String.ofList ('"' :: (s.toList.flatMap escapeChar ++ ['"']))

/-- The text of a value that is neither a list nor an object. -/
def scalar : Json → String
  | null => "null"
  | bool true => "true"
  | bool false => "false"
  | nat n => toString n
  | float x => x.jsonText
  | str s => quoted s
  | list _ | object _ => ""

mutual

/-- The text without blanks. -/
def compact : Json → String
  | list items => "[" ++ compactItems items ++ "]"
  | object fields => "\x7b" ++ compactFields fields ++ "\x7d"
  | v => v.scalar

/-- Items separated by commas. -/
def compactItems : List Json → String
  | [] => ""
  | [v] => compact v
  | v :: vs => compact v ++ "," ++ compactItems vs

/-- Fields separated by commas. -/
def compactFields : List (String × Json) → String
  | [] => ""
  | [(k, v)] => quoted k ++ ":" ++ compact v
  | (k, v) :: fs => quoted k ++ ":" ++ compact v ++ "," ++ compactFields fs

end

/-- The end of a line and the indentation of the next. -/
def newLine (depth : Nat) : String :=
  "\n" ++ String.join (List.replicate depth "  ")

mutual

/-- The text with one item on a line, inside `depth` brackets. -/
def prettyAt (depth : Nat) : Json → String
  | list [] => "[]"
  | list items => "[" ++ prettyItems (depth + 1) items ++ newLine depth ++ "]"
  | object [] => "\x7b\x7d"
  | object fields => "\x7b" ++ prettyFields (depth + 1) fields ++ newLine depth ++ "\x7d"
  | v => v.scalar

/-- Items, each on a line of its own. -/
def prettyItems (depth : Nat) : List Json → String
  | [] => ""
  | [v] => newLine depth ++ prettyAt depth v
  | v :: vs => newLine depth ++ prettyAt depth v ++ "," ++ prettyItems depth vs

/-- Fields, each on a line of its own. -/
def prettyFields (depth : Nat) : List (String × Json) → String
  | [] => ""
  | [(k, v)] => newLine depth ++ quoted k ++ ": " ++ prettyAt depth v
  | (k, v) :: fs => newLine depth ++ quoted k ++ ": " ++ prettyAt depth v ++ "," ++ prettyFields depth fs

end

/-- The text with one item on a line. -/
def pretty (v : Json) : String :=
  v.prettyAt 0

/-- A string that may be missing. -/
def ofString? : Option String → Json
  | some s => str s
  | none => null

end Json

end TorqueScript
