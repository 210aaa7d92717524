import TorqueScript.Error
import TorqueScript.Node
import TorqueScript.Text.Hex

/-!
# Literals

How constants are written in source. Strings stand between quotes, double for plain strings and
single for tagged ones; a backslash, the quote, control characters and the characters from code 127 to
255 are escaped, so that a literal is one line of text and ends at its only bare quote.
-/

namespace TorqueScript

namespace Source

/-- One character of a literal between two `quote`s. -/
def escapeChar (quote c : Char) : List Char :=
  if c = '\\' then ['\\', '\\']
  else if c = '\n' then ['\\', 'n']
  else if c = '\r' then ['\\', 'r']
  else if c = '\t' then ['\\', 't']
  else if c = quote then ['\\', c]
  else if c.toNat < 32 || (127 ≤ c.toNat && c.toNat < 256) then '\\' :: 'x' :: Text.hexPair c.toNat
  else [c]

/-- A string as a literal between two `quote`s. -/
def quoted (quote : Char) (s : String) : String :=
  String.ofList (quote :: (s.toList.flatMap (escapeChar quote) ++ [quote]))

/-- A constant as it is written in source. Numbers that are not finite have no literal. -/
def literal : Constant → Except Error String
  | .uint v => pure (toString v.toNat)
  | .float x => if x.isFinite then pure x.sourceText else throw (.nonFiniteFloat x)
  | .str s => pure (quoted '"' s)
  | .ident s => pure s
  | .tagged s => pure (quoted '\'' s)

/-- Letters and the underscore. -/
def isNameStart (c : Char) : Bool :=
  c.isAlpha || c == '_'

/-- Letters, digits and the underscore. -/
def isNamePart (c : Char) : Bool :=
  c.isAlphanum || c == '_'

/-- The text can stand for a name. -/
def isName (s : String) : Bool :=
  match s.toList with
  | [] => false
  | c :: cs => isNameStart c && cs.all isNamePart

/-- The text of a string constant that can be written without quotes. -/
def bareName? : Node → Option String
  | .constant c => c.text?.filter isName
  | _ => none

end Source

end TorqueScript
