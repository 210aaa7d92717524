import TorqueScript.Text.Hex
import TorqueScript.Text.Printable

/-!
# Quoted text

How listings show strings and characters: between quotes, with the common control characters as
letters behind a backslash and any other character that cannot be printed by its code.
-/

namespace TorqueScript

namespace Text

/-- One character between two `quote`s. -/
def showChar (quote c : Char) : List Char :=
  if c = '\x00' then ['\\', '0']
  else if c = '\t' then ['\\', 't']
  else if c = '\r' then ['\\', 'r']
  else if c = '\n' then ['\\', 'n']
  else if c = '\\' then ['\\', '\\']
  else if c = quote then ['\\', quote]
  else if isPrintable c then [c]
  else '\\' :: 'u' :: '\x7b' :: hexDigits c.toNat ++ ['\x7d']

/-- Characters between two `quote`s. -/
def shown (quote : Char) (cs : List Char) : String :=
  String.ofList (quote :: (cs.flatMap (showChar quote) ++ [quote]))

end Text

end TorqueScript
