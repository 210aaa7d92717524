/-!
# Hexadecimal text

Lower-case hexadecimal digits, for escapes.
-/

namespace TorqueScript

namespace Text

/-- The digit with a value below sixteen. -/
def hexDigit (n : Nat) : Char :=
  if n < 10 then Char.ofNat ('0'.toNat + n) else Char.ofNat ('a'.toNat + (n - 10))

/-- The last two hexadecimal digits of a number. -/
def hexPair (n : Nat) : List Char :=
  [hexDigit (n / 16 % 16), hexDigit (n % 16)]

/-- A number in hexadecimal digits, without leading zeros. -/
def hexDigits (n : Nat) : List Char :=
  Nat.toDigits 16 n

end Text

end TorqueScript
