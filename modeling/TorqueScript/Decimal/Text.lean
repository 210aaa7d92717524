import TorqueScript.Decimal

/-!
# Number text

Two texts of a floating point number, both from its shortest decimal. Source text and listings never
use an exponent (`Binary64.sourceText`); serialized trees use one outside a range of magnitudes
(`Binary64.jsonText`).
-/

namespace TorqueScript

namespace Decimal

/-- The digits as characters, most significant first. -/
def digitChars (d : Decimal) : List Char :=
  Nat.toDigits 10 d.digits

/-- The power of ten of the first digit. -/
def magnitude (d : Decimal) : Int :=
  d.exponent + d.digitChars.length - 1

/-- Positional notation; `whole` is written after a number without decimals. -/
def positional (whole : String) (d : Decimal) : String :=
  let ds := d.digitChars
  if 0 ≤ d.exponent then
    String.ofList (ds ++ List.replicate d.exponent.toNat '0') ++ whole
  else if 0 ≤ d.magnitude then
    let n := d.magnitude.toNat + 1
    String.ofList (ds.take n ++ '.' :: ds.drop n)
  else
    String.ofList ('0' :: '.' :: List.replicate (-d.magnitude - 1).toNat '0' ++ ds)

/-- One digit, the others as decimals, and a signed power of ten. -/
def scientific (d : Decimal) : String :=
  let mantissa := match d.digitChars with
    | [] => []
    | [c] => [c]
    | c :: cs => c :: '.' :: cs
  let sign := if d.magnitude < 0 then "-" else "+"
  String.ofList mantissa ++ "e" ++ sign ++ String.ofList (Nat.toDigits 10 d.magnitude.natAbs)

end Decimal

namespace Binary64

/-- The text of a number in source, listings and messages: positional, a tie going away from zero. -/
def sourceText (x : Binary64) : String :=
  if x.isNaN then "NaN"
  else
    let sign := if x.isNegative then "-" else ""
    sign ++ if x.isFinite then (Decimal.shortest .away x).positional "" else "inf"

/-- The text of a number in a serialized tree: positional from `10 ^ -5` up to `10 ^ 16`, a tie going to
the even digit. What is not a number there is `null`. -/
def jsonText (x : Binary64) : String :=
  if x.isFinite then
    let d := Decimal.shortest .even x
    let sign := if x.isNegative then "-" else ""
    sign ++ if -5 ≤ d.magnitude && d.magnitude ≤ 15 then d.positional ".0" else d.scientific
  else "null"

end Binary64

end TorqueScript
