/-!
# Sixty-four bit floating point numbers

A `Binary64` is a floating point number given by its bits. Two of them are equal when their bits are,
so a NaN equals itself and the two zeros differ. A finite number is a sign, a significand `m` and an
exponent `q`, and stands for `± m · 2 ^ q`; `Binary64.significand` and `Binary64.exponent` read them
off.
-/

namespace TorqueScript

/-- A floating point number, given by its sixty-four bits. -/
structure Binary64 where
  bits : UInt64
  deriving DecidableEq, Repr, Inhabited

namespace Binary64

/-- The eleven bits that hold the biased exponent. -/
def exponentField (x : Binary64) : Nat :=
  (x.bits.toNat >>> 52) % (1 <<< 11)

/-- The fifty-two bits below the exponent. -/
def fraction (x : Binary64) : Nat :=
  x.bits.toNat % (1 <<< 52)

/-- The sign bit is set. -/
def isNegative (x : Binary64) : Bool :=
  x.bits.toNat >>> 63 == 1

/-- The number is neither infinite nor a NaN. -/
def isFinite (x : Binary64) : Bool :=
  x.exponentField != 2047

/-- The bits stand for no number. -/
def isNaN (x : Binary64) : Bool :=
  x.exponentField == 2047 && x.fraction != 0

/-- The number is one of the two zeros. -/
def isZero (x : Binary64) : Bool :=
  x.exponentField == 0 && x.fraction == 0

/-- The number is less than zero. Negative zero and NaNs are not. -/
def isBelowZero (x : Binary64) : Bool :=
  x.isNegative && !x.isZero && !x.isNaN

/-- The number one. -/
def one : Binary64 := ⟨0x3ff0000000000000⟩

/-- A finite number is `± significand · 2 ^ exponent`. -/
def significand (x : Binary64) : Nat :=
  if x.exponentField = 0 then x.fraction else (1 <<< 52) + x.fraction

/-- A finite number is `± significand · 2 ^ exponent`. -/
def exponent (x : Binary64) : Int :=
  if x.exponentField = 0 then -1074 else (x.exponentField : Int) - 1075

/-- The number below is half as far away as the number above: the significand is the least with its
exponent, and the exponent is not the least there is. -/
def isLowerEdge (x : Binary64) : Bool :=
  x.fraction == 0 && x.exponentField > 1

end Binary64

end TorqueScript
