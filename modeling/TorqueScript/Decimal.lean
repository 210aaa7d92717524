import TorqueScript.Binary64

/-!
# Shortest decimals

The decimal that stands for a floating point number is the one with the fewest digits among those
that read back as the number, and of these the nearest. In other words: among the grids of multiples
of `10 ^ p`, take the coarsest one with a point in the interval of reals that round to the number, and
of its points in the interval take the one nearest to the number. Only the number's two neighbours on
a grid need to be looked at, because the interval contains the number. When both neighbours are
equally near, a `Tie` says which one is meant.

All of this is exact arithmetic on natural numbers.
-/

namespace TorqueScript

/-- The number `digits · 10 ^ exponent`. -/
structure Decimal where
  digits : Nat
  exponent : Int
  deriving DecidableEq, Repr, Inhabited

namespace Decimal

/-- Which of two equally near neighbours to take. -/
inductive Tie where
  /-- The one whose last digit is even. -/
  | even
  /-- The one further from zero. -/
  | away
  deriving DecidableEq, Repr

/-- Moves trailing zeros of the digits into the exponent, at most `n` of them. -/
def trim : Nat → Decimal → Decimal
  | 0, d => d
  | n + 1, d => if d.digits ≠ 0 ∧ d.digits % 10 = 0 then trim n ⟨d.digits / 10, d.exponent + 1⟩ else d

/-- The fraction `a · 2 ^ q / 10 ^ p` as numerator and denominator. -/
def scaled (a : Nat) (q p : Int) : Nat × Nat :=
  ((a <<< q.toNat) * Nat.pow 10 (-p).toNat, (1 <<< (-q).toNat) * Nat.pow 10 p.toNat)

/-- The reals that round to a floating point number, as bounds in quarter units: `low` and `high`
times `2 ^ (exponent - 2)`. The bounds belong to the interval if `closed`. -/
structure Rounding where
  low : Nat
  value : Nat
  high : Nat
  exponent : Int
  closed : Bool

/-- The interval of reals that round to `x`, for `x` finite and not zero. -/
def Rounding.of (x : Binary64) : Rounding where
  low := 4 * x.significand - (if x.isLowerEdge then 1 else 2)
  value := 4 * x.significand
  high := 4 * x.significand + 2
  exponent := x.exponent - 2
  closed := x.significand % 2 == 0

/-- `n · 10 ^ p` lies in the interval. -/
def Rounding.contains (r : Rounding) (n : Nat) (p : Int) : Bool :=
  let (lowNum, den) := scaled r.low r.exponent p
  let (highNum, _) := scaled r.high r.exponent p
  if r.closed then lowNum ≤ n * den && n * den ≤ highNum else lowNum < n * den && n * den < highNum

/-- The point of the grid of multiples of `10 ^ p` that is nearest to the number and in the interval,
if there is one. -/
def Rounding.onGrid? (r : Rounding) (tie : Tie) (p : Int) : Option Nat :=
  let (num, den) := scaled r.value r.exponent p
  let below := num / den
  let above := below + 1
  match r.contains below p, r.contains above p with
  | false, false => none
  | true, false => some below
  | false, true => some above
  | true, true =>
    let twice := 2 * (num - below * den)
    if twice < den then some below
    else if den < twice then some above
    else match tie with
      | .even => some (if below % 2 = 0 then below else above)
      | .away => some above

/-- Tries the grids `10 ^ p`, `10 ^ (p - 1)`, … in turn. -/
def Rounding.coarsest (r : Rounding) (tie : Tie) : Nat → Int → Decimal
  | 0, p => ⟨(scaled r.value r.exponent p).1 / (scaled r.value r.exponent p).2, p⟩
  | n + 1, p =>
    match r.onGrid? tie p with
    | some d => ⟨d, p⟩
    | none => r.coarsest tie n (p - 1)

/-- The decimal for the absolute value of a finite number. Seventeen digits are always enough, and the
first grid tried is coarser than the number by at most two places. -/
def shortest (tie : Tie) (x : Binary64) : Decimal :=
  if x.significand = 0 then ⟨0, 0⟩
  else
    let magnitude : Int := (Nat.log2 x.significand : Int) + 1 + x.exponent
    trim 2 ((Rounding.of x).coarsest tie 20 (magnitude * 30103 / 100000 + 1))

end Decimal

end TorqueScript
