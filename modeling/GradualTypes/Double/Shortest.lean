import GradualTypes.Double.Basic

/-!
# Shortest decimals

The shortest decimal of a finite nonzero double is found on grids of one, two,
three and more significant digits.  On each grid only the two neighbours of the
value matter; the first grid with a neighbour in the interval of the reals that
round to the double gives the digits.  Of two such neighbours the nearer one is
taken, and the upper one of two that are equally near.

All of it is exact arithmetic of natural numbers.
-/

namespace GradualTypes

/-- The value `digits · 10 ^ exponent`. -/
structure Decimal where
  digits : Nat
  exponent : Int
deriving DecidableEq, Repr

namespace Double

/-- The reals that round to a double, as fractions over one denominator. -/
structure Rounding where
  lower : Nat
  value : Nat
  upper : Nat
  denominator : Nat
  /-- Whether the two ends belong to the interval. -/
  closed : Bool

/-- The rounding interval of a finite nonzero magnitude.  Below a power of two
the neighbour is only half as far away as above it. -/
def rounding (x : Double) : Rounding :=
  let gap := if x.mantissa = Nat.pow 2 52 then 1 else 2
  let unit := Nat.pow 2 (x.scale - 2).toNat
  { lower := (4 * x.mantissa - gap) * unit
    value := 4 * x.mantissa * unit
    upper := (4 * x.mantissa + 2) * unit
    denominator := Nat.pow 2 (2 - x.scale).toNat
    closed := x.mantissa % 2 = 0 }

namespace Rounding

def inUnitsOf (r : Rounding) (exponent : Int) : Rounding :=
  let up := Nat.pow 10 (-exponent).toNat
  { r with
    lower := r.lower * up
    value := r.value * up
    upper := r.upper * up
    denominator := r.denominator * Nat.pow 10 exponent.toNat }

def contains (r : Rounding) (n : Nat) : Bool :=
  let scaled := n * r.denominator
  if r.closed then decide (r.lower ≤ scaled) && decide (scaled ≤ r.upper)
  else decide (r.lower < scaled) && decide (scaled < r.upper)

/-- The integer in the interval that is nearest to the value among its two
neighbours, the upper one if both are equally near. -/
def nearest? (r : Rounding) : Option Nat :=
  let below := r.value / r.denominator
  let above := below + 1
  match r.contains below, r.contains above with
  | true, true =>
      if above * r.denominator - r.value ≤ r.value - below * r.denominator then
        some above
      else
        some below
  | true, false => some below
  | false, true => some above
  | false, false => none

/-- The power of ten just above the value.  The value of a double is at least
`10 ^ -324`, so its product with `10 ^ 330` has an integer part. -/
def magnitude (r : Rounding) : Int :=
  (Nat.toDigits 10 (r.value * Nat.pow 10 330 / r.denominator)).length - (330 : Int)

/-- The hit on the grid with the given number of significant digits. -/
def onGrid? (r : Rounding) (top : Int) (count : Nat) : Option Decimal :=
  let exponent := top - count
  (r.inUnitsOf exponent).nearest?.map fun n => ⟨n, exponent⟩

end Rounding

/-- The shortest decimal that rounds to the magnitude of a finite double. -/
def shortest (x : Double) : Decimal :=
  let r := x.rounding
  let top := r.magnitude
  let hit := ((List.range 17).findSome? fun i => r.onGrid? top (i + 1)).getD ⟨0, 0⟩
  if hit.digits = 10 then ⟨1, hit.exponent + 1⟩ else hit

end Double
end GradualTypes
