/-!
# Doubles by their bits

A double is kept as its 64 bits, so that every payload and both zeros are
distinct values.  This module splits the bits into sign, exponent and fraction,
gives the total order in which the negative values come first and zeros and
payloads are told apart, and rounds natural numbers to doubles.
-/

namespace GradualTypes

structure Double where
  bits : UInt64
deriving DecidableEq, Hashable, Repr, Inhabited

namespace Double

def isNegative (x : Double) : Bool :=
  decide (Nat.pow 2 63 ≤ x.bits.toNat)

def magnitudeBits (x : Double) : Nat :=
  x.bits.toNat % Nat.pow 2 63

def exponentBits (x : Double) : Nat :=
  x.magnitudeBits / Nat.pow 2 52

def fractionBits (x : Double) : Nat :=
  x.bits.toNat % Nat.pow 2 52

def isFinite (x : Double) : Bool :=
  x.exponentBits != 2047

def isNaN (x : Double) : Bool :=
  x.exponentBits == 2047 && x.fractionBits != 0

/-- The place of a double in the total order: the magnitude of a positive one,
and one less than the negated magnitude of a negative one. -/
def orderKey (x : Double) : Int :=
  if x.isNegative then -(x.magnitudeBits : Int) - 1 else x.magnitudeBits

def compare (x y : Double) : Ordering :=
  Ord.compare x.orderKey y.orderKey

/-- The integer `m` in the value `m · 2 ^ q` of a finite double. -/
def mantissa (x : Double) : Nat :=
  if x.exponentBits = 0 then x.fractionBits else Nat.pow 2 52 + x.fractionBits

/-- The power `q` in the value `m · 2 ^ q` of a finite double. -/
def scale (x : Double) : Int :=
  (max x.exponentBits 1 : Int) - 1075

/-- The least magnitude that rounds to infinity: half a unit in the last place
above the greatest double. -/
def overflowBound : Nat :=
  Nat.pow 2 1024 - Nat.pow 2 970

/-- The nearest natural number of at most 53 significant bits; of two that are
equally near, the one whose significant bits are even. -/
def roundNat (n : Nat) : Nat :=
  let unit := Nat.pow 2 (n.log2 - 52)
  let significant := n / unit
  let excess := 2 * (n % unit)
  if excess < unit ∨ (excess = unit ∧ significant % 2 = 0) then significant * unit
  else (significant + 1) * unit

def toFloat (x : Double) : Float :=
  Float.ofBits x.bits

def ofFloat (f : Float) : Double :=
  ⟨f.toBits⟩

end Double
end GradualTypes
