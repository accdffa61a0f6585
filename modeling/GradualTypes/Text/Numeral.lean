import GradualTypes.Double.Basic
import GradualTypes.Text.Blank

/-!
# Numerals in strings

A string used as a number is read after its blank ends are removed.  It is an
integer numeral if it is an optionally signed run of digits whose value is a
64-bit signed integer; otherwise it is a decimal numeral if it is an optionally
signed decimal, with an optional point and exponent, whose value rounds to a
finite double.  Names of infinities and of "not a number" are no numerals.
-/

namespace GradualTypes
namespace Text

inductive Numeral where
  | integer
  | decimal
deriving DecidableEq, Repr

namespace Numeral

def sign : List Char -> Bool × List Char
  | '-' :: rest => (true, rest)
  | '+' :: rest => (false, rest)
  | cs => (false, cs)

/-- The number whose last digit is `c` and whose other digits are those of `n`. -/
def snocDigit (n : Nat) (c : Char) : Nat :=
  10 * n + (c.toNat - '0'.toNat)

def natOfDigits (cs : List Char) : Nat :=
  cs.foldl snocDigit 0

/-- The value of an optionally signed, nonempty run of digits. -/
def integer? (cs : List Char) : Option Int :=
  let (negative, digits) := sign cs
  if digits.isEmpty || !digits.all Char.isDigit then
    none
  else if negative then
    some (-(natOfDigits digits : Int))
  else
    some (natOfDigits digits)

def isWord64 (n : Int) : Bool :=
  decide (-(Nat.pow 2 63 : Int) ≤ n) && decide (n < (Nat.pow 2 63 : Int))

/-- The value of an optional exponent, zero for an empty text. -/
def exponent? : List Char -> Option Int
  | [] => some 0
  | c :: rest => if c == 'e' || c == 'E' then integer? rest else none

/-- A mantissa and a power of ten whose product is the magnitude that the text
denotes. -/
def magnitude? (cs : List Char) : Option (Nat × Int) :=
  let body := (sign cs).2
  let whole := body.takeWhile Char.isDigit
  let afterWhole := body.dropWhile Char.isDigit
  let (fraction, afterFraction) :=
    match afterWhole with
    | '.' :: rest => (rest.takeWhile Char.isDigit, rest.dropWhile Char.isDigit)
    | rest => ([], rest)
  if whole.isEmpty && fraction.isEmpty then
    none
  else do
    let exponent ← exponent? afterFraction
    return (natOfDigits (whole ++ fraction), exponent - fraction.length)

/-- Whether `mantissa · 10 ^ exponent` rounds to a finite double.  The number of
digits decides all magnitudes outside `10 ^ 308 .. 10 ^ 309`. -/
def isFinite (mantissa : Nat) (exponent : Int) : Bool :=
  if mantissa = 0 then
    true
  else
    let top : Int := (Nat.toDigits 10 mantissa).length + exponent
    if top ≤ 308 then true
    else if 309 < top then false
    else if 0 ≤ exponent then
      decide (mantissa * Nat.pow 10 exponent.toNat < Double.overflowBound)
    else
      decide (mantissa < Double.overflowBound * Nat.pow 10 (-exponent).toNat)

def ofString? (s : String) : Option Numeral :=
  let cs := trim s.toList
  match integer? cs with
  | some n => if isWord64 n then some integer else finiteDecimal? cs
  | none => finiteDecimal? cs
where
  finiteDecimal? (cs : List Char) : Option Numeral := do
    let (mantissa, exponent) ← magnitude? cs
    if isFinite mantissa exponent then some decimal else none

end Numeral
end Text
end GradualTypes
