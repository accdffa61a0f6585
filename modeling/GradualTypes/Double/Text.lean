import GradualTypes.Double.Shortest

/-!
# Decimal text of doubles

Two notations of the shortest decimal: positional, and scientific with an
exponent.  `Double.literal` is the full text of a literal, which reads back as
the same number: positional, with at least one place after the point, from
`10 ^ -4` up to `10 ^ 16`, and scientific outside.  `Double.rounded` is the text
for messages: fourteen significant digits, always positional.
-/

namespace GradualTypes
namespace Decimal

/-- Digits with a point and no exponent; a whole number has no point. -/
def positional (d : Decimal) : String :=
  let text := toString d.digits
  if 0 ≤ d.exponent then
    text ++ String.ofList (List.replicate d.exponent.toNat '0')
  else
    let places := (-d.exponent).toNat
    let padded :=
      List.replicate (places + 1 - text.length) '0' ++ text.toList
    String.ofList (padded.take (padded.length - places)) ++ "." ++
      String.ofList (padded.drop (padded.length - places))

/-- One digit before the point, and an exponent. -/
def scientific (d : Decimal) : String :=
  let text := (toString d.digits).toList
  let fraction := if text.length ≤ 1 then "" else "." ++ String.ofList text.tail
  String.ofList (text.take 1) ++ fraction ++ "e" ++
    toString (d.exponent + (text.length - 1 : Nat))

def leadingPower (d : Decimal) : Int :=
  d.exponent + ((toString d.digits).length - 1 : Nat)

/-- Mark a text without a point as a double. -/
def withPoint (text : String) : String :=
  if text.contains '.' then text else text ++ ".0"

end Decimal

namespace Double

def signText (x : Double) : String :=
  if x.isNegative then "-" else ""

def literal (x : Double) : String :=
  if x.isNaN then "NaN"
  else if !x.isFinite then x.signText ++ "inf"
  else if x.magnitudeBits = 0 then x.signText ++ "0.0"
  else
    let d := x.shortest
    if -4 ≤ d.leadingPower ∧ d.leadingPower < 16 then
      x.signText ++ Decimal.withPoint d.positional
    else
      x.signText ++ d.scientific

/-!
# Fourteen significant digits
-/

/-- A power by repeated squaring from the lowest bit of the exponent up. -/
def powerNat (base : Float) (exponent : Nat) : Float :=
  go 1.0 base exponent
where
  go (result square : Float) (n : Nat) : Float :=
    if n = 0 then
      result
    else
      go (if n % 2 = 1 then result * square else result) (square * square) (n / 2)

/-- A power with an integer exponent, inverted at the end for a negative one. -/
def power (base : Float) (exponent : Int) : Float :=
  let result := powerNat base exponent.natAbs
  if exponent < 0 then 1.0 / result else result

/-- Round a finite double to fourteen significant digits; a value whose scale
leaves the range of doubles is kept. -/
def roundSignificant (value : Float) : Float :=
  if value == 0.0 then
    0.0
  else
    let magnitude := value.abs.log10.floor.toInt64.toInt
    let factor := power 10.0 (13 - magnitude)
    if !factor.isFinite || factor == 0.0 then
      value
    else
      let rounded := (value * factor).round / factor
      if rounded.isFinite then rounded else value

def rounded (x : Double) : String :=
  if x.isNaN then "NAN"
  else if !x.isFinite then x.signText ++ "INF"
  else
    let r := ofFloat (roundSignificant x.toFloat)
    if r.magnitudeBits = 0 then r.signText ++ "0.0"
    else r.signText ++ Decimal.withPoint r.shortest.positional

end Double
end GradualTypes
