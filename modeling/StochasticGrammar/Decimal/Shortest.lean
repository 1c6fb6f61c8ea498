import StochasticGrammar.Decimal.Binary64
import StochasticGrammar.Text.Digit

/-!
# The shortest decimal that reads back

A binary64 number is written with the fewest significant digits that read back
as the same number; of the decimals with that many digits the nearest one is
taken, and of two equally near ones the one that ends in an even digit.

All decimals that read back lie in an interval around the number, whose ends
are half way to its neighbours. For 1, 2, … 17 digits the two decimals next
to the number are tried; the first that lies in the interval is the answer.
Seventeen digits always suffice.

The digits are laid out positionally if the decimal exponent is from -4 to 15,
and with an exponent otherwise.
-/

namespace StochasticGrammar.Decimal

/-- The decimal `0.d₁d₂… × 10 ^ point` of a row of digits. -/
structure Digits where
  /-- The significant digits. -/
  digits : List Nat
  /-- How many digits stand before the point. -/
  point : Int
  deriving DecidableEq, Repr

/-- The exponent `k` with `10 ^ (k - 1) ≤ num / den < 10 ^ k`, searched upwards
from an estimate that is not too large. -/
def decimalPoint (num den : Nat) : Int :=
  let below (k : Int) : Bool :=
    num * tenPow (-k).toNat < den * tenPow k.toNat
  let estimate : Int :=
    (((num.log2 : Int) - den.log2 - 1) * 30103).fdiv 100000
  let candidates : List Int :=
    (List.range 5).map fun (j : Nat) => estimate + j
  (candidates.find? below).getD (estimate + 5)

/-- The decimals with `count` digits next to `num / den` that lie between
`low / den` and `high / den`, ends included if `closed`; the nearer one if both
do, in units of `10 ^ (point - count)`. -/
def nearestDecimal? (num den low high : Nat) (closed : Bool) (point : Int)
    (count : Nat) : Option Nat :=
  let unit := point - count
  let up (n : Nat) := n * tenPow (-unit).toNat
  let unitDen := den * tenPow unit.toNat
  let inside (d : Nat) : Bool :=
    if closed then up low ≤ d * unitDen && d * unitDen ≤ up high
    else up low < d * unitDen && d * unitDen < up high
  let floor := up num / unitDen
  let nearest := roundDiv (up num) unitDen
  let other := if nearest = floor then floor + 1 else floor
  if inside nearest then some nearest
  else if inside other then some other
  else none

/-- The shortest digits of the positive number `mantissa * 2 ^ exponent`. -/
def shortestDigits (mantissa : Nat) (exponent : Int) : Digits :=
  -- four times the number, so that the ends of the interval are integers
  let quarter := exponent - 2
  let den := Binary64.denominator quarter
  let scaled (m : Nat) := Binary64.numerator m quarter
  let belowGap := if mantissa = twoPow 52 && exponent != -1074 then 1 else 2
  let num := scaled (4 * mantissa)
  let low := scaled (4 * mantissa - belowGap)
  let high := scaled (4 * mantissa + 2)
  let point := decimalPoint num den
  let closed := mantissa % 2 == 0
  let found := (List.range 17).findSome? fun k =>
    (nearestDecimal? num den low high closed point (k + 1)).map fun d =>
      (d, k + 1)
  let (value, count) := found.getD (0, 1)
  let row := Text.natDigits value
  -- rounding up may have carried into a new digit
  let shift : Int := row.length - count
  ⟨(row.reverse.dropWhile (· == 0)).reverse, point + shift⟩

/-! ## Layout -/

/-- A row of digits as text. -/
def digitsText (digits : List Nat) : List Char := digits.map Text.digitChar

/-- Digits without an exponent: padded with zeros on either side of the point
as needed, and always with a digit after it. -/
def positional (d : Digits) : List Char :=
  let n := d.digits.length
  if d.point ≤ 0 then
    "0.".toList ++ List.replicate (-d.point).toNat '0' ++ digitsText d.digits
  else
    let k := d.point.toNat
    if n ≤ k then
      digitsText d.digits ++ List.replicate (k - n) '0' ++ ".0".toList
    else
      digitsText (d.digits.take k) ++ '.' :: digitsText (d.digits.drop k)

/-- An exponent with its sign and at least two digits. -/
def exponentText (e : Int) : List Char :=
  let row := Text.writeNat e.natAbs
  (if e < 0 then '-' else '+') ::
    (if row.length < 2 then '0' :: row else row)

/-- Digits with one digit before the point and an exponent. -/
def scientific (d : Digits) : List Char :=
  let lead := digitsText (d.digits.take 1)
  let rest := digitsText (d.digits.drop 1)
  lead ++ (if rest.isEmpty then [] else '.' :: rest) ++
    'e' :: exponentText (d.point - 1)

/-- Whether a decimal exponent is written out positionally. -/
def isPositional (exponent : Int) : Bool := -4 ≤ exponent && exponent < 16

/-- The text of a positive finite number. -/
def magnitudeText (mantissa : Nat) (exponent : Int) : List Char :=
  if mantissa = 0 then "0.0".toList
  else
    let d := shortestDigits mantissa exponent
    if isPositional (d.point - 1) then positional d else scientific d

/-- The text of what a binary64 word stands for. -/
def Binary64.text : Binary64 → List Char
  | .nan => "nan".toList
  | .infinite negative => (if negative then "-inf" else "inf").toList
  | .finite negative mantissa exponent =>
    (if negative then ['-'] else []) ++ magnitudeText mantissa exponent

/-- The shortest text of a floating-point number that reads back. -/
def floatText (x : Float) : List Char := (Binary64.ofFloat x).text

end StochasticGrammar.Decimal
