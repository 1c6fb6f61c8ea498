import StochasticGrammar.Decimal.Shortest

/-!
# A given number of digits

Numbers are shown to the user with a given number of decimals (`fixedText`) or
of significant digits (`generalText`). Both round the exact value, ties to
even. `generalText` drops the zeros at the end of the fraction and moves to an
exponent for very large and very small numbers.
-/

namespace StochasticGrammar.Decimal

/-- A number of units of the last of `places` decimals, as text. -/
def placesText (places units : Nat) : List Char :=
  let row := Text.writeNat units
  let padded := List.replicate (places + 1 - row.length) '0' ++ row
  let whole := padded.take (padded.length - places)
  if places = 0 then whole
  else whole ++ '.' :: padded.drop (padded.length - places)

/-- Drops what `p` accepts from the end of a text. -/
def dropRightWhile (p : Char → Bool) (s : List Char) : List Char :=
  (s.reverse.dropWhile p).reverse

/-- A nonnegative quotient rounded to a number of decimals. -/
def quotientFixed (places num den : Nat) : List Char :=
  placesText places (roundDiv (num * tenPow places) den)

/-- A positive quotient rounded to `precision ≥ 1` significant digits. -/
def quotientDigits (precision num den : Nat) : Digits :=
  let point := decimalPoint num den
  let unit := point - precision
  let value :=
    roundDiv (num * tenPow (-unit).toNat) (den * tenPow unit.toNat)
  let row := Text.natDigits value
  let shift : Int := row.length - precision
  ⟨row.take precision, point + shift⟩

/-- A nonnegative quotient rounded to `precision` significant digits, without
zeros at the end of the fraction. -/
def quotientGeneral (precision num den : Nat) : List Char :=
  if num = 0 then ['0']
  else
    let d := quotientDigits precision num den
    let exponent := d.point - 1
    let kept := (d.digits.reverse.dropWhile (· == 0)).reverse
    if -4 ≤ exponent && exponent < precision then
      let text := positional ⟨kept, d.point⟩
      if kept.length ≤ d.point.toNat then text.take (text.length - 2) else text
    else scientific ⟨kept, d.point⟩

/-- The text of a word, given the text of its magnitude as a quotient. -/
def Binary64.signedText (magnitude : Nat → Nat → List Char) :
    Binary64 → List Char
  | .nan => "nan".toList
  | .infinite negative => (if negative then "-inf" else "inf").toList
  | .finite negative mantissa exponent =>
    (if negative then ['-'] else []) ++
      magnitude (numerator mantissa exponent) (denominator exponent)

/-- A number with a given number of decimals. -/
def fixedText (places : Nat) (x : Float) : List Char :=
  (Binary64.ofFloat x).signedText (quotientFixed places)

/-- A number with a given number of significant digits. -/
def generalText (precision : Nat) (x : Float) : List Char :=
  (Binary64.ofFloat x).signedText (quotientGeneral precision)

end StochasticGrammar.Decimal
