import StochasticGrammar.Decimal.Binary64
import StochasticGrammar.Text.Digit

/-!
# Reading a floating-point number

A number is written as digits with an optional point and an optional exponent,
or as one of the words for infinity and not-a-number in any case. A sign and
blanks around the number are allowed, and single underscores between digits.

The decimal is rounded once, to the nearest binary64 number; what lies beyond
the largest one is infinite.
-/

namespace StochasticGrammar.Decimal

/-- An unsigned numeral: the decimal `mantissa * 10 ^ exponent`, or a word. -/
inductive Numeral where
  | nan
  | infinity
  | decimal (mantissa : Nat) (exponent : Int)
  deriving DecidableEq, Repr

/-- An ASCII letter in lower case; other characters stay. -/
def lowerAscii (c : Char) : Char :=
  if 'A' ≤ c && c ≤ 'Z' then Char.ofNat (c.toNat + 32) else c

/-- Digits or nothing. -/
def optionalDigits? (s : List Char) : Option (List Nat) :=
  if s.isEmpty then some [] else Text.digits? s

/-- The exponent after its letter: an optional sign and digits. -/
def readExponent? (s : List Char) : Option Int := do
  let (negative, body) := Text.takeSign s
  let digits ← Text.digits? body
  let value : Int := Text.digitsValue digits
  some (if negative then -value else value)

/-- Digits with an optional point among them; at least one digit. -/
def readSignificand? (s : List Char) : Option (List Nat × Nat) := do
  let whole ← optionalDigits? (s.takeWhile (· != '.'))
  let fraction ←
    match s.dropWhile (· != '.') with
    | [] => some []
    | _ :: rest => optionalDigits? rest
  if whole.isEmpty && fraction.isEmpty then none
  else some (whole ++ fraction, fraction.length)

/-- Reads an unsigned numeral. -/
def readNumeral? (s : List Char) : Option Numeral :=
  let word := s.map lowerAscii
  if word = "inf".toList || word = "infinity".toList then some .infinity
  else if word = "nan".toList then some .nan
  else do
    let isMark (c : Char) : Bool := c == 'e' || c == 'E'
    let (digits, places) ← readSignificand? (s.takeWhile (!isMark ·))
    let exponent ←
      match s.dropWhile (!isMark ·) with
      | [] => some 0
      | _ :: rest => readExponent? rest
    some (.decimal (Text.digitsValue digits) (exponent - places))

/-- The floating-point number nearest to a decimal. Exponents so far out that
the result is zero or infinite are settled without computing the power. -/
def nearestToDecimal (negative : Bool) (mantissa : Nat) (exponent : Int) :
    Float :=
  -- the decimal lies below `10 ^ (size + exponent)`
  let size : Int := mantissa.log2 / 3 + 1
  if mantissa = 0 || size + exponent < -400 then Binary64.nearest negative 0 1
  else if 400 < exponent then
    if negative then -Binary64.infinity else Binary64.infinity
  else
    Binary64.nearest negative (mantissa * tenPow exponent.toNat)
      (tenPow (-exponent).toNat)

/-- The floating-point number of a signed numeral. -/
def Numeral.toFloat (negative : Bool) : Numeral → Float
  | .nan => Binary64.notANumber
  | .infinity => if negative then -Binary64.infinity else Binary64.infinity
  | .decimal mantissa exponent => nearestToDecimal negative mantissa exponent

/-- Reads a floating-point number. -/
def readFloat? (s : List Char) : Option Float :=
  let (negative, body) := Text.takeSign (Text.trimPadding s)
  (readNumeral? body).map (Numeral.toFloat negative)

end StochasticGrammar.Decimal
