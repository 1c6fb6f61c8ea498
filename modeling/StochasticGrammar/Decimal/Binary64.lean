import StochasticGrammar.Decimal.Rounding

/-!
# The numbers behind binary64 words

Probabilities are binary64 numbers. Writing and reading them exactly needs the
rational number that a word stands for, and the word nearest to a rational
number. Both directions work on the bits with natural numbers only, so that
no rounding of the machine takes part.

A finite nonnegative number is `mantissa * 2 ^ exponent` with
`mantissa < 2 ^ 53` and `-1074 ≤ exponent`; the bits of its magnitude are
`(exponent + 1074) * 2 ^ 52 + mantissa`, for normal and subnormal numbers
alike, which is why rounding up to the next power of two needs no special
case.
-/

namespace StochasticGrammar.Decimal

/-- What a binary64 word stands for. -/
inductive Binary64 where
  /-- Not a number. -/
  | nan
  /-- An infinity. -/
  | infinite (negative : Bool)
  /-- The number `mantissa * 2 ^ exponent`, or its negation. -/
  | finite (negative : Bool) (mantissa : Nat) (exponent : Int)
  deriving DecidableEq, Repr

namespace Binary64

/-- Reads the fields of a word. -/
def ofBits (bits : Nat) : Binary64 :=
  let negative := bits / twoPow 63 % 2 == 1
  let field : Nat := bits / twoPow 52 % twoPow 11
  let fraction : Nat := bits % twoPow 52
  if field = 2047 then
    if fraction = 0 then .infinite negative else .nan
  else if field = 0 then .finite negative fraction (-1074)
  else .finite negative (twoPow 52 + fraction) ((field : Int) - 1075)

/-- What a floating-point number stands for. -/
def ofFloat (x : Float) : Binary64 := ofBits x.toBits.toNat

/-- The bits of positive infinity. -/
def infinityBits : Nat := 2047 * twoPow 52

/-- The bits of the magnitude nearest to `num / den`, ties to even; a quotient
beyond the largest number gives infinity. -/
def nearestBits (num den : Nat) : Nat :=
  if num = 0 then 0
  else
    -- `2 ^ (scale + 52)` is at most twice and more than half the quotient
    let scale : Int := (num.log2 : Int) - den.log2 - 52
    let fits (e : Int) : Bool :=
      den * twoPow (e + 52).toNat ≤ num * twoPow (-(e + 52)).toNat
    let exponent := max (if fits scale then scale else scale - 1) (-1074)
    let mantissa :=
      roundDiv (num * twoPow (-exponent).toNat) (den * twoPow exponent.toNat)
    min ((exponent + 1074).toNat * twoPow 52 + mantissa) infinityBits

/-- The floating-point number nearest to `num / den`, or its negation. -/
def nearest (negative : Bool) (num den : Nat) : Float :=
  let magnitude := nearestBits num den
  Float.ofBits (UInt64.ofNat
    (if negative then twoPow 63 + magnitude else magnitude))

/-- A positive infinity. -/
def infinity : Float := Float.ofBits (UInt64.ofNat infinityBits)

/-- The canonical word that is not a number. -/
def notANumber : Float := Float.ofBits (UInt64.ofNat (infinityBits + twoPow 51))

/-- The numerator of `mantissa * 2 ^ exponent`. -/
def numerator (mantissa : Nat) (exponent : Int) : Nat :=
  mantissa * twoPow exponent.toNat

/-- The denominator of `mantissa * 2 ^ exponent`. -/
def denominator (exponent : Int) : Nat := twoPow (-exponent).toNat

end Binary64

end StochasticGrammar.Decimal
