/-!
# Rounding a quotient

Every conversion between binary and decimal numbers multiplies by powers of
two and ten (`twoPow`, `tenPow`) and ends in one step: a quotient of two
natural numbers is rounded to the nearest integer, and a quotient that lies
half way goes to the even one.

Main results: the rounded quotient is at most half a unit away
(`two_mul_roundDiv_le`, `le_two_mul_roundDiv`).
-/

namespace StochasticGrammar.Decimal

/-! ## Powers -/

/-- A power of two. -/
def twoPow (k : Nat) : Nat := Nat.pow 2 k

/-- A power of ten. -/
def tenPow (k : Nat) : Nat := Nat.pow 10 k

theorem twoPow_pos (k : Nat) : 0 < twoPow k := Nat.pow_pos (by decide)

/-! ## Rounding -/

/-- The integer nearest to `num / den`; of two equally near ones the even
one. -/
def roundDiv (num den : Nat) : Nat :=
  let floor := num / den
  let twice := 2 * (num % den)
  if twice < den then floor
  else if den < twice then floor + 1
  else floor + floor % 2

/-- The result exceeds the quotient by at most one half. -/
theorem two_mul_roundDiv_le (num : Nat) {den : Nat} (h : 0 < den) :
    2 * den * roundDiv num den ≤ 2 * num + den := by
  have hSplit := Nat.div_add_mod num den
  have hMod := Nat.mod_lt num h
  have hParity := Nat.mod_lt (num / den) (show 0 < 2 by decide)
  simp only [roundDiv]
  generalize num / den = q at *
  generalize num % den = r at *
  have hq : 2 * den * q + 2 * r = 2 * num := by
    rw [← hSplit, Nat.mul_add, Nat.mul_assoc]
  split
  · omega
  · split
    · rw [Nat.mul_add]; omega
    · rw [Nat.mul_add]
      have : 2 * den * (q % 2) ≤ 2 * den * 1 :=
        Nat.mul_le_mul_left _ (by omega)
      omega

/-- The result falls short of the quotient by at most one half. -/
theorem le_two_mul_roundDiv (num : Nat) {den : Nat} (h : 0 < den) :
    2 * num ≤ 2 * den * roundDiv num den + den := by
  have hSplit := Nat.div_add_mod num den
  have hMod := Nat.mod_lt num h
  simp only [roundDiv]
  generalize num / den = q at *
  generalize num % den = r at *
  have hq : 2 * den * q + 2 * r = 2 * num := by
    rw [← hSplit, Nat.mul_add, Nat.mul_assoc]
  split
  · omega
  · split
    · rw [Nat.mul_add]; omega
    · rw [Nat.mul_add]; omega

end StochasticGrammar.Decimal
