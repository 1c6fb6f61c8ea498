import Mathlib.Algebra.Order.Field.Basic
import Mathlib.Algebra.Order.Ring.Abs
import Mathlib.Data.List.TakeWhile
import Mathlib.Data.Rat.Cast.Order
import Mathlib.Tactic.FieldSimp
import Mathlib.Tactic.Linarith
import Mathlib.Tactic.Ring
import StochasticGrammar.Decimal.Reading
import StochasticGrammar.Proofs.Text.Integer

/-!
# Exact values of words and texts

A finite word stands for a rational number, and so does a text of digits with a
point among them.  A quotient is rounded to the nearest integer, and between two
to the even one, which leaves no choice.

Main results: `RoundsTo.unique`, `roundsTo_roundDiv`, and the value of a text
that is written digit by digit (`exactValue?_pointedText`).
-/

namespace StochasticGrammar.Decimal

open Text

/-! ## Nearest integers -/

/-- An integer nearest to a rational number, and the even one of two. -/
structure RoundsTo (q : ℚ) (n : ℤ) : Prop where
  near : |q - n| ≤ 1 / 2
  even_of_tie : |q - n| = 1 / 2 → Even n

theorem RoundsTo.neg {q : ℚ} {n : ℤ} (h : RoundsTo q n) :
    RoundsTo (-q) (-n) := by
  have hAbs : |-q - ((-n : ℤ) : ℚ)| = |q - n| := by
    rw [← abs_neg]
    congr 1
    push_cast
    ring
  exact ⟨hAbs ▸ h.near, fun hTie => (h.even_of_tie (hAbs ▸ hTie)).neg⟩

/-- The nearest integer lies above no other one. -/
theorem RoundsTo.le {q : ℚ} {m n : ℤ} (hm : RoundsTo q m)
    (hn : RoundsTo q n) : m ≤ n := by
  by_contra hLt
  have hNear := abs_le.1 hm.near
  have hNear' := abs_le.1 hn.near
  have hNext : m = n + 1 := by
    have hUpper : (m : ℚ) ≤ n + 1 := by linarith [hNear.1, hNear'.2]
    have hUpper' : m ≤ n + 1 := by exact_mod_cast hUpper
    omega
  -- both are half a unit away, so both are even
  have hm' : q - m = -(1 / 2) := by
    subst hNext
    push_cast at hNear ⊢
    linarith [hNear.1, hNear'.2]
  have hn' : q - n = 1 / 2 := by
    subst hNext
    push_cast at hNear
    linarith [hNear.1, hNear'.2]
  obtain ⟨a, ha⟩ := hm.even_of_tie (by rw [hm', abs_neg]; norm_num)
  obtain ⟨b, hb⟩ := hn.even_of_tie (by rw [hn']; norm_num)
  omega

theorem RoundsTo.unique {q : ℚ} {m n : ℤ} (hm : RoundsTo q m)
    (hn : RoundsTo q n) : m = n :=
  le_antisymm (hm.le hn) (hn.le hm)

/-- A quotient half way between two integers goes to the even one. -/
theorem even_roundDiv {num den : Nat} (h : 0 < den)
    (hTie : 2 * num + den = 2 * den * roundDiv num den ∨
      2 * num = 2 * den * roundDiv num den + den) :
    Even (roundDiv num den) := by
  have hSplit := Nat.div_add_mod num den
  have hMod := Nat.mod_lt num h
  simp only [roundDiv] at hTie ⊢
  generalize num / den = q at *
  generalize num % den = r at *
  have hq : 2 * den * q + 2 * r = 2 * num := by
    rw [← hSplit, Nat.mul_add, Nat.mul_assoc]
  split
  · rename_i hLow
    rw [if_pos hLow] at hTie
    omega
  · rename_i hLow
    rw [if_neg hLow] at hTie
    split
    · rename_i hHigh
      rw [if_pos hHigh, Nat.mul_add] at hTie
      omega
    · rw [Nat.even_iff]
      omega

theorem roundsTo_roundDiv (num : Nat) {den : Nat} (h : 0 < den) :
    RoundsTo (num / den) (roundDiv num den) := by
  have hDen : (0 : ℚ) < den := by exact_mod_cast h
  have hUpper : (2 * den * roundDiv num den : ℚ) ≤ 2 * num + den := by
    exact_mod_cast two_mul_roundDiv_le num h
  have hLower : (2 * num : ℚ) ≤ 2 * den * roundDiv num den + den := by
    exact_mod_cast le_two_mul_roundDiv num h
  have hDiff : (num / den : ℚ) - (roundDiv num den : ℤ) =
      (2 * num - 2 * den * roundDiv num den) / (2 * den) := by
    field_simp
    push_cast
    ring
  have hAbs : |(num / den : ℚ) - (roundDiv num den : ℤ)| =
      |(2 * num - 2 * den * roundDiv num den : ℚ)| / (2 * den) := by
    rw [hDiff, abs_div, abs_of_pos (by linarith : (0 : ℚ) < 2 * den)]
  constructor
  · rw [hAbs, div_le_iff₀ (by linarith)]
    exact abs_le.2 ⟨by linarith, by linarith⟩
  · intro hTie
    rw [hAbs, div_eq_iff (by linarith)] at hTie
    have hEnds : (2 * num : ℚ) = 2 * den * roundDiv num den + den ∨
        (2 * num + den : ℚ) = 2 * den * roundDiv num den := by
      rcases eq_or_eq_neg_of_abs_eq hTie with hTie | hTie
      · exact .inl (by linarith)
      · exact .inr (by linarith)
    have hEven : Even (roundDiv num den) := by
      refine even_roundDiv h ?_
      rcases hEnds with hEnd | hEnd
      · exact .inr (by exact_mod_cast hEnd)
      · exact .inl (by exact_mod_cast hEnd)
    exact_mod_cast hEven

/-! ## Values of words -/

/-- A number or its negation. -/
def signed {α : Type} [Neg α] (negative : Bool) (x : α) : α :=
  if negative then -x else x

theorem signed_inj {α : Type} [InvolutiveNeg α] {negative : Bool} {x y : α} :
    signed negative x = signed negative y ↔ x = y := by
  cases negative <;> simp [signed]

theorem signed_eq_zero_iff {α : Type} [SubtractionMonoid α] {negative : Bool}
    {x : α} : signed negative x = 0 ↔ x = 0 := by
  cases negative <;> simp [signed]

theorem signed_mul {α : Type} [Mul α] [HasDistribNeg α] (negative : Bool)
    (x y : α) : signed negative (x * y) = signed negative x * y := by
  cases negative <;> simp [signed]

theorem cast_signed (negative : Bool) (i : ℤ) :
    ((signed negative i : ℤ) : ℚ) = signed negative (i : ℚ) := by
  cases negative <;> simp [signed]

theorem RoundsTo.signed {q : ℚ} {n : ℤ} (h : RoundsTo q n) (negative : Bool) :
    RoundsTo (signed negative q) (signed negative n) := by
  cases negative with
  | false => exact h
  | true => exact h.neg

/-- The fraction of a word is the number that its fields stand for. -/
theorem Binary64.numerator_div_denominator (mantissa : Nat) (exponent : Int) :
    (numerator mantissa exponent / denominator exponent : ℚ) =
      mantissa * 2 ^ exponent := by
  have hPow (k : Nat) : (twoPow k : ℚ) = 2 ^ k := by
    rw [twoPow, Nat.pow_eq]
    push_cast
    rfl
  rw [numerator, denominator]
  push_cast
  rw [hPow, hPow]
  rcases Int.le_total 0 exponent with hSign | hSign
  · obtain ⟨k, rfl⟩ := Int.eq_ofNat_of_zero_le hSign
    simp
  · obtain ⟨k, hk⟩ := Int.eq_ofNat_of_zero_le (Int.neg_nonneg.2 hSign)
    obtain rfl : exponent = -k := by omega
    simp [div_eq_mul_inv]

/-! ## Values of texts -/

/-- The rational number that a text is read as; a word stands for none. -/
def exactValue? (s : List Char) : Option ℚ :=
  match readNumeral? (takeSign (trimPadding s)).2 with
  | some (.decimal mantissa exponent) =>
    some (signed (takeSign (trimPadding s)).1 (mantissa * 10 ^ exponent))
  | _ => none

/-- Digits before a point and digits after it, without a point if there are none
after it. -/
def pointedText (whole fraction : List Nat) : List Char :=
  whole.map digitChar ++
    if fraction = [] then [] else '.' :: fraction.map digitChar

/-- What is written before a number. -/
def signText (negative : Bool) : List Char := if negative then ['-'] else []

theorem pointedText_nil (whole : List Nat) :
    pointedText whole [] = whole.map digitChar := by
  simp [pointedText]

theorem pointedText_of_ne_nil (whole : List Nat) {fraction : List Nat}
    (h : fraction ≠ []) :
    pointedText whole fraction =
      whole.map digitChar ++ '.' :: fraction.map digitChar := by
  rw [pointedText, if_neg h]

theorem mem_pointedText {whole fraction : List Nat}
    (hDigits : ∀ d ∈ whole ++ fraction, d < 10) {c : Char}
    (hc : c ∈ pointedText whole fraction) :
    (∃ d < 10, c = digitChar d) ∨ c = '.' := by
  have hMap {ds : List Nat} (hds : ∀ d ∈ ds, d < 10)
      (h : c ∈ ds.map digitChar) : ∃ d < 10, c = digitChar d := by
    obtain ⟨d, hd, rfl⟩ := List.mem_map.1 h
    exact ⟨d, hds d hd, rfl⟩
  rw [List.forall_mem_append] at hDigits
  rcases List.mem_append.1 hc with hc | hc
  · exact .inl (hMap hDigits.1 hc)
  · split at hc
    · cases hc
    · rcases List.mem_cons.1 hc with rfl | hc
      · exact .inr rfl
      · exact .inl (hMap hDigits.2 hc)

/-- Digits are neither points nor letters of words and exponents. -/
theorem digitChar_ne_mark {d : Nat} (h : d < 10) :
    digitChar d ≠ '.' ∧ lowerAscii (digitChar d) ≠ 'n' ∧
      (digitChar d == 'e' || digitChar d == 'E') = false :=
  of_digitChar (P := fun c => c ≠ '.' ∧ lowerAscii c ≠ 'n' ∧
    (c == 'e' || c == 'E') = false) (by decide) h

/-- A text of digits and points is a significand. -/
theorem readNumeral?_of_plain {s : List Char}
    (h : ∀ c ∈ s, (∃ d < 10, c = digitChar d) ∨ c = '.') :
    readNumeral? s =
      (readSignificand? s).map fun r => .decimal (digitsValue r.1) (-r.2) := by
  have hPlain : ∀ c ∈ s, lowerAscii c ≠ 'n' ∧
      (c == 'e' || c == 'E') = false := by
    intro c hc
    rcases h c hc with ⟨d, hd, rfl⟩ | rfl
    · exact (digitChar_ne_mark hd).2
    · decide
  have hWord {w : List Char} (hw : 'n' ∈ w) : s.map lowerAscii ≠ w := by
    rintro rfl
    obtain ⟨c, hc, hLetter⟩ := List.mem_map.1 hw
    exact (hPlain c hc).1 hLetter
  have hMark : ∀ c ∈ s, (!(c == 'e' || c == 'E')) = true := by
    intro c hc
    rw [(hPlain c hc).2]
    rfl
  rw [readNumeral?]
  simp only [hWord (show 'n' ∈ "inf".toList by decide),
    hWord (show 'n' ∈ "infinity".toList by decide),
    hWord (show 'n' ∈ "nan".toList by decide), decide_false, Bool.or_false,
    Bool.false_eq_true, if_false, List.takeWhile_eq_self_iff.2 hMark,
    List.dropWhile_eq_nil_iff.2 hMark]
  cases readSignificand? s with
  | none => rfl
  | some r => simp

theorem readSignificand?_pointedText {whole fraction : List Nat}
    (hWhole : whole ≠ []) (hDigits : ∀ d ∈ whole ++ fraction, d < 10) :
    readSignificand? (pointedText whole fraction) =
      some (whole ++ fraction, fraction.length) := by
  rw [List.forall_mem_append] at hDigits
  have hPoint : ∀ c ∈ whole.map digitChar, (c != '.') = true := by
    intro c hc
    obtain ⟨d, hd, rfl⟩ := List.mem_map.1 hc
    simpa using (digitChar_ne_mark (hDigits.1 d hd)).1
  have hRead : optionalDigits? (whole.map digitChar) = some whole := by
    simp [optionalDigits?, hWhole, digits?_map_digitChar hWhole hDigits.1]
  rw [readSignificand?]
  cases fraction with
  | nil =>
      rw [pointedText_nil, List.takeWhile_eq_self_iff.2 hPoint,
        List.dropWhile_eq_nil_iff.2 hPoint, hRead]
      simp [hWhole]
  | cons d ds =>
      have hFraction : optionalDigits? ((d :: ds).map digitChar) =
          some (d :: ds) := by
        rw [optionalDigits?, List.map_cons, List.isEmpty_cons]
        exact digits?_map_digitChar (List.cons_ne_nil d ds) hDigits.2
      rw [pointedText_of_ne_nil whole (List.cons_ne_nil d ds),
        List.takeWhile_append_of_pos hPoint, List.dropWhile_append_of_pos hPoint,
        List.takeWhile_cons_of_neg (by decide),
        List.dropWhile_cons_of_neg (by decide), List.append_nil, hRead]
      simp only [Option.bind_eq_bind, Option.bind_some, hFraction]
      simp

theorem isWord_pointedText {whole fraction : List Nat} (hWhole : whole ≠ [])
    (hDigits : ∀ d ∈ whole ++ fraction, d < 10) (negative : Bool) :
    IsWord (signText negative ++ pointedText whole fraction) := by
  refine ⟨by simp [pointedText, hWhole], List.forall_mem_append.2 ⟨?_, ?_⟩⟩
  · intro c hc
    have hMinus : c = '-' := by cases negative <;> simp_all [signText]
    rw [hMinus]
    decide
  · intro c hc
    rcases mem_pointedText hDigits hc with ⟨d, hd, rfl⟩ | rfl
    · exact (digitChar_plain hd).1
    · decide

theorem takeSign_pointedText {whole fraction : List Nat} (hWhole : whole ≠ [])
    (hDigits : ∀ d ∈ whole ++ fraction, d < 10) (negative : Bool) :
    takeSign (signText negative ++ pointedText whole fraction) =
      (negative, pointedText whole fraction) := by
  cases negative with
  | true => rfl
  | false =>
      cases whole with
      | nil => exact absurd rfl hWhole
      | cons d ds =>
          exact takeSign_digitChar (hDigits d (by simp)) _

/-- A text of digits is read as the number that they stand for, divided by the
power of ten of the places behind the point. -/
theorem exactValue?_pointedText {whole fraction : List Nat}
    (hWhole : whole ≠ []) (hDigits : ∀ d ∈ whole ++ fraction, d < 10)
    (negative : Bool) :
    exactValue? (signText negative ++ pointedText whole fraction) =
      some (signed negative
        (digitsValue (whole ++ fraction) / 10 ^ fraction.length : ℚ)) := by
  rw [exactValue?, trimPadding_of_isWord (isWord_pointedText hWhole hDigits _),
    takeSign_pointedText hWhole hDigits,
    readNumeral?_of_plain fun c hc => mem_pointedText hDigits hc,
    readSignificand?_pointedText hWhole hDigits]
  simp [div_eq_mul_inv]

end StochasticGrammar.Decimal
