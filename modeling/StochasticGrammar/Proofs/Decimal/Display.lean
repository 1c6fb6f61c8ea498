import StochasticGrammar.Decimal.Display
import StochasticGrammar.Proofs.Decimal.Exact

/-!
# What a displayed number reads as

A number with a given number of decimals is a row of digits with a point before
the last places, and what is shown lacks the zeros at its end.  Behind a point
these zeros do not count.  Without decimals there is no point, and the zeros are
those of the integer.

Main result: what is shown reads as the number rounded to the decimals asked for,
but without decimals only where no zero is lost (`displayText_reads_iff`).
-/

namespace StochasticGrammar.Decimal

open Text

/-! ## Zeros in rows of digits -/

theorem digitsValue_append_zeros (ds : List Nat) (k : Nat) :
    digitsValue (ds ++ List.replicate k 0) = digitsValue ds * 10 ^ k := by
  induction k with
  | zero => simp
  | succ k ih =>
      rw [List.replicate_succ', ← List.append_assoc, digitsValue_append, ih,
        Nat.pow_succ]
      ring

theorem digitsValue_zeros_append (k : Nat) (ds : List Nat) :
    digitsValue (List.replicate k 0 ++ ds) = digitsValue ds := by
  induction k with
  | zero => simp
  | succ k ih =>
      rw [List.replicate_succ, List.cons_append, ← ih]
      rfl

/-- A row of digits without the zeros at its end. -/
theorem exists_kept (ds : List Nat) :
    ∃ kept k, ds = kept ++ List.replicate k 0 ∧ kept.getLast? ≠ some 0 := by
  induction ds using List.reverseRecOn with
  | nil => exact ⟨[], 0, rfl, by simp⟩
  | append_singleton ds d ih =>
      by_cases hd : d = 0
      · obtain ⟨kept, k, hSplit, hLast⟩ := ih
        exact ⟨kept, k + 1, by
          rw [hSplit, hd, List.append_assoc, List.replicate_succ'], hLast⟩
      · exact ⟨ds ++ [d], 0, by simp, by simpa using hd⟩

/-- A row whose last digit is not zero stands for no multiple of ten. -/
theorem not_ten_dvd_digitsValue {ds : List Nat} (hNe : ds ≠ [])
    (hDigits : ∀ d ∈ ds, d < 10) (hLast : ds.getLast? ≠ some 0) :
    ¬ 10 ∣ digitsValue ds := by
  rcases List.eq_nil_or_concat ds with rfl | ⟨front, d, rfl⟩
  · exact absurd rfl hNe
  · rw [List.concat_eq_append] at *
    have hd : d < 10 := hDigits d (by simp)
    have hd' : d ≠ 0 := by simpa using hLast
    rw [digitsValue_append]
    omega

/-- The digits of a number of places are the digits before the point and those
places. -/
theorem exists_placesText (places units : Nat) :
    ∃ whole fraction, whole ≠ [] ∧ (∀ d ∈ whole ++ fraction, d < 10) ∧
      fraction.length = places ∧ digitsValue (whole ++ fraction) = units ∧
      placesText places units = pointedText whole fraction := by
  let row := natDigits units
  let padded := List.replicate (places + 1 - row.length) 0 ++ row
  have hLength : places < padded.length := by
    simp only [padded, List.length_append, List.length_replicate]
    omega
  have hPadded : List.replicate (places + 1 - (writeNat units).length) '0' ++
      writeNat units = padded.map digitChar := by
    simp only [padded, row, writeNat, List.map_append, List.map_replicate,
      List.length_map]
    rfl
  have hSplit := List.take_append_drop (padded.length - places) padded
  refine ⟨padded.take (padded.length - places),
    padded.drop (padded.length - places), ?_, ?_, ?_, ?_, ?_⟩
  · rw [ne_eq, List.take_eq_nil_iff, ← List.length_eq_zero_iff]
    omega
  · rw [hSplit]
    intro d hd
    rcases List.mem_append.1 hd with hd | hd
    · rw [List.eq_of_mem_replicate hd]
      decide
    · exact lt_ten_of_mem_natDigits hd
  · rw [List.length_drop]
    omega
  · rw [hSplit, digitsValue_zeros_append, digitsValue_natDigits]
  · simp only [placesText, hPadded, List.length_map, ← List.map_take,
      ← List.map_drop]
    by_cases hPlaces : places = 0
    · rw [if_pos hPlaces, hPlaces, Nat.sub_zero, List.drop_length,
        pointedText_nil]
    · have hNe : padded.drop (padded.length - places) ≠ [] := by
        rw [ne_eq, List.drop_eq_nil_iff]
        omega
      rw [if_neg hPlaces, pointedText_of_ne_nil _ hNe]

/-! ## Zeros at the end of a text -/

/-- No point ends the text, and after a point no zero does. -/
structure Tidy (s : List Char) : Prop where
  no_point : s.getLast? ≠ some '.'
  no_zero : '.' ∈ s → s.getLast? ≠ some '0'

theorem trimZeros_append_zeros (s : List Char) (k : Nat) :
    trimZeros (s ++ List.replicate k '0') = trimZeros s := by
  have hZeros : ∀ c ∈ List.replicate k '0', (c == '0') = true :=
    List.forall_mem_replicate.2 (.inr rfl)
  have hDrop : dropRightWhile (· == '0') (s ++ List.replicate k '0') =
      dropRightWhile (· == '0') s := by
    rw [dropRightWhile, List.reverse_append, List.reverse_replicate,
      List.dropWhile_append_of_pos hZeros]
    rfl
  rw [trimZeros, trimZeros, hDrop]

theorem trimZeros_concat_point {c : Char} (h : c ≠ '.') (s : List Char) :
    trimZeros (s ++ [c] ++ ['.']) = s ++ [c] := by
  have hPoint : dropRightWhile (· == '.') (s ++ [c] ++ ['.']) = s ++ [c] := by
    have hc : (c == '.') = false := by simpa using h
    simp [dropRightWhile, hc]
  rw [trimZeros, dropRightWhile_concat (by decide), hPoint]
  split
  · rename_i hNil
    simp at hNil
  · rename_i hCons
    exact hCons.symm

theorem map_digitChar_zeros (k : Nat) :
    (List.replicate k 0).map digitChar = List.replicate k '0' := by
  rw [List.map_replicate]
  rfl

theorem digitChar_ne_zero {d : Nat} (h : d < 10) (hd : d ≠ 0) :
    digitChar d ≠ '0' := by
  have hAll : ∀ d ∈ List.range 10, d ≠ 0 → digitChar d ≠ '0' := by decide
  exact hAll d (List.mem_range.2 h) hd

/-- The last character of a row of digits is a digit. -/
theorem exists_last_digit {ds : List Nat} (hNe : ds ≠ [])
    (hDigits : ∀ d ∈ ds, d < 10) :
    ∃ front d, ds = front ++ [d] ∧ d < 10 ∧
      ds.map digitChar = front.map digitChar ++ [digitChar d] := by
  rcases List.eq_nil_or_concat ds with rfl | ⟨front, d, rfl⟩
  · exact absurd rfl hNe
  · rw [List.concat_eq_append] at *
    exact ⟨front, d, rfl, hDigits d (by simp), by simp⟩

/-- A row of digits that does not end in a zero keeps them all. -/
theorem trimZeros_digits {ds : List Nat} (hNe : ds ≠ [])
    (hDigits : ∀ d ∈ ds, d < 10) (hLast : ds.getLast? ≠ some 0)
    (s : List Char) (k : Nat) :
    trimZeros (s ++ (ds ++ List.replicate k 0).map digitChar) =
      s ++ ds.map digitChar := by
  obtain ⟨front, d, rfl, hd, hMap⟩ := exists_last_digit hNe hDigits
  have hd' : d ≠ 0 := by simpa using hLast
  rw [List.map_append, map_digitChar_zeros, ← List.append_assoc,
    trimZeros_append_zeros, hMap, ← List.append_assoc]
  exact trimZeros_eq_self (digitChar_ne_zero hd hd') (digitChar_ne_mark hd).1 _

/-- Behind a point the zeros at the end are dropped, and no digit else. -/
theorem trimZeros_pointedText {whole kept : List Nat} {k : Nat}
    (hWhole : whole ≠ []) (hDigits : ∀ d ∈ whole ++ kept, d < 10)
    (hLast : kept.getLast? ≠ some 0)
    (hPlaces : kept ++ List.replicate k 0 ≠ []) (s : List Char) :
    trimZeros (s ++ pointedText whole (kept ++ List.replicate k 0)) =
      s ++ pointedText whole kept := by
  rw [List.forall_mem_append] at hDigits
  rw [pointedText_of_ne_nil _ hPlaces]
  by_cases hKept : kept = []
  · obtain ⟨front, d, -, hd, hMap⟩ := exists_last_digit hWhole hDigits.1
    rw [hKept, List.nil_append, pointedText_nil, map_digitChar_zeros, hMap]
    have hText : s ++ (front.map digitChar ++ [digitChar d] ++
        '.' :: List.replicate k '0') =
        (s ++ front.map digitChar) ++ [digitChar d] ++ ['.'] ++
          List.replicate k '0' := by simp
    rw [hText, trimZeros_append_zeros,
      trimZeros_concat_point (digitChar_ne_mark hd).1, List.append_assoc]
  · have hText : s ++ (whole.map digitChar ++
        '.' :: (kept ++ List.replicate k 0).map digitChar) =
        (s ++ whole.map digitChar ++ ['.']) ++
          (kept ++ List.replicate k 0).map digitChar := by simp
    rw [hText, trimZeros_digits hKept hDigits.2 hLast,
      pointedText_of_ne_nil _ hKept]
    simp

theorem tidy_pointedText {whole fraction : List Nat} (hWhole : whole ≠ [])
    (hDigits : ∀ d ∈ whole ++ fraction, d < 10)
    (hLast : fraction.getLast? ≠ some 0) (negative : Bool) :
    Tidy (signText negative ++ pointedText whole fraction) := by
  rw [List.forall_mem_append] at hDigits
  by_cases hFraction : fraction = []
  · obtain ⟨front, d, -, hd, hMap⟩ := exists_last_digit hWhole hDigits.1
    have hNoPoint : '.' ∉ signText negative ++ whole.map digitChar := by
      rw [List.mem_append, not_or]
      constructor
      · cases negative <;> decide
      · rintro hMem
        obtain ⟨x, hx, hChar⟩ := List.mem_map.1 hMem
        exact (digitChar_ne_mark (hDigits.1 x hx)).1 hChar
    rw [hFraction, pointedText_nil]
    refine ⟨?_, fun hPoint => absurd hPoint hNoPoint⟩
    rw [hMap, ← List.append_assoc]
    simpa using (digitChar_ne_mark hd).1
  · obtain ⟨front, d, rfl, hd, hMap⟩ := exists_last_digit hFraction hDigits.2
    have hd' : d ≠ 0 := by simpa using hLast
    have hText : signText negative ++ pointedText whole (front ++ [d]) =
        (signText negative ++ whole.map digitChar ++
          '.' :: front.map digitChar) ++ [digitChar d] := by
      rw [pointedText_of_ne_nil _ hFraction, hMap]
      simp
    rw [hText]
    constructor
    · rw [List.getLast?_concat]
      simpa using (digitChar_ne_mark hd).1
    · rw [List.getLast?_concat]
      simpa using digitChar_ne_zero hd hd'

/-! ## What is shown -/

/-- Behind a point no zero counts. -/
theorem exactValue?_trimZeros {places : Nat} (hPlaces : 0 < places)
    (units : Nat) (negative : Bool) :
    Tidy (trimZeros (signText negative ++ placesText places units)) ∧
      exactValue? (trimZeros (signText negative ++ placesText places units)) =
        some (signed negative (units / 10 ^ places : ℚ)) := by
  obtain ⟨whole, fraction, hWhole, hDigits, hLength, hUnits, hText⟩ :=
    exists_placesText places units
  obtain ⟨kept, k, hSplit, hLast⟩ := exists_kept fraction
  have hNe : kept ++ List.replicate k 0 ≠ [] := by
    rw [← hSplit, ← List.length_pos_iff]
    omega
  have hKept : ∀ d ∈ whole ++ kept, d < 10 := by
    intro d hd
    refine hDigits d ?_
    rw [hSplit, ← List.append_assoc]
    exact List.mem_append_left _ hd
  have hValue : (digitsValue (whole ++ kept) / 10 ^ kept.length : ℚ) =
      units / 10 ^ places := by
    rw [← hUnits, ← hLength, hSplit, ← List.append_assoc,
      digitsValue_append_zeros, List.length_append, List.length_replicate]
    push_cast
    rw [pow_add, mul_div_mul_right _ _ (by positivity)]
  rw [hText, hSplit, trimZeros_pointedText hWhole hKept hLast hNe]
  exact ⟨tidy_pointedText hWhole hKept hLast negative,
    by rw [exactValue?_pointedText hWhole hKept, hValue]⟩

/-- A number that is no multiple of ten is changed by every zero behind it. -/
theorem eq_mul_pow_ten_iff {value : Nat} (h : ¬ 10 ∣ value) (k : Nat) :
    value = value * 10 ^ k ↔ ¬ 10 ∣ value * 10 ^ k := by
  cases k with
  | zero => simp [h]
  | succ k =>
      have hDvd : 10 ∣ value * 10 ^ (k + 1) :=
        Dvd.dvd.mul_left (dvd_pow_self 10 (Nat.succ_ne_zero k)) value
      refine iff_of_false (fun hSame => h ?_) (not_not.2 hDvd)
      rwa [← hSame] at hDvd

/-- Of nothing but zeros one is left, unless there is a sign. -/
theorem exactValue?_trimZeros_nothing (k : Nat) (negative : Bool) :
    Tidy (trimZeros (signText negative ++ List.replicate k '0')) ∧
      (exactValue? (trimZeros (signText negative ++ List.replicate k '0')) =
          some 0 ↔ negative = false) := by
  rw [trimZeros_append_zeros]
  cases negative with
  | false =>
      have hZero : trimZeros (signText false) =
          signText false ++ pointedText [0] [] := rfl
      rw [hZero, exactValue?_pointedText (by simp) (by simp)]
      exact ⟨⟨by decide, by decide⟩, by simp [signed, digitsValue]⟩
  | true =>
      exact ⟨⟨by decide, by decide⟩, iff_of_false (by decide) (by decide)⟩

/-- Without a point every zero counts. -/
theorem exactValue?_trimZeros_zero (units : Nat) (negative : Bool) :
    Tidy (trimZeros (signText negative ++ placesText 0 units)) ∧
      (exactValue? (trimZeros (signText negative ++ placesText 0 units)) =
          some (signed negative (units : ℚ)) ↔
        ¬ 10 ∣ units ∨ units = 0 ∧ negative = false) := by
  obtain ⟨whole, fraction, hWhole, hDigits, hLength, hUnits, hText⟩ :=
    exists_placesText 0 units
  obtain rfl := List.length_eq_zero_iff.1 hLength
  rw [List.append_nil] at hDigits hUnits
  rw [hText, pointedText_nil]
  obtain ⟨kept, k, rfl, hLast⟩ := exists_kept whole
  rw [digitsValue_append_zeros] at hUnits
  by_cases hNe : kept = []
  · obtain rfl : units = 0 := by rw [← hUnits, hNe, digitsValue]; simp
    obtain ⟨hTidy, hRead⟩ := exactValue?_trimZeros_nothing k negative
    rw [hNe, List.nil_append, map_digitChar_zeros, Nat.cast_zero,
      signed_eq_zero_iff.2 rfl, hRead]
    exact ⟨hTidy, by simp⟩
  · have hKept : ∀ d ∈ kept, d < 10 :=
      fun d hd => hDigits d (List.mem_append_left _ hd)
    have hAll : ∀ d ∈ kept ++ [], d < 10 := by rwa [List.append_nil]
    have hTen := not_ten_dvd_digitsValue hNe hKept hLast
    have hPos : units ≠ 0 := by
      rw [← hUnits]
      refine mul_ne_zero (fun hZero => hTen ?_) (by positivity)
      rw [hZero]
      exact dvd_zero 10
    have hTidy := tidy_pointedText hNe hAll (by simp) negative
    have hRead := exactValue?_pointedText hNe hAll negative
    rw [pointedText_nil] at hTidy hRead
    rw [trimZeros_digits hNe hKept hLast, hRead, List.append_nil,
      List.length_nil, pow_zero, div_one, Option.some_inj, signed_inj,
      Nat.cast_inj]
    refine ⟨hTidy, ?_⟩
    rw [or_iff_left fun h => hPos h.1, ← hUnits]
    exact eq_mul_pow_ten_iff hTen k

/-- What is shown of a finite number ends neither in a point nor in a zero
behind a point.  It reads as the number rounded to the decimals asked for if
there is a decimal, or if the rounded number does not end in a zero, or is zero
without a minus sign. -/
theorem displayText_reads_iff {x : Float} {negative : Bool} {mantissa : Nat}
    {exponent : Int}
    (hx : Binary64.ofFloat x = .finite negative mantissa exponent)
    (places : Nat) :
    Tidy (displayText places x).toList ∧
      ∃ n : ℤ,
        RoundsTo
          (signed negative (mantissa * 2 ^ exponent : ℚ) * 10 ^ places) n ∧
        (exactValue? (displayText places x).toList =
            some (n / 10 ^ places : ℚ) ↔
          0 < places ∨ ¬ 10 ∣ n ∨ n = 0 ∧ negative = false) := by
  let num := Binary64.numerator mantissa exponent
  let den := Binary64.denominator exponent
  let units := roundDiv (num * tenPow places) den
  have hText : (displayText places x).toList =
      trimZeros (signText negative ++ placesText places units) := by
    rw [displayText, String.toList_ofList, fixedText, hx]
    rfl
  have hRounds : RoundsTo (mantissa * 2 ^ exponent * 10 ^ places : ℚ) units := by
    have hNear := roundsTo_roundDiv (num * tenPow places)
      (twoPow_pos (-exponent).toNat)
    have hPow : (tenPow places : ℚ) = 10 ^ places := by
      rw [tenPow, Nat.pow_eq]
      push_cast
      rfl
    rw [Nat.cast_mul, hPow, mul_div_right_comm] at hNear
    rwa [← Binary64.numerator_div_denominator]
  have hDvd : 10 ∣ signed negative (units : ℤ) ↔ 10 ∣ units := by
    cases negative <;> simp only [signed] <;> omega
  have hValue : ((signed negative (units : ℤ) : ℤ) / 10 ^ places : ℚ) =
      signed negative (units / 10 ^ places : ℚ) := by
    rw [cast_signed, div_eq_mul_inv, div_eq_mul_inv, signed_mul]
    rfl
  rw [hText]
  rcases Nat.eq_zero_or_pos places with rfl | hPlaces
  · obtain ⟨hTidy, hRead⟩ := exactValue?_trimZeros_zero units negative
    refine ⟨hTidy, signed negative units, ?_, ?_⟩
    · rw [← signed_mul]
      exact hRounds.signed negative
    · rw [hValue, hDvd, signed_eq_zero_iff, Nat.cast_eq_zero, pow_zero, div_one,
        hRead]
      simp
  · obtain ⟨hTidy, hRead⟩ := exactValue?_trimZeros hPlaces units negative
    refine ⟨hTidy, signed negative units, ?_, ?_⟩
    · rw [← signed_mul]
      exact hRounds.signed negative
    · rw [hValue, hRead]
      simp [hPlaces]

/-- Minus one eighth lies half way between two numbers of two decimals. -/
theorem displayText_reads_iff_tie :
    Binary64.ofFloat (Float.ofBits 0xbfc0000000000000) =
        .finite true (2 ^ 52) (-55) ∧
      exactValue? (displayText 2 (Float.ofBits 0xbfc0000000000000)).toList =
        some (-12 / 100) := by
  have hx : Binary64.ofFloat (Float.ofBits 0xbfc0000000000000) =
      .finite true (2 ^ 52) (-55) := by decide
  obtain ⟨-, n, hRounds, hRead⟩ := displayText_reads_iff hx 2
  have hTwelve : RoundsTo (25 / 2 : ℚ) 12 :=
    ⟨by norm_num [abs_of_pos], fun _ => by decide⟩
  have hn : n = -12 := by
    refine hRounds.unique ?_
    convert hTwelve.neg using 1
    norm_num [signed]
  refine ⟨hx, ?_⟩
  rw [hRead.2 (.inl (by decide)), hn]
  norm_num

/-- Ten without decimals is shown as one. -/
theorem displayText_ten :
    Binary64.ofFloat (Float.ofBits 0x4024000000000000) =
        .finite false (5 * 2 ^ 50) (-49) ∧
      RoundsTo (signed false (5 * 2 ^ 50 * 2 ^ (-49 : ℤ) : ℚ) * 10 ^ 0) 10 ∧
      displayText 0 (Float.ofBits 0x4024000000000000) = "1" ∧
      exactValue? "1".toList = some 1 := by
  refine ⟨by decide, ⟨?_, fun _ => by decide⟩, by decide +kernel,
    by decide +kernel⟩
  norm_num [signed]

end StochasticGrammar.Decimal
