import StochasticGrammar.Decimal.Reading
import StochasticGrammar.Proofs.Text.Cutting
import StochasticGrammar.Text.Case

/-!
# Texts that are read as numbers

A number is written with digits of any script, a few signs, or one of the words
for infinity and not-a-number.  None of these characters is blank, so all that
trimming takes off such a text is what the reader skips as padding.  Lower case
leaves digits alone, and is that of ASCII on the words.

Main results: trimming does not change how a number is read (`readInt?_trim`,
`Decimal.readFloat?_trim`), and a text that is read as a number has a digit or
is one of the words (`isWord_of_readInt?`, `Decimal.isNumeral_of_readFloat?`).
-/

namespace StochasticGrammar.Text

/-! ## Digits -/

/-- What holds of all digits of all scripts holds of each. -/
theorem of_digit? {P : Char → Prop}
    (h : ∀ first ∈ zeroDigits, ∀ k ∈ List.range 10, P (Char.ofNat (first + k)))
    {c : Char} {d : Nat} (hc : digit? c = some d) : P c := by
  obtain ⟨first, hFind, rfl⟩ := Option.map_eq_some_iff.1 hc
  have hRange := List.find?_some hFind
  simp only [Bool.and_eq_true, decide_eq_true_eq] at hRange
  have hPlace := h first (List.mem_of_find?_eq_some hFind) (c.toNat - first)
    (List.mem_range.2 (by omega))
  rwa [Nat.add_sub_cancel' hRange.1, Char.ofNat_toNat] at hPlace

theorem isBlank_of_digit? {c : Char} {d : Nat} (h : digit? c = some d) :
    isBlank c = false :=
  of_digit? (P := fun c => isBlank c = false) (by decide) h

theorem lowerRanges_apart :
    (lowerRanges.all fun range => zeroDigits.all fun first =>
      range.last < first || first + 10 ≤ range.first) = true := by
  decide +kernel

/-- Digits have no lower case. -/
theorem shiftCase_of_digit? {c : Char} {d : Nat} (h : digit? c = some d) :
    shiftCase lowerRanges c = c := by
  obtain ⟨first, hFind, -⟩ := Option.map_eq_some_iff.1 h
  have hDigit := List.find?_some hFind
  have hFirst := List.mem_of_find?_eq_some hFind
  have hNone : lowerRanges.find? (·.covers c.toNat) = none := by
    rw [List.find?_eq_none]
    intro range hRange hCovers
    have hApart := List.all_eq_true.1
      (List.all_eq_true.1 lowerRanges_apart range hRange) first hFirst
    simp only [CaseRange.covers, Bool.and_eq_true, Bool.or_eq_true,
      decide_eq_true_eq] at hCovers hApart hDigit
    omega
  rw [shiftCase, hNone]

/-- What stands in a row of digits. -/
theorem mem_digitsTail? (s : List Char) :
    ∀ {ds : List Nat}, digitsTail? s = some ds →
      ∀ c ∈ s, (∃ d, digit? c = some d) ∨ c = '_' := by
  induction s using digitsTail?.induct with
  | case1 => simp
  | case2 c s ih =>
      intro ds h
      rw [digitsTail?] at h
      obtain ⟨d, hd, h⟩ := Option.bind_eq_some_iff.1 h
      obtain ⟨rest, hRest, -⟩ := Option.bind_eq_some_iff.1 h
      exact List.forall_mem_cons.2 ⟨.inr rfl,
        List.forall_mem_cons.2 ⟨.inl ⟨d, hd⟩, ih hRest⟩⟩
  | case3 c s hMark ih =>
      intro ds h
      rw [digitsTail?] at h
      · obtain ⟨d, hd, h⟩ := Option.bind_eq_some_iff.1 h
        obtain ⟨rest, hRest, -⟩ := Option.bind_eq_some_iff.1 h
        exact List.forall_mem_cons.2 ⟨.inl ⟨d, hd⟩, ih hRest⟩
      · exact hMark

/-- A row of digits begins with one, and holds only digits and underscores. -/
theorem mem_digits? {s : List Char} {ds : List Nat} (h : digits? s = some ds) :
    (∃ c ∈ s, ∃ d, digit? c = some d) ∧
      ∀ c ∈ s, (∃ d, digit? c = some d) ∨ c = '_' := by
  cases s with
  | nil => cases h
  | cons c s =>
      obtain ⟨d, hd, h⟩ := Option.bind_eq_some_iff.1 h
      obtain ⟨rest, hRest, -⟩ := Option.bind_eq_some_iff.1 h
      exact ⟨⟨c, by simp, d, hd⟩,
        List.forall_mem_cons.2 ⟨.inl ⟨d, hd⟩, mem_digitsTail? s hRest⟩⟩

theorem isBlank_of_mem_digits? {s : List Char} {ds : List Nat}
    (h : digits? s = some ds) : ∀ c ∈ s, isBlank c = false := by
  intro c hc
  rcases (mem_digits? h).2 c hc with ⟨d, hd⟩ | rfl
  · exact isBlank_of_digit? hd
  · decide

/-! ## Signs -/

/-- A sign is taken off the front, if there is one. -/
theorem takeSign_cases (s : List Char) :
    s = (takeSign s).2 ∨
      ∃ c, (c = '-' ∨ c = '+') ∧ s = c :: (takeSign s).2 := by
  unfold takeSign
  split
  · exact .inr ⟨'-', .inl rfl, rfl⟩
  · exact .inr ⟨'+', .inr rfl, rfl⟩
  · exact .inl rfl

theorem mem_of_mem_takeSign {s : List Char} {c : Char}
    (h : c ∈ (takeSign s).2) : c ∈ s := by
  rcases takeSign_cases s with hEq | ⟨sign, -, hEq⟩
  · rwa [hEq]
  · rw [hEq]
    exact List.mem_cons_of_mem sign h

/-- A word with a sign before it is a word. -/
theorem isWord_of_takeSign {s : List Char} (h : IsWord (takeSign s).2) :
    IsWord s := by
  rcases takeSign_cases s with hEq | ⟨sign, hSign, hEq⟩
  · rwa [hEq]
  · rw [hEq]
    refine ⟨List.cons_ne_nil _ _, List.forall_mem_cons.2 ⟨?_, h.not_blank⟩⟩
    rcases hSign with rfl | rfl <;> decide

/-! ## Padding -/

theorem isBlank_of_isPadding {c : Char} (h : isPadding c = true) :
    isBlank c = true := by
  rw [isPadding, Bool.and_eq_true] at h
  exact h.1

/-- What is taken off a text at its two ends. -/
theorem exists_ends (p : Char → Bool) (s : List Char) :
    ∃ a b, s = a ++ ((s.dropWhile p).reverse.dropWhile p).reverse ++ b ∧
      (∀ c ∈ a, p c = true) ∧ ∀ c ∈ b, p c = true := by
  let rest := (s.dropWhile p).reverse
  refine ⟨s.takeWhile p, (rest.takeWhile p).reverse, ?_,
    fun c hc => List.mem_takeWhile_imp hc,
    fun c hc => List.mem_takeWhile_imp (List.mem_reverse.1 hc)⟩
  have hRest := congrArg List.reverse
    (List.takeWhile_append_dropWhile (p := p) (l := rest))
  rw [List.reverse_append, List.reverse_reverse] at hRest
  rw [List.append_assoc, hRest, List.takeWhile_append_dropWhile]

/-- Trimming takes off as much as padding if a word is left. -/
theorem trim_eq_trimPadding {s : List Char} (h : IsWord (trimPadding s)) :
    trim s = trimPadding s := by
  obtain ⟨a, b, hSplit, ha, hb⟩ := exists_ends isPadding s
  have hBlank {t : List Char} (ht : ∀ c ∈ t, isPadding c = true) :
      ∀ c ∈ t, isBlank c = true :=
    fun c hc => isBlank_of_isPadding (ht c hc)
  calc trim s
    _ = trim (a ++ trimPadding s ++ b) := congrArg trim hSplit
    _ = trim (trimPadding s) := by
        rw [trim_append_right (hBlank hb), trim_append_left (hBlank ha)]
    _ = trimPadding s := trim_of_isWord h

theorem trimPadding_trim {s : List Char} (h : IsWord (trimPadding s)) :
    trimPadding (trim s) = trimPadding s := by
  rw [trim_eq_trimPadding h, trimPadding_of_isWord h]

/-! ## Integers -/

/-- What is read as an integer is a word with a digit in it. -/
theorem isWord_of_readInt? {s : List Char} {i : Int}
    (h : readInt? s = some i) : IsWord (trimPadding s) ∧
      ∃ c ∈ trimPadding s, ∃ d, digit? c = some d := by
  obtain ⟨ds, hDigits, -⟩ := Option.bind_eq_some_iff.1 h
  obtain ⟨⟨c, hc, hDigit⟩, -⟩ := mem_digits? hDigits
  exact ⟨isWord_of_takeSign
      ⟨List.ne_nil_of_mem hc, isBlank_of_mem_digits? hDigits⟩,
    c, mem_of_mem_takeSign hc, hDigit⟩

/-- Trimming does not change how an integer is read. -/
theorem readInt?_trim {s : List Char} {i : Int} (h : readInt? s = some i) :
    readInt? (trim s) = some i := by
  rw [← h, readInt?, trimPadding_trim (isWord_of_readInt? h).1, readInt?]

/-! ## Lower case -/

theorem mem_lowerFrom {c : Char} (hSigma : c ≠ 'Σ') (hDotted : c ≠ 'İ') :
    ∀ {s before : List Char}, c ∈ s →
      shiftCase lowerRanges c ∈ lowerFrom before s := by
  intro s
  induction s with
  | nil => simp
  | cons d s ih =>
      intro before hc
      rw [lowerFrom]
      rcases List.mem_cons.1 hc with rfl | hc
      · rw [if_neg hSigma, if_neg hDotted]
        exact List.mem_append_left _ (List.mem_singleton.2 rfl)
      · exact List.mem_append_right _ (ih hc)

/-- Digits are found again in lower case. -/
theorem mem_lower_of_digit? {s : List Char} {c : Char} {d : Nat}
    (h : digit? c = some d) (hc : c ∈ s) : c ∈ lower s := by
  have hPlain : c ≠ 'Σ' ∧ c ≠ 'İ' :=
    of_digit? (P := fun c => c ≠ 'Σ' ∧ c ≠ 'İ') (by decide) h
  have hMem : shiftCase lowerRanges c ∈ lowerFrom [] s :=
    mem_lowerFrom hPlain.1 hPlain.2 hc
  rwa [shiftCase_of_digit? h] at hMem

/-- In ASCII, lower case is what the reader of words makes of a text. -/
theorem shiftCase_of_ascii {c : Char} (h : c.toNat < 128) :
    c ≠ 'Σ' ∧ c ≠ 'İ' ∧ shiftCase lowerRanges c = Decimal.lowerAscii c := by
  have hAll : ∀ code ∈ List.range 128,
      Char.ofNat code ≠ 'Σ' ∧ Char.ofNat code ≠ 'İ' ∧
        shiftCase lowerRanges (Char.ofNat code) =
          Decimal.lowerAscii (Char.ofNat code) := by
    decide +kernel
  have hCode := hAll c.toNat (List.mem_range.2 h)
  rwa [Char.ofNat_toNat] at hCode

theorem lowerFrom_of_ascii {s : List Char} (h : ∀ c ∈ s, c.toNat < 128) :
    ∀ before, lowerFrom before s = s.map Decimal.lowerAscii := by
  induction s with
  | nil => exact fun _ => rfl
  | cons c s ih =>
      intro before
      obtain ⟨hSigma, hDotted, hShift⟩ := shiftCase_of_ascii (h c (by simp))
      rw [lowerFrom, if_neg hSigma, if_neg hDotted, hShift,
        ih fun d hd => h d (by simp [hd])]
      rfl

theorem lower_of_ascii {s : List Char} (h : ∀ c ∈ s, c.toNat < 128) :
    lower s = s.map Decimal.lowerAscii :=
  lowerFrom_of_ascii h []

end StochasticGrammar.Text

namespace StochasticGrammar.Decimal

open Text

/-! ## Numerals -/

/-- A character that becomes an ASCII one was one. -/
theorem toNat_lt_of_lowerAscii {c : Char} (h : (lowerAscii c).toNat < 128) :
    c.toNat < 128 := by
  unfold lowerAscii at h
  split at h
  · rename_i hUpper
    simp only [Bool.and_eq_true, decide_eq_true_eq] at hUpper
    have hLast : c.toNat ≤ 'Z'.toNat := hUpper.2
    exact Nat.lt_of_le_of_lt hLast (by decide)
  · exact h

theorem isBlank_lowerAscii (c : Char) :
    isBlank (lowerAscii c) = true ∨ isBlank c = false := by
  unfold lowerAscii
  split
  · rename_i hUpper
    simp only [Bool.and_eq_true, decide_eq_true_eq] at hUpper
    have hFirst : 'A'.toNat ≤ c.toNat := hUpper.1
    have hLast : c.toNat ≤ 'Z'.toNat := hUpper.2
    have hAll : ∀ code ∈ List.range 91, 65 ≤ code →
        isBlank (Char.ofNat code) = false := by decide
    have hCode := hAll c.toNat (List.mem_range.2 (Nat.lt_succ_of_le hLast)) hFirst
    rw [Char.ofNat_toNat] at hCode
    exact .inr hCode
  · cases hBlank : isBlank c with
    | true => exact .inl rfl
    | false => exact .inr rfl

/-- The words for numbers. -/
def numberWords : List (List Char) :=
  ["inf".toList, "infinity".toList, "nan".toList]

/-- A text whose characters are not blank, and that has a digit or is one of the
words for numbers. -/
structure IsNumeral (s : List Char) : Prop where
  not_blank : ∀ c ∈ s, isBlank c = false
  digit_or_word : (∃ c ∈ s, ∃ d, digit? c = some d) ∨
    s.map lowerAscii ∈ numberWords

theorem IsNumeral.ne_nil {s : List Char} (h : IsNumeral s) : s ≠ [] := by
  rintro rfl
  rcases h.digit_or_word with ⟨c, hc, -⟩ | hWord
  · cases hc
  · revert hWord
    decide

theorem isNumeral_of_word {s : List Char}
    (h : s.map lowerAscii ∈ numberWords) : IsNumeral s := by
  refine ⟨fun c hc => ?_, .inr h⟩
  have hWords : ∀ w ∈ numberWords, IsWord w := by decide
  have hLower := (hWords _ h).not_blank _ (List.mem_map_of_mem hc)
  rcases isBlank_lowerAscii c with hBlank | hBlank
  · rw [hLower] at hBlank
    cases hBlank
  · exact hBlank

theorem optionalDigits?_cases {s : List Char} {ds : List Nat}
    (h : optionalDigits? s = some ds) :
    s = [] ∧ ds = [] ∨ digits? s = some ds := by
  unfold optionalDigits? at h
  split at h
  · rename_i hEmpty
    cases h
    exact .inl ⟨List.isEmpty_iff.1 hEmpty, rfl⟩
  · exact .inr h

theorem isBlank_of_mem_optionalDigits? {s : List Char} {ds : List Nat}
    (h : optionalDigits? s = some ds) : ∀ c ∈ s, isBlank c = false := by
  rcases optionalDigits?_cases h with ⟨rfl, -⟩ | hDigits
  · simp
  · exact isBlank_of_mem_digits? hDigits

/-- A digit was read. -/
theorem exists_digit_of_optionalDigits? {s : List Char} {ds : List Nat}
    (h : optionalDigits? s = some ds) (hNe : ds.isEmpty = false) :
    ∃ c ∈ s, ∃ d, digit? c = some d := by
  rcases optionalDigits?_cases h with ⟨-, rfl⟩ | hDigits
  · cases hNe
  · exact (mem_digits? hDigits).1

/-- A text is cut before the first character of a kind, if there is one. -/
theorem cut_cases (p : Char → Bool) (s : List Char) :
    s.takeWhile (!p ·) = s ∧ s.dropWhile (!p ·) = [] ∨
      ∃ left mark right, p mark = true ∧ s = left ++ mark :: right ∧
        s.takeWhile (!p ·) = left ∧ s.dropWhile (!p ·) = mark :: right := by
  have hSplit := List.takeWhile_append_dropWhile (p := (!p ·)) (l := s)
  cases hRest : s.dropWhile (!p ·) with
  | nil =>
      rw [hRest, List.append_nil] at hSplit
      exact .inl ⟨hSplit, rfl⟩
  | cons mark right =>
      have hMark := List.head?_dropWhile_not (!p ·) s
      rw [hRest] at hSplit hMark
      exact .inr ⟨_, mark, right, by simpa using hMark, hSplit.symm, rfl, rfl⟩

/-- A significand is digits, or digits around a point; one side may be
missing. -/
theorem readSignificand?_cases {s : List Char} {r : List Nat × Nat}
    (h : readSignificand? s = some r) :
    ∃ left right whole fraction,
      (s = left ∧ right = [] ∨ s = left ++ '.' :: right) ∧
      optionalDigits? left = some whole ∧
      optionalDigits? right = some fraction ∧
      (whole.isEmpty && fraction.isEmpty) = false := by
  have hLast {whole fraction : List Nat}
      (h : (if whole.isEmpty && fraction.isEmpty then none
        else some (whole ++ fraction, fraction.length)) = some r) :
      (whole.isEmpty && fraction.isEmpty) = false := by
    split at h
    · cases h
    · rename_i hNe
      exact Bool.eq_false_iff.2 hNe
  rw [readSignificand?] at h
  obtain ⟨whole, hWhole, h⟩ := Option.bind_eq_some_iff.1 h
  rcases cut_cases (· == '.') s with
    ⟨hAll, hRest⟩ | ⟨left, mark, right, hMark, hSplit, hLeft, hRest⟩
  · have hDrop : s.dropWhile (· != '.') = [] := hRest
    have hTake : s.takeWhile (· != '.') = s := hAll
    rw [hTake] at hWhole
    rw [hDrop] at h
    exact ⟨s, [], whole, [], .inl ⟨rfl, rfl⟩, hWhole, rfl, hLast h⟩
  · have hDrop : s.dropWhile (· != '.') = mark :: right := hRest
    have hTake : s.takeWhile (· != '.') = left := hLeft
    rw [hTake] at hWhole
    rw [hDrop] at h
    obtain ⟨fraction, hFraction, h⟩ := Option.bind_eq_some_iff.1 h
    rw [beq_iff_eq] at hMark
    exact ⟨left, right, whole, fraction, .inr (hMark ▸ hSplit), hWhole,
      hFraction, hLast h⟩

/-- A significand has a digit and no blank. -/
theorem mem_readSignificand? {s : List Char} {r : List Nat × Nat}
    (h : readSignificand? s = some r) :
    (∃ c ∈ s, ∃ d, digit? c = some d) ∧ ∀ c ∈ s, isBlank c = false := by
  obtain ⟨left, right, whole, fraction, hSplit, hWhole, hFraction, hNe⟩ :=
    readSignificand?_cases h
  have hLeft := isBlank_of_mem_optionalDigits? hWhole
  have hRight := isBlank_of_mem_optionalDigits? hFraction
  have hMem : (∀ c ∈ s, c ∈ left ∨ c = '.' ∨ c ∈ right) ∧
      (∀ c ∈ left, c ∈ s) ∧ ∀ c ∈ right, c ∈ s := by
    rcases hSplit with ⟨rfl, rfl⟩ | rfl <;> simp +contextual
  constructor
  · rcases Bool.and_eq_false_iff.1 hNe with hNe | hNe
    · obtain ⟨c, hc, hDigit⟩ := exists_digit_of_optionalDigits? hWhole hNe
      exact ⟨c, hMem.2.1 c hc, hDigit⟩
    · obtain ⟨c, hc, hDigit⟩ := exists_digit_of_optionalDigits? hFraction hNe
      exact ⟨c, hMem.2.2 c hc, hDigit⟩
  · intro c hc
    rcases hMem.1 c hc with hc | rfl | hc
    · exact hLeft c hc
    · decide
    · exact hRight c hc

theorem isBlank_of_mem_readExponent? {s : List Char} {e : Int}
    (h : readExponent? s = some e) : ∀ c ∈ s, isBlank c = false := by
  obtain ⟨ds, hDigits, -⟩ := Option.bind_eq_some_iff.1 h
  obtain ⟨⟨c, hc, -⟩, -⟩ := mem_digits? hDigits
  exact (isWord_of_takeSign
    ⟨List.ne_nil_of_mem hc, isBlank_of_mem_digits? hDigits⟩).not_blank

/-- What is read as an unsigned number is a numeral. -/
theorem isNumeral_of_readNumeral? {s : List Char} {n : Numeral}
    (h : readNumeral? s = some n) : IsNumeral s := by
  rw [readNumeral?] at h
  dsimp only at h
  split at h
  · rename_i hWord
    simp only [Bool.or_eq_true, decide_eq_true_eq] at hWord
    refine isNumeral_of_word ?_
    rcases hWord with hWord | hWord <;> simp [hWord, numberWords]
  · split at h
    · rename_i hWord
      exact isNumeral_of_word (by simp [hWord, numberWords])
    · obtain ⟨r, hSignificand, h⟩ := Option.bind_eq_some_iff.1 h
      obtain ⟨⟨c, hc, hDigit⟩, hPlain⟩ := mem_readSignificand? hSignificand
      rcases cut_cases (fun c => c == 'e' || c == 'E') s with
        ⟨hAll, -⟩ | ⟨left, mark, right, hMark, rfl, hLeft, hRest⟩
      · rw [hAll] at hc hPlain
        exact ⟨hPlain, .inl ⟨c, hc, hDigit⟩⟩
      · rw [hRest] at h
        rw [hLeft] at hc hPlain
        obtain ⟨e, hExponent, -⟩ := Option.bind_eq_some_iff.1 h
        have hRight := isBlank_of_mem_readExponent? hExponent
        have hPlainMark : isBlank mark = false := by
          simp only [Bool.or_eq_true, beq_iff_eq] at hMark
          rcases hMark with rfl | rfl <;> decide
        exact ⟨List.forall_mem_append.2
            ⟨hPlain, List.forall_mem_cons.2 ⟨hPlainMark, hRight⟩⟩,
          .inl ⟨c, List.mem_append_left _ hc, hDigit⟩⟩

/-- What is read as a floating-point number is a word, and a numeral behind its
sign. -/
theorem isNumeral_of_readFloat? {s : List Char} {x : Float}
    (h : readFloat? s = some x) : IsWord (trimPadding s) ∧
      IsNumeral (takeSign (trimPadding s)).2 := by
  obtain ⟨n, hRead, -⟩ := Option.map_eq_some_iff.1 h
  have hNumeral := isNumeral_of_readNumeral? hRead
  exact ⟨isWord_of_takeSign ⟨hNumeral.ne_nil, hNumeral.not_blank⟩, hNumeral⟩

/-- Trimming does not change how a floating-point number is read. -/
theorem readFloat?_trim {s : List Char} {x : Float}
    (h : readFloat? s = some x) : readFloat? (trim s) = some x := by
  rw [← h, readFloat?, trimPadding_trim (isNumeral_of_readFloat? h).1,
    readFloat?]

end StochasticGrammar.Decimal
