import Mathlib.Algebra.Ring.Nat
import Mathlib.Data.List.Induction
import StochasticGrammar.Text.Digit

/-!
# Integers are read as they are written

An integer is written with ASCII digits and perhaps a minus sign.  None of these
characters is a blank, a padding character or an underscore, so the reader takes
the whole text for one sign and one row of digits, and each digit for itself.
The only thing that can go wrong is the number of digits.  What has been read
has no more digits than may be written, so it can be written and read again.

Main results: `readInt?_writeInt`, `isWritable_of_readInt?`.
-/

namespace StochasticGrammar.Text

/-- A text without blanks that is not empty. -/
structure IsWord (s : List Char) : Prop where
  ne_nil : s ≠ []
  not_blank : ∀ c ∈ s, isBlank c = false

instance (s : List Char) : Decidable (IsWord s) :=
  decidable_of_iff (s ≠ [] ∧ s.all (isBlank · = false))
    ⟨fun h => ⟨h.1, by simpa using h.2⟩,
      fun h => ⟨h.ne_nil, by simpa using h.not_blank⟩⟩

/-! ## Written digits -/

/-- What holds of the ten written digits holds of each. -/
theorem of_digitChar {P : Char → Prop}
    (h : ∀ d ∈ List.range 10, P (digitChar d)) {d : Nat} (hd : d < 10) :
    P (digitChar d) :=
  h d (List.mem_range.2 hd)

/-- Written digits are neither blanks nor the marks that may stand beside
digits. -/
theorem digitChar_plain {d : Nat} (h : d < 10) :
    isBlank (digitChar d) = false ∧ digitChar d ≠ '_' ∧
      digitChar d ≠ '-' ∧ digitChar d ≠ '+' :=
  of_digitChar (P := fun c => isBlank c = false ∧ c ≠ '_' ∧ c ≠ '-' ∧ c ≠ '+')
    (by decide) h

theorem natDigits_ne_nil (n : Nat) : natDigits n ≠ [] := by
  rw [natDigits]
  split <;> simp

/-- A number below a power of ten has no more digits than the exponent. -/
theorem length_natDigits_le {k : Nat} :
    ∀ {n : Nat}, n < 10 ^ k → 0 < k → (natDigits n).length ≤ k := by
  induction k with
  | zero =>
      intro n _ hPos
      omega
  | succ k ih =>
      intro n hLt _
      rw [natDigits]
      split
      · simp
      · rename_i hBig
        have hDiv : n / 10 < 10 ^ k := by
          rw [Nat.pow_succ] at hLt
          omega
        have hPos : 0 < k := by
          rcases Nat.eq_zero_or_pos k with rfl | hPos
          · simp at hLt
            omega
          · exact hPos
        have hRest := ih hDiv hPos
        simp only [List.length_append, List.length_singleton]
        omega

/-- Digits stand for a number below the power of ten that their count
gives. -/
theorem digitsValue_lt {ds : List Nat} (h : ∀ d ∈ ds, d < 10) :
    digitsValue ds < 10 ^ ds.length := by
  induction ds using List.reverseRecOn with
  | nil => simp [digitsValue]
  | append_singleton ds d ih =>
      have hRest := ih fun x hx => h x (by simp [hx])
      have hLast : d < 10 := h d (by simp)
      rw [digitsValue_append, List.length_append, List.length_singleton,
        Nat.pow_succ]
      omega

theorem mem_writeNat {n : Nat} {c : Char} (h : c ∈ writeNat n) :
    ∃ d < 10, c = digitChar d := by
  obtain ⟨d, hd, rfl⟩ := List.mem_map.1 h
  exact ⟨d, lt_ten_of_mem_natDigits hd, rfl⟩

theorem mem_writeInt {i : Int} {c : Char} (h : c ∈ writeInt i) :
    c = '-' ∨ ∃ d < 10, c = digitChar d := by
  cases i with
  | ofNat n => exact .inr (mem_writeNat h)
  | negSucc n => exact (List.mem_cons.1 h).imp_right mem_writeNat

theorem isWord_writeNat (n : Nat) : IsWord (writeNat n) where
  ne_nil := by simp [writeNat, natDigits_ne_nil]
  not_blank c hc := by
    obtain ⟨d, hd, rfl⟩ := mem_writeNat hc
    exact (digitChar_plain hd).1

theorem isWord_writeInt (i : Int) : IsWord (writeInt i) := by
  cases i with
  | ofNat n => exact isWord_writeNat n
  | negSucc n =>
      refine ⟨by simp [writeInt], fun c hc => ?_⟩
      rcases List.mem_cons.1 hc with rfl | hc
      · decide
      · exact (isWord_writeNat (n + 1)).not_blank c hc

/-! ## Reading -/

theorem digitsTail?_map_digitChar {ds : List Nat} (h : ∀ d ∈ ds, d < 10) :
    digitsTail? (ds.map digitChar) = some ds := by
  induction ds with
  | nil => rfl
  | cons d ds ih =>
      have hd : d < 10 := h d (by simp)
      have hTail := ih fun x hx => h x (by simp [hx])
      rw [List.map_cons, digitsTail?, digit?_digitChar hd, hTail]
      · rfl
      · intro c s hMark _
        exact (digitChar_plain hd).2.1 hMark

theorem digits?_map_digitChar {ds : List Nat} (hNe : ds ≠ [])
    (h : ∀ d ∈ ds, d < 10) : digits? (ds.map digitChar) = some ds := by
  cases ds with
  | nil => exact absurd rfl hNe
  | cons d ds =>
      rw [List.map_cons, digits?, digit?_digitChar (h d (by simp)),
        digitsTail?_map_digitChar fun x hx => h x (by simp [hx])]
      rfl

theorem digits?_writeNat (n : Nat) :
    digits? (writeNat n) = some (natDigits n) :=
  digits?_map_digitChar (natDigits_ne_nil n) fun _ hd =>
    lt_ten_of_mem_natDigits hd

theorem writeNat_injective : Function.Injective writeNat := by
  intro m n h
  have hDigits := congrArg digits? h
  rw [digits?_writeNat, digits?_writeNat, Option.some.injEq] at hDigits
  have hValue := congrArg digitsValue hDigits
  rwa [digitsValue_natDigits, digitsValue_natDigits] at hValue

/-- Nothing is taken off a word. -/
theorem trimPadding_of_isWord {s : List Char} (h : IsWord s) :
    trimPadding s = s := by
  have hPlain : ∀ c ∈ s, isPadding c = false := by
    intro c hc
    simp [isPadding, h.not_blank c hc]
  have hLeft : ∀ t : List Char, (∀ c ∈ t, isPadding c = false) →
      t.dropWhile isPadding = t := by
    intro t ht
    cases t with
    | nil => rfl
    | cons c t => rw [List.dropWhile_cons_of_neg (by simp [ht c (by simp)])]
  rw [trimPadding, hLeft s hPlain, hLeft s.reverse, List.reverse_reverse]
  intro c hc
  exact hPlain c (List.mem_reverse.1 hc)

/-- A digit is no sign. -/
theorem takeSign_digitChar {d : Nat} (h : d < 10) (s : List Char) :
    takeSign (digitChar d :: s) = (false, digitChar d :: s) := by
  have hPlain := digitChar_plain h
  unfold takeSign
  split
  · rename_i hMinus
    exact absurd (List.cons.inj hMinus).1 hPlain.2.2.1
  · rename_i hPlus
    exact absurd (List.cons.inj hPlus).1 hPlain.2.2.2
  · rfl

theorem takeSign_writeNat (n : Nat) :
    takeSign (writeNat n) = (false, writeNat n) := by
  cases hText : writeNat n with
  | nil => rfl
  | cons c s =>
      obtain ⟨d, hd, rfl⟩ := mem_writeNat (n := n) (c := c) (by simp [hText])
      exact takeSign_digitChar hd s

theorem takeSign_writeInt (i : Int) :
    takeSign (writeInt i) = (decide (i < 0), writeNat i.natAbs) := by
  cases i with
  | ofNat n =>
      have hSign : decide (Int.ofNat n < 0) = false := by simp
      rw [hSign]
      exact takeSign_writeNat n
  | negSucc n =>
      have hSign : decide (Int.negSucc n < 0) = true := by simp
      rw [hSign]
      rfl

theorem writeInt_injective : Function.Injective writeInt := by
  intro i j h
  have hSign := congrArg takeSign h
  rw [takeSign_writeInt, takeSign_writeInt, Prod.mk.injEq,
    decide_eq_decide] at hSign
  have hAbs := writeNat_injective hSign.2
  omega

theorem isWritable_iff {i : Int} :
    isWritable i = true ↔ i.natAbs < 10 ^ maxIntegerDigits := by
  unfold isWritable unreadableNumber
  -- so that the power is not computed
  generalize maxIntegerDigits = k
  exact decide_eq_true_iff

/-- An integer that may be written is read as it is written. -/
theorem readInt?_writeInt {i : Int} (h : isWritable i = true) :
    readInt? (writeInt i) = some i := by
  have hPos : 0 < maxIntegerDigits := by decide
  have hLength := length_natDigits_le (isWritable_iff.1 h) hPos
  rw [readInt?, trimPadding_of_isWord (isWord_writeInt i), takeSign_writeInt]
  simp only [digits?_writeNat, Option.bind_eq_bind, Option.bind_some,
    if_pos hLength, digitsValue_natDigits, decide_eq_true_eq, Option.some.injEq]
  split <;> omega

theorem digit?_lt {c : Char} {d : Nat} (h : digit? c = some d) : d < 10 := by
  obtain ⟨first, hFind, rfl⟩ := Option.map_eq_some_iff.1 h
  have hRange := List.find?_some hFind
  simp only [Bool.and_eq_true, decide_eq_true_eq] at hRange
  omega

theorem digitsTail?_lt (s : List Char) :
    ∀ {ds : List Nat}, digitsTail? s = some ds → ∀ d ∈ ds, d < 10 := by
  induction s using digitsTail?.induct with
  | case1 =>
      intro ds h
      cases h
      simp
  | case2 c s ih =>
      intro ds h
      rw [digitsTail?] at h
      obtain ⟨d, hd, h⟩ := Option.bind_eq_some_iff.1 h
      obtain ⟨rest, hRest, h⟩ := Option.bind_eq_some_iff.1 h
      cases h
      exact List.forall_mem_cons.2 ⟨digit?_lt hd, ih hRest⟩
  | case3 c s hMark ih =>
      intro ds h
      rw [digitsTail?] at h
      · obtain ⟨d, hd, h⟩ := Option.bind_eq_some_iff.1 h
        obtain ⟨rest, hRest, h⟩ := Option.bind_eq_some_iff.1 h
        cases h
        exact List.forall_mem_cons.2 ⟨digit?_lt hd, ih hRest⟩
      · exact hMark

theorem digits?_lt {s : List Char} {ds : List Nat} (h : digits? s = some ds) :
    ∀ d ∈ ds, d < 10 := by
  cases s with
  | nil => cases h
  | cons c s =>
      obtain ⟨d, hd, h⟩ := Option.bind_eq_some_iff.1 h
      obtain ⟨rest, hRest, h⟩ := Option.bind_eq_some_iff.1 h
      cases h
      exact List.forall_mem_cons.2 ⟨digit?_lt hd, digitsTail?_lt s hRest⟩

/-- An integer that was read may be written. -/
theorem isWritable_of_readInt? {s : List Char} {i : Int}
    (h : readInt? s = some i) : isWritable i = true := by
  obtain ⟨ds, hDigits, h⟩ := Option.bind_eq_some_iff.1 h
  split at h
  · rename_i hLength
    have hValue : digitsValue ds < 10 ^ maxIntegerDigits :=
      Nat.lt_of_lt_of_le (digitsValue_lt (digits?_lt hDigits))
        (Nat.pow_le_pow_right (by decide) hLength)
    have hAbs : i.natAbs = digitsValue ds := by
      simp only [Option.some.injEq] at h
      split at h <;> omega
    rwa [isWritable_iff, hAbs]
  · cases h

end StochasticGrammar.Text
