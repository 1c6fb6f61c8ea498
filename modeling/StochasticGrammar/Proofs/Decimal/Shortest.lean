import StochasticGrammar.Decimal.Shortest
import StochasticGrammar.Proofs.Text.Integer

/-!
# The text of a number is one word

A number is written with digits, a point, an exponent letter and signs, or as
one of three words.  None of these characters is blank, so the fields of a rule
line can be told apart, and none of them starts a comment.

Main results: `isWord_floatText`, `comment_notMem_floatText`.
-/

namespace StochasticGrammar.Decimal

open Text

/-- Nothing in a text is blank or starts a comment. -/
def Solid (s : List Char) : Prop := ∀ c ∈ s, isBlank c = false ∧ c ≠ '#'

instance (s : List Char) : Decidable (Solid s) :=
  List.decidableBAll (fun c => isBlank c = false ∧ c ≠ '#') s

theorem Solid.cons {c : Char} {s : List Char}
    (hc : isBlank c = false ∧ c ≠ '#') (hs : Solid s) : Solid (c :: s) :=
  List.forall_mem_cons.2 ⟨hc, hs⟩

theorem Solid.append {s t : List Char} (hs : Solid s) (ht : Solid t) :
    Solid (s ++ t) :=
  List.forall_mem_append.2 ⟨hs, ht⟩

theorem solid_replicate (n : Nat) {c : Char}
    (hc : isBlank c = false ∧ c ≠ '#') : Solid (List.replicate n c) := by
  intro x hx
  rw [List.eq_of_mem_replicate hx]
  exact hc

theorem digitChar_ne_comment {d : Nat} (h : d < 10) : digitChar d ≠ '#' :=
  of_digitChar (P := (· ≠ '#')) (by decide) h

theorem solid_digitsText {ds : List Nat} (h : ∀ d ∈ ds, d < 10) :
    Solid (digitsText ds) := by
  intro c hc
  obtain ⟨d, hd, rfl⟩ := List.mem_map.1 hc
  exact ⟨(digitChar_plain (h d hd)).1, digitChar_ne_comment (h d hd)⟩

theorem solid_writeNat (n : Nat) : Solid (writeNat n) := by
  intro c hc
  obtain ⟨d, hd, rfl⟩ := mem_writeNat hc
  exact ⟨(digitChar_plain hd).1, digitChar_ne_comment hd⟩

/-! ## Digits -/

theorem lt_ten_of_mem_shortestDigits {mantissa : Nat} {exponent : Int} {d : Nat}
    (h : d ∈ (shortestDigits mantissa exponent).digits) : d < 10 := by
  -- the zeros at the end of the row were dropped
  have hRow := (List.dropWhile_sublist _).subset (List.mem_reverse.1 h)
  exact lt_ten_of_mem_natDigits (List.mem_reverse.1 hRow)

theorem solid_take {ds : List Nat} (h : ∀ d ∈ ds, d < 10) (k : Nat) :
    Solid (digitsText (ds.take k)) :=
  solid_digitsText fun d hd => h d (List.mem_of_mem_take hd)

theorem solid_drop {ds : List Nat} (h : ∀ d ∈ ds, d < 10) (k : Nat) :
    Solid (digitsText (ds.drop k)) :=
  solid_digitsText fun d hd => h d (List.mem_of_mem_drop hd)

theorem solid_positional {d : Digits} (h : ∀ x ∈ d.digits, x < 10) :
    Solid (positional d) := by
  unfold positional
  dsimp only
  split
  · exact (Solid.append (by decide) (solid_replicate _ (by decide))).append
      (solid_digitsText h)
  · split
    · exact ((solid_digitsText h).append (solid_replicate _ (by decide))).append
        (by decide)
    · exact (solid_take h _).append ((solid_drop h _).cons (by decide))

theorem positional_ne_nil (d : Digits) : positional d ≠ [] := by
  unfold positional
  dsimp only
  split
  · simp
  · split <;> simp

theorem solid_exponentText (e : Int) : Solid (exponentText e) := by
  have hDigits := solid_writeNat e.natAbs
  unfold exponentText
  refine Solid.cons ?_ ?_
  · split <;> decide
  · split
    · exact Solid.cons (by decide) hDigits
    · exact hDigits

theorem solid_scientific {d : Digits} (h : ∀ x ∈ d.digits, x < 10) :
    Solid (scientific d) := by
  have hExponent : Solid ('e' :: exponentText (d.point - 1)) :=
    (solid_exponentText _).cons (by decide)
  unfold scientific
  dsimp only
  split
  · rw [List.append_nil]
    exact (solid_take h 1).append hExponent
  · have hFraction := (solid_drop h 1).cons (c := '.') (by decide)
    exact ((solid_take h 1).append hFraction).append hExponent

theorem scientific_ne_nil (d : Digits) : scientific d ≠ [] := by
  simp [scientific]

/-! ## Numbers -/

theorem magnitudeText_ne_nil (mantissa : Nat) (exponent : Int) :
    magnitudeText mantissa exponent ≠ [] := by
  unfold magnitudeText
  split
  · decide
  · dsimp only
    split
    · exact positional_ne_nil _
    · exact scientific_ne_nil _

theorem solid_magnitudeText (mantissa : Nat) (exponent : Int) :
    Solid (magnitudeText mantissa exponent) := by
  have hDigits : ∀ d ∈ (shortestDigits mantissa exponent).digits, d < 10 :=
    fun _ hd => lt_ten_of_mem_shortestDigits hd
  unfold magnitudeText
  split
  · decide
  · dsimp only
    split
    · exact solid_positional hDigits
    · exact solid_scientific hDigits

theorem floatText_ne_nil (x : Float) : floatText x ≠ [] := by
  unfold floatText Binary64.text
  split
  · decide
  · split <;> decide
  · simp [magnitudeText_ne_nil]

theorem solid_floatText (x : Float) : Solid (floatText x) := by
  unfold floatText Binary64.text
  split
  · decide
  · split <;> decide
  · refine Solid.append ?_ (solid_magnitudeText _ _)
    split <;> decide

/-- The text of a number is one word. -/
theorem isWord_floatText (x : Float) : IsWord (floatText x) :=
  ⟨floatText_ne_nil x, fun c hc => (solid_floatText x c hc).1⟩

/-- The text of a number holds no comment. -/
theorem comment_notMem_floatText (x : Float) : '#' ∉ floatText x :=
  fun hc => (solid_floatText x '#' hc).2 rfl

end StochasticGrammar.Decimal
