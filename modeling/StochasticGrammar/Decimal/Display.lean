import StochasticGrammar.Decimal.Fixed

/-!
# Probabilities for people

A probability is shown with a bounded number of decimals. Zeros at the end of
the text are dropped, then a point that is left at the end; if nothing is left,
a zero is shown. Zeros are dropped wherever they stand, so without decimals a
whole number loses its last zeros too.

Main results: what is shown is not empty (`trimZeros_ne_nil`), and a text that
ends in neither a zero nor a point stays as it is (`trimZeros_eq_self`).
-/

namespace StochasticGrammar.Decimal

/-- Drops the zeros and then the point at the end of a text; a zero stands for
what would be empty. -/
def trimZeros (s : List Char) : List Char :=
  match dropRightWhile (· == '.') (dropRightWhile (· == '0') s) with
  | [] => ['0']
  | c :: rest => c :: rest

/-- How many decimals are shown by default. -/
def defaultPlaces : Nat := 6

/-- A probability for people. -/
def displayText (places : Nat) (x : Float) : String :=
  String.ofList (trimZeros (fixedText places x))

/-- What is shown is not empty. -/
theorem trimZeros_ne_nil (s : List Char) : trimZeros s ≠ [] := by
  unfold trimZeros
  split <;> simp

theorem dropRightWhile_concat {p : Char → Bool} {c : Char}
    (h : p c = false) (s : List Char) :
    dropRightWhile p (s ++ [c]) = s ++ [c] := by
  simp [dropRightWhile, h]

/-- A text that ends in neither a zero nor a point stays as it is. -/
theorem trimZeros_eq_self {c : Char} (hZero : c ≠ '0') (hPoint : c ≠ '.')
    (s : List Char) : trimZeros (s ++ [c]) = s ++ [c] := by
  unfold trimZeros
  rw [dropRightWhile_concat (by simpa using hZero),
    dropRightWhile_concat (by simpa using hPoint)]
  split
  · rename_i h
    simp at h
  · rename_i h
    exact h.symm

end StochasticGrammar.Decimal
