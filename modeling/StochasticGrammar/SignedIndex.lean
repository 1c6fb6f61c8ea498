/-!
# Signed positions

A position in a sequence may be counted from either end: `0, 1, …` from the
start and `-1, -2, …` from the end. Rule numbers, ranks and chart positions
are all looked up this way.
-/

namespace StochasticGrammar

/-- The position that a signed position stands for in a sequence of length
`size`. -/
def signedPosition? (size : Nat) : Int → Option Nat
  | .ofNat i => if i < size then some i else none
  | .negSucc i => if i < size then some (size - 1 - i) else none

/-- The element at a signed position of a list. -/
def atSigned? {α : Type} (xs : List α) (i : Int) : Option α :=
  (signedPosition? xs.length i).bind (xs[·]?)

@[simp] theorem atSigned?_ofNat {α : Type} (xs : List α) (i : Nat) :
    atSigned? xs (i : Int) = xs[i]? := by
  show (signedPosition? xs.length (Int.ofNat i)).bind (xs[·]?) = xs[i]?
  by_cases h : i < xs.length
  · simp [signedPosition?, h]
  · simp [signedPosition?, h]

end StochasticGrammar
