import StochasticGrammar.LinearAlgebra.Matrix

/-!
# The condition of a matrix

The condition number of a matrix is the quotient of its largest and smallest
singular values. The singular values are found by turning pairs of columns
until all columns are orthogonal; then they are the lengths of the columns.

The matrix is multiplied by a power of two first, which changes no quotient, so
that the squares of its entries stay within the range of the numbers.
-/

namespace StochasticGrammar.Condition

/-- A column of a matrix. -/
abbrev Column := Array Float

/-- The inner product of two columns. -/
def dot (x y : Column) : Float :=
  (x.zip y).foldl (fun total (a, b) => total + a * b) 0

/-- The combination `c * x + s * y` of two columns. -/
def combine (c s : Float) (x y : Column) : Column :=
  x.zipWith (fun a b => c * a + s * b) y

/-- The tangent of the smaller angle that makes two columns orthogonal, from
the cotangent of twice the angle. For a steep one the square is left out, which
could be too large. -/
def tangent (slope : Float) : Float :=
  if 1e100 < slope.abs then 0.5 / slope
  else
    let sign : Float := if slope < 0 then -1 else 1
    sign / (slope.abs + (1 + slope * slope).sqrt)

/-- Turns two columns so that they become orthogonal. -/
def orthogonalize (columns : Array Column) (p q : Nat) : Array Column :=
  let x := columns[p]?.getD #[]
  let y := columns[q]?.getD #[]
  let product := dot x y
  if product == 0 then columns
  else
    let t := tangent ((dot y y - dot x x) / (2 * product))
    let c := 1 / (1 + t * t).sqrt
    let s := c * t
    (columns.setIfInBounds p (combine c (-s) x y)).setIfInBounds q
      (combine s c x y)

/-- Turns every pair of columns once. -/
def sweep (columns : Array Column) : Array Column :=
  (List.range columns.size).foldl
    (fun columns p =>
      (List.range (columns.size - (p + 1))).foldl
        (fun columns d => orthogonalize columns p (p + 1 + d)) columns)
    columns

/-- How often all pairs of columns are turned. Each sweep squares the angles
that are left, so this is more than enough. -/
def sweeps : Nat := 40

/-- The binary exponent of the largest entry once a matrix is scaled. -/
def scaledExponent : Int := 500

/-- The columns of a matrix, multiplied by a power of two. -/
def scaledColumns {n : Nat} (a : Mat Float n n) : Array Column :=
  let largest := a.toArray.foldl
    (fun m row => row.toArray.foldl
      (fun m x => if m < x.abs then x.abs else m) m) 0
  let shift := scaledExponent - largest.frExp.2
  Array.ofFn fun j : Fin n => Array.ofFn fun i : Fin n =>
    (a.entry i j).scaleB shift

/-- The singular values of a square matrix up to a common factor, in no
particular order. -/
def singularValues {n : Nat} (a : Mat Float n n) : Array Float :=
  let columns := scaledColumns a
  ((List.range sweeps).foldl (fun columns _ => sweep columns) columns).map
    fun x => (dot x x).sqrt

/-- The quotient of the largest and the smallest singular value; infinite if
the smallest is zero. -/
def conditionNumber {n : Nat} (a : Mat Float n n) : Float :=
  let values := singularValues a
  let first := values[0]?.getD 1
  let largest := values.foldl (fun m x => if m < x then x else m) first
  let smallest := values.foldl (fun m x => if x < m then x else m) first
  if smallest == 0 then 1 / 0 else largest / smallest

end StochasticGrammar.Condition
