import StochasticGrammar.LinearAlgebra.Matrix

/-!
# Solving linear systems

A square system is solved by elimination: in each column the entry of largest
magnitude among the rows left is the pivot, and multiples of its row are
subtracted from the rows below. A column whose pivot is zero makes the system
singular, and there is no solution. The triangular system that remains is
solved from the last row to the first, for all right sides at once.

The rows are arrays that hold the entries of the system and, after them, those
of the right sides.
-/

namespace StochasticGrammar.Elimination

/-- A row of the system with its right sides. -/
abbrev Row := Array Float

/-- The entry of a row in a column. -/
def at' (row : Row) (j : Nat) : Float := row[j]?.getD 0

/-- The position of the row with the largest magnitude in a column, among the
rows from `k` on. -/
def pivotRow (rows : Array Row) (k : Nat) : Nat :=
  (List.range rows.size).foldl
    (fun best i =>
      if k ≤ i && (at' (rows[best]?.getD #[]) k).abs <
          (at' (rows[i]?.getD #[]) k).abs then i
      else best) k

/-- A row less a multiple of the pivot row, from column `k` on. -/
def subtract (row pivot : Row) (k : Nat) (factor : Float) : Row :=
  row.mapIdx fun j x => if j < k then x else x - factor * at' pivot j

/-- Eliminates column `k` from the rows below row `k`; nothing if the pivot is
zero. -/
def eliminate? (rows : Array Row) (k : Nat) : Option (Array Row) :=
  let rows := rows.swapIfInBounds k (pivotRow rows k)
  let pivot := rows[k]?.getD #[]
  let head := at' pivot k
  if head == 0 then none
  else
    some (rows.mapIdx fun i row =>
      if i ≤ k then row else subtract row pivot k (at' row k / head))

/-- The value of unknown `i` for one right side, given those after it. -/
def unknown (n : Nat) (row : Row) (i c : Nat) (later : Array Row) : Float :=
  let known := (List.range (n - 1 - i)).foldl
    (fun total d =>
      total - at' row (i + 1 + d) * at' (later[d]?.getD #[]) c)
    (at' row (n + c))
  known / at' row i

/-- Solves a triangular system: the rows of the solution from `i` on. -/
def backSubstitute (n m : Nat) (rows : Array Row) : Nat → Array Row
  | 0 => #[]
  | count + 1 =>
    let later := backSubstitute n m rows count
    let i := n - 1 - count
    let row := rows[i]?.getD #[]
    #[Array.ofFn fun c : Fin m => unknown n row i c later] ++ later

/-- The solution of `a x = b` for all columns of `b`, if no pivot is zero. -/
def solve? {n m : Nat} (a : Mat Float n n) (b : Mat Float n m) :
    Option (Mat Float n m) := do
  let rows : Array Row :=
    Array.ofFn fun i : Fin n => (a.row i).toArray ++ (b.row i).toArray
  let triangular ← (List.range n).foldlM eliminate? rows
  let solution := backSubstitute n m triangular n
  some (.ofFn fun i j => at' (solution[i.val]?.getD #[]) j)

/-- The solution of `a x = b`, if no pivot is zero. -/
def solveVec? {n : Nat} (a : Mat Float n n) (b : Vec Float n) :
    Option (Vec Float n) :=
  (solve? a (.ofFn fun i (_ : Fin 1) => b.entry i)).map fun x =>
    .ofFn fun i => x.entry i 0

end StochasticGrammar.Elimination
