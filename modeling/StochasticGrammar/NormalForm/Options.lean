import StochasticGrammar.LinearAlgebra.Condition
import StochasticGrammar.LinearAlgebra.Elimination
import StochasticGrammar.NormalForm.LeastSquares
import StochasticGrammar.Settings.Basic

/-!
# What the conversion depends on

The conversion to normal form is the same for all kinds of numbers. What it
takes from outside are the limits of its fit, two switches, and the procedures
that solve linear systems (`Options`).

For floating-point numbers these procedures are themselves given from outside
(`LinearAlgebra`), and any of them may fail. `Settings.options` has the
conversion test a system by the condition number that they find for it;
`LinearAlgebra.standard` are procedures to run it with.
-/

namespace StochasticGrammar

namespace NormalForm

/-- What a test of the system of unit rules finds. -/
inductive Verdict where
  /-- The system can be solved. -/
  | regular
  /-- The system is singular, or too close to it. -/
  | singular
  /-- The test itself fails. -/
  | undefined
  deriving DecidableEq, Repr

/-- What the conversion depends on. -/
structure Options (α : Type) where
  /-- The limits of the fit. -/
  limits : FitLimits α
  /-- Fail on a fit that has not converged. -/
  strict : Bool
  /-- Add up the probabilities of duplicate rules. -/
  mergeDuplicates : Bool
  /-- Solves the systems of the fit. -/
  solveStep : StepSolver α
  /-- Tests the system of unit rules. -/
  verdict : (n : Nat) → Mat α n n → Verdict
  /-- Solves the system of unit rules. -/
  solveUnits : (n m : Nat) → Mat α n n → Mat α n m → Option (Mat α n m)
  /-- Whether a number is finite. -/
  isFinite : α → Bool

/-- Whether a condition is satisfied by some entry of a matrix. -/
def anyEntry {α : Type} {n m : Nat} (p : α → Bool) (a : Mat α n m) : Bool :=
  a.any fun row => row.any p

end NormalForm

/-- The procedures of linear algebra that the conversion of floating-point
grammars calls. Each of them gives nothing if it fails. -/
structure LinearAlgebra where
  /-- The condition number of a matrix. -/
  condition? : (n : Nat) → Mat Float n n → Option Float
  /-- The solution of a system. -/
  solveVec? : (n : Nat) → Mat Float n n → Vec Float n → Option (Vec Float n)
  /-- The solution of a system for several right sides. -/
  solve? : (n m : Nat) → Mat Float n n → Mat Float n m → Option (Mat Float n m)

namespace LinearAlgebra

/-- Tests a system: its condition number has to be found, and must not be too
large. A system without equations has the condition number 1. -/
def verdict (l : LinearAlgebra) (minRcond : Float) (n : Nat)
    (a : Mat Float n n) : NormalForm.Verdict :=
  match if n = 0 then some 1 else l.condition? n a with
  | none => .undefined
  | some condition =>
    if !condition.isFinite || 1 / condition < minRcond then .singular
    else .regular

/-- Elimination with the largest pivot, and the quotient of the largest and the
smallest singular value. There is none if an entry is not a number, and it is
infinite if an entry is. -/
def standard : LinearAlgebra where
  condition? _ a :=
    if NormalForm.anyEntry Float.isNaN a then none
    else if NormalForm.anyEntry Float.isInf a then some (1 / 0)
    else some (Condition.conditionNumber a)
  solveVec? _ a b := Elimination.solveVec? a b
  solve? _ _ a b := Elimination.solve? a b

end LinearAlgebra

/-- What the conversion of floating-point grammars depends on. -/
def Settings.options (s : Settings)
    (l : LinearAlgebra := .standard) : NormalForm.Options Float where
  limits := ⟨s.solverMaxIterations, s.solverMaxEvaluations, s.solverTolerance⟩
  strict := s.strictSolver
  mergeDuplicates := s.mergeDuplicateRules
  solveStep := fun _ n a b => l.solveVec? n a b
  verdict := l.verdict s.minRcond
  solveUnits := l.solve?
  isFinite := Float.isFinite

end StochasticGrammar
