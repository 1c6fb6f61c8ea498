import StochasticGrammar.NormalForm.ErasureSystem

/-!
# Fitting the erasure probabilities

The equations are solved by nonlinear least squares from the starting point
`1/2`, with Marquardt's damping: a step solves `(h + λ d) δ = -g`, where `g`
and `h` are the gradient and the approximate second derivative of the sum of
squares and `d` is the diagonal of `h`, kept away from zero. A step that makes
the sum smaller is taken and `λ` is lowered; any other is rejected and `λ` is
raised.

The fit ends when the largest residual is small, when the iterations or the
evaluations are used up, or when `λ` has grown beyond its limit without a step
that helps. Systems are solved by a procedure that may fail, and that is told
how many times it was called before.

Main results: the sum of squares that is kept is that of the point that is
kept (`Fit.Consistent`), for every procedure.
-/

namespace StochasticGrammar.NormalForm

variable {α : Type} {n : Nat}

/-- How the linear systems of the fit are solved: by the number of earlier
calls, the matrix and the right side. -/
abbrev StepSolver (α : Type) :=
  (calls n : Nat) → Mat α n n → Vec α n → Option (Vec α n)

/-- What a fit may use up, and when it is good enough. -/
structure FitLimits (α : Type) where
  /-- How many iterations it may take. -/
  maxIterations : Int
  /-- How often it may evaluate the equations. -/
  maxEvaluations : Int
  /-- The largest residual that ends it. -/
  tolerance : α

/-- The state of a fit. -/
structure Fit (α : Type) (n : Nat) where
  /-- The point that is kept. -/
  x : Vec α n
  /-- The residual at the point. -/
  r : Vec α n
  /-- The sum of squares of the residual. -/
  cost : α
  /-- The damping. -/
  damping : α
  /-- How many iterations were begun. -/
  iterations : Nat
  /-- How often the equations were evaluated. -/
  evaluations : Nat
  /-- How often a system was to be solved. -/
  calls : Nat

/-- The magnitude of a number. -/
def magnitude [Zero α] [Neg α] [LT α] [DecidableLT α] (x : α) : α :=
  if x < 0 then -x else x

/-- The largest of a list of numbers, the first being `m`. A number that is not
comparable with itself is kept once it is met. -/
def largestFrom [LE α] [DecidableLE α] (m : α) : List α → α
  | [] => m
  | x :: rest =>
    largestFrom (if x ≤ m then m else if m ≤ m then x else m) rest

/-- The largest magnitude in a vector; zero if it is empty. -/
def largestMagnitude [Zero α] [Neg α] [LT α] [DecidableLT α] [LE α]
    [DecidableLE α] (x : Vec α n) : α :=
  match x.toList.map magnitude with
  | [] => 0
  | m :: rest => largestFrom m rest

section Steps

variable [Zero α] [One α] [Add α] [Sub α] [Neg α] [Mul α] [Div α]
  [OfScientific α] [LT α] [DecidableLT α] [LE α] [DecidableLE α]

/-- The starting point. -/
def fitStart (n : Nat) : Vec α n := .ofFn fun _ => (0.5 : α)

/-- The damping at the beginning. -/
def firstDamping : α := (1e-3 : α)

/-- The damping beyond which no step is tried. -/
def lastDamping : α := (1e16 : α)

/-- The damping after a step that helped. -/
def lowered (damping : α) : α :=
  let next := damping / (10.0 : α)
  if next < (1e-15 : α) then (1e-15 : α) else next

/-- The damping after a step that did not help. -/
def raised (damping : α) : α := damping * (10.0 : α)

/-- Enough tries to raise the damping from its least value beyond its limit. -/
def maxTries : Nat := 40

/-- The fit before the first iteration. -/
def Fit.start (s : ErasureSystem α n) : Fit α n :=
  let r := s.residual (fitStart n)
  ⟨fitStart n, r, r.dot r, firstDamping, 0, 1, 0⟩

/-- The system for a step, and its right side. -/
def dampedSystem (s : ErasureSystem α n) (f : Fit α n) :
    Mat α n n × Vec α n :=
  let j := s.jacobian f.x
  let g := j.transposeMulVec f.r
  let h := j.gram
  let scale (i : Fin n) : α :=
    if h.entry i i < (1e-12 : α) then (1e-12 : α) else h.entry i i
  (.ofFn fun i k =>
      h.entry i k + f.damping * (if i = k then scale i else 0),
    .ofFn fun i => -g.entry i)

/-- One try: a state in which a step has been taken, or one with a higher
damping. -/
def tryStep (solver : StepSolver α) (s : ErasureSystem α n) (f : Fit α n) :
    Bool × Fit α n :=
  let (a, b) := dampedSystem s f
  let f : Fit α n := { f with calls := f.calls + 1 }
  match solver (f.calls - 1) n a b with
  | none => (false, { f with damping := raised f.damping })
  | some step =>
    let x : Vec α n := .ofFn fun i => f.x.entry i + step.entry i
    let r := s.residual x
    let cost := r.dot r
    let f : Fit α n := { f with evaluations := f.evaluations + 1 }
    if cost < f.cost then
      (true,
        { f with x := x, r := r, cost := cost, damping := lowered f.damping })
    else (false, { f with damping := raised f.damping })

/-- Tries steps until one is taken, the evaluations are used up or the damping
is too high; tells whether one was taken. -/
def trySteps (solver : StepSolver α) (limits : FitLimits α)
    (s : ErasureSystem α n) : Nat → Fit α n → Bool × Fit α n
  | 0, f => (false, f)
  | tries + 1, f =>
    if (f.evaluations : Int) < limits.maxEvaluations ∧
        f.damping ≤ lastDamping then
      let (taken, f) := tryStep solver s f
      if taken then (true, f) else trySteps solver limits s tries f
    else (false, f)

/-- Iterates until the fit ends; at most a number of times. -/
def iterate (solver : StepSolver α) (limits : FitLimits α)
    (s : ErasureSystem α n) : Nat → Fit α n → Fit α n
  | 0, f => f
  | left + 1, f =>
    if (f.evaluations : Int) < limits.maxEvaluations then
      if largestMagnitude f.r ≤ limits.tolerance then f
      else
        let f : Fit α n := { f with iterations := f.iterations + 1 }
        let (taken, f) := trySteps solver limits s maxTries f
        if taken then iterate solver limits s left f else f
    else f

/-- The fit at its end. -/
def Fit.solve (solver : StepSolver α) (limits : FitLimits α)
    (s : ErasureSystem α n) : Fit α n :=
  iterate solver limits s limits.maxIterations.toNat (.start s)

/-- The largest residual at the point that is kept. -/
def Fit.residual (f : Fit α n) : α := largestMagnitude f.r

/-! ## The state describes its point -/

/-- The residual and the sum of squares of a state are those of its point. -/
structure Fit.Consistent (s : ErasureSystem α n) (f : Fit α n) : Prop where
  residual_eq : f.r = s.residual f.x
  cost_eq : f.cost = f.r.dot f.r

omit [Neg α] [Div α] [LT α] [DecidableLT α] [LE α] [DecidableLE α] in
theorem Fit.Consistent.start (s : ErasureSystem α n) :
    (Fit.start s).Consistent s := ⟨rfl, rfl⟩

omit [LE α] [DecidableLE α] in
theorem Fit.Consistent.tryStep {s : ErasureSystem α n} {f : Fit α n}
    (h : f.Consistent s) (solver : StepSolver α) :
    (tryStep solver s f).2.Consistent s := by
  unfold NormalForm.tryStep
  simp only
  split
  · exact ⟨h.residual_eq, h.cost_eq⟩
  · split
    · exact ⟨rfl, rfl⟩
    · exact ⟨h.residual_eq, h.cost_eq⟩

theorem Fit.Consistent.trySteps {s : ErasureSystem α n}
    (solver : StepSolver α) (limits : FitLimits α) (tries : Nat)
    {f : Fit α n} (h : f.Consistent s) :
    (trySteps solver limits s tries f).2.Consistent s := by
  induction tries generalizing f with
  | zero => exact h
  | succ tries ih =>
    unfold NormalForm.trySteps
    split
    · have hTry := h.tryStep solver
      simp only
      split
      · exact hTry
      · exact ih hTry
    · exact h

theorem Fit.Consistent.iterate {s : ErasureSystem α n}
    (solver : StepSolver α) (limits : FitLimits α) (left : Nat)
    {f : Fit α n} (h : f.Consistent s) :
    (iterate solver limits s left f).Consistent s := by
  induction left generalizing f with
  | zero => exact h
  | succ left ih =>
    unfold NormalForm.iterate
    split
    · split
      · exact h
      · have hNext :
            Fit.Consistent s { f with iterations := f.iterations + 1 } :=
          ⟨h.residual_eq, h.cost_eq⟩
        have hTries := Fit.Consistent.trySteps solver limits maxTries hNext
        simp only
        split
        · exact ih hTries
        · exact hTries
    · exact h

/-- What a fit ends with is the residual of the point it ends with. -/
theorem Fit.consistent_solve (solver : StepSolver α) (limits : FitLimits α)
    (s : ErasureSystem α n) : (Fit.solve solver limits s).Consistent s :=
  Fit.Consistent.iterate solver limits _ (.start s)

end Steps

end StochasticGrammar.NormalForm
