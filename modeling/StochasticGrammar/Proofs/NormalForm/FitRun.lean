import StochasticGrammar.Proofs.NormalForm.Fit

/-!
# How a fit ends

A fit is two loops: the iterations, and within each of them the tries, which go
on as long as the evaluations and the damping allow.  No number bounds them from
outside (`Tries`, `Iterates`).  The tries end because each one that fails raises
the damping by a factor of ten, which is never below its least value; the
iterations end because they are counted.

A try that is taken lowers the sum of squares and counts one evaluation, and
only the last iteration may go without one.  So whatever the systems are solved
by, a fit keeps to its budget and does not end at a point that is worse than the
one it starts from.

Main results: `iterates_solve`, `Iterates.unique`, `ended_solve`.
-/

namespace StochasticGrammar.NormalForm

noncomputable section

variable {n : ℕ}

/-! ## The equations at a point -/

/-- What is left of an equation of erasure at a point. -/
def ErasureSystem.defect (s : ErasureSystem ℝ n) (x : Fin n → ℝ) (i : Fin n) :
    ℝ :=
  s.constant.entry i + ∑ j, (s.linear.entry i j - Mat.delta i j) * x j +
    ∑ j, ∑ k, (s.quadratic.slice i).entry j k * x j * x k

theorem entry_residual (s : ErasureSystem ℝ n) (x : Vec ℝ n) (i : Fin n) :
    (s.residual x).entry i = s.defect x.entry i := by
  simp only [ErasureSystem.residual, Vec.entry_ofFn, Mat.mulVec, Mat.subOne,
    Mat.entry_ofFn, ErasureSystem.quadraticPart, sumOver_eq_sum,
    ErasureSystem.defect]

theorem entry_fitStart : (fitStart (α := ℝ) n).entry = fun _ => 1 / 2 := by
  funext i
  rw [fitStart, Vec.entry_ofFn]
  norm_num

/-- The sum of squares of a vector. -/
theorem dot_self (x : Vec ℝ n) : x.dot x = ∑ i, x.entry i ^ 2 := by
  simp only [Vec.dot, sumOver_eq_sum, sq]

/-- The largest magnitude of some numbers is one of the magnitudes. -/
theorem isGreatest_largestMagnitude (hn : 0 < n) (x : Vec ℝ n) :
    IsGreatest (Set.range fun i => |x.entry i|) (largestMagnitude x) := by
  have hMem := fun y => mem_map_magnitude_iff (x := x) (y := y)
  unfold largestMagnitude
  split
  · rename_i hNil
    have hFirst := (hMem _).2 ⟨⟨0, hn⟩, rfl⟩
    rw [hNil] at hFirst
    cases hFirst
  · rename_i m rest hCons
    rw [hCons] at hMem
    refine ⟨(hMem _).1 largestFrom_mem, ?_⟩
    rintro _ ⟨i, rfl⟩
    exact le_largestFrom _ ((hMem _).2 ⟨i, rfl⟩)

/-! ## The loops -/

section Loops

variable (solver : StepSolver ℝ) (limits : FitLimits ℝ) (s : ErasureSystem ℝ n)

/-- Whether another step may be tried. -/
def MayTry (f : Fit ℝ n) : Prop :=
  (f.evaluations : ℤ) < limits.maxEvaluations ∧ f.damping ≤ lastDamping

/-- Whether another iteration may begin. -/
def MayIterate (f : Fit ℝ n) : Prop :=
  (f.iterations : ℤ) < limits.maxIterations ∧
    (f.evaluations : ℤ) < limits.maxEvaluations

/-- The fit with one more iteration begun. -/
def Fit.begun (f : Fit ℝ n) : Fit ℝ n := { f with iterations := f.iterations + 1 }

/-- The tries of an iteration: where they begin, whether a step is taken in the
end, and where they end. -/
inductive Tries : Fit ℝ n → Bool × Fit ℝ n → Prop
  | spent {f : Fit ℝ n} : ¬MayTry limits f → Tries f (false, f)
  | taken {f g : Fit ℝ n} : MayTry limits f → tryStep solver s f = (true, g) →
      Tries f (true, g)
  | again {f g : Fit ℝ n} {out : Bool × Fit ℝ n} : MayTry limits f →
      tryStep solver s f = (false, g) → Tries g out → Tries f out

/-- The iterations of a fit: where they begin and where they end. -/
inductive Iterates : Fit ℝ n → Fit ℝ n → Prop
  | spent {f : Fit ℝ n} : ¬MayIterate limits f → Iterates f f
  | small {f : Fit ℝ n} : MayIterate limits f →
      largestMagnitude f.r ≤ limits.tolerance → Iterates f f
  | stuck {f g : Fit ℝ n} : MayIterate limits f →
      ¬largestMagnitude f.r ≤ limits.tolerance →
      Tries solver limits s f.begun (false, g) → Iterates f g
  | next {f g h : Fit ℝ n} : MayIterate limits f →
      ¬largestMagnitude f.r ≤ limits.tolerance →
      Tries solver limits s f.begun (true, g) → Iterates g h → Iterates f h

end Loops

variable {solver : StepSolver ℝ} {limits : FitLimits ℝ} {s : ErasureSystem ℝ n}
  {f g h : Fit ℝ n}

theorem Tries.unique {out : Bool × Fit ℝ n} (h : Tries solver limits s f out) :
    ∀ {out' : Bool × Fit ℝ n}, Tries solver limits s f out' → out' = out := by
  induction h with
  | spent hSpent =>
      intro out' h'
      cases h' with
      | spent _ => rfl
      | taken hMay _ => exact absurd hMay hSpent
      | again hMay _ _ => exact absurd hMay hSpent
  | taken hMay hTry =>
      intro out' h'
      cases h' with
      | spent hSpent => exact absurd hMay hSpent
      | taken _ hTry' => exact hTry'.symm.trans hTry
      | again _ hTry' _ => cases hTry.symm.trans hTry'
  | again hMay hTry _ ih =>
      intro out' h'
      cases h' with
      | spent hSpent => exact absurd hMay hSpent
      | taken _ hTry' => cases hTry.symm.trans hTry'
      | again _ hTry' hRest =>
          cases hTry.symm.trans hTry'
          exact ih hRest

/-- A fit ends in one way only. -/
theorem Iterates.unique (hRun : Iterates solver limits s f g) :
    ∀ {g' : Fit ℝ n}, Iterates solver limits s f g' → g' = g := by
  induction hRun with
  | spent hSpent =>
      intro g' h'
      cases h' with
      | spent _ => rfl
      | small hMay _ => rfl
      | stuck hMay _ _ => exact absurd hMay hSpent
      | next hMay _ _ _ => exact absurd hMay hSpent
  | small hMay hSmall =>
      intro g' h'
      cases h' with
      | spent _ => rfl
      | small _ _ => rfl
      | stuck _ hLarge _ => exact absurd hSmall hLarge
      | next _ hLarge _ _ => exact absurd hSmall hLarge
  | stuck hMay hLarge hTries =>
      intro g' h'
      cases h' with
      | spent hSpent => exact absurd hMay hSpent
      | small _ hSmall => exact absurd hSmall hLarge
      | stuck _ _ hTries' => cases hTries.unique hTries'; rfl
      | next _ _ hTries' _ => cases hTries.unique hTries'
  | next hMay hLarge hTries _ ih =>
      intro g' h'
      cases h' with
      | spent hSpent => exact absurd hMay hSpent
      | small _ hSmall => exact absurd hSmall hLarge
      | stuck _ _ hTries' => cases hTries.unique hTries'
      | next _ _ hTries' hRest =>
          cases hTries.unique hTries'
          exact ih hRest

/-! ## What a try does -/

/-- A try that fails leaves the point as it was and raises the damping. -/
theorem of_tryStep_eq_false (h : tryStep solver s f = (false, g)) :
    g.iterations = f.iterations ∧ g.cost = f.cost ∧
      g.damping = raised f.damping ∧
        (g.evaluations = f.evaluations ∨ g.evaluations = f.evaluations + 1) := by
  unfold tryStep at h
  simp only at h
  split at h
  · cases h
    exact ⟨rfl, rfl, rfl, .inl rfl⟩
  · split at h
    · cases h
    · cases h
      exact ⟨rfl, rfl, rfl, .inr rfl⟩

/-- A try that is taken lowers the sum of squares and counts an evaluation. -/
theorem of_tryStep_eq_true (h : tryStep solver s f = (true, g)) :
    g.iterations = f.iterations ∧ g.cost < f.cost ∧
      g.damping = lowered f.damping ∧ g.evaluations = f.evaluations + 1 := by
  unfold tryStep at h
  simp only at h
  split at h
  · cases h
  · split at h
    · rename_i hLess
      cases h
      exact ⟨rfl, hLess, rfl, rfl⟩
    · cases h

/-- The damping is never lowered beyond this. -/
def leastDamping : ℝ := 1e-15

theorem leastDamping_le_lowered (x : ℝ) : leastDamping ≤ lowered x := by
  unfold lowered leastDamping
  simp only
  split
  · exact le_rfl
  · rename_i h
    exact not_lt.1 h

theorem leastDamping_le_raised {x : ℝ} (h : leastDamping ≤ x) :
    leastDamping ≤ raised x := by
  have hPos : (0 : ℝ) ≤ leastDamping := by norm_num [leastDamping]
  unfold raised
  norm_num
  linarith

/-- What any number of tries leaves of a fit. -/
structure Tried (limits : FitLimits ℝ) (f : Fit ℝ n) (out : Bool × Fit ℝ n) :
    Prop where
  iterations_eq : out.2.iterations = f.iterations
  cost_le : out.2.cost ≤ f.cost
  damping : leastDamping ≤ f.damping → leastDamping ≤ out.2.damping
  evaluations_le : (out.2.evaluations : ℤ) ≤
    max (f.evaluations : ℤ) limits.maxEvaluations
  le_evaluations : f.evaluations ≤ out.2.evaluations
  lt_evaluations : out.1 = true → f.evaluations < out.2.evaluations

theorem Tries.tried {out : Bool × Fit ℝ n} (h : Tries solver limits s f out) :
    Tried limits f out := by
  induction h with
  | spent _ =>
      exact ⟨rfl, le_rfl, id, le_max_left _ _, le_rfl, fun h => by cases h⟩
  | @taken f g hMay hTry =>
      obtain ⟨hIterations, hCost, hDamping, hEvaluations⟩ :=
        of_tryStep_eq_true hTry
      have hLt : f.evaluations < g.evaluations := by omega
      refine ⟨hIterations, hCost.le, fun _ => ?_, ?_, hLt.le, fun _ => hLt⟩
      · rw [hDamping]
        exact leastDamping_le_lowered _
      · have hAllowed := hMay.1
        rw [hEvaluations]
        omega
  | @again f g out hMay hTry _ ih =>
      obtain ⟨hIterations, hCost, hDamping, hEvaluations⟩ :=
        of_tryStep_eq_false hTry
      have hLt := hMay.1
      have hLe := ih.evaluations_le
      have hGe := ih.le_evaluations
      refine ⟨ih.iterations_eq.trans hIterations, ih.cost_le.trans_eq hCost,
        fun hLeast => ih.damping ?_, ?_, ?_, fun hTaken => ?_⟩
      · rw [hDamping]
        exact leastDamping_le_raised hLeast
      · omega
      · omega
      · have hMore := ih.lt_evaluations hTaken
        omega

/-! ## The tries end -/

/-- The tries end, since each one that fails raises the damping by the same
factor. -/
theorem tries_trySteps (tries : ℕ) :
    ∀ {f : Fit ℝ n}, lastDamping < f.damping * 10 ^ tries →
      Tries solver limits s f (trySteps solver limits s tries f) := by
  induction tries with
  | zero =>
      intro f hLast
      rw [pow_zero, mul_one] at hLast
      exact .spent fun hMay => absurd hMay.2 (not_le.2 hLast)
  | succ tries ih =>
      intro f hLast
      rw [trySteps]
      by_cases hMay : (f.evaluations : ℤ) < limits.maxEvaluations ∧
          f.damping ≤ lastDamping
      · rw [if_pos hMay]
        obtain ⟨taken, g, hTry⟩ :
            ∃ taken g, tryStep solver s f = (taken, g) := ⟨_, _, rfl⟩
        rw [hTry]
        cases taken with
        | true => exact .taken hMay hTry
        | false =>
            refine .again hMay hTry (ih ?_)
            rw [(of_tryStep_eq_false hTry).2.2.1, raised]
            calc lastDamping < f.damping * 10 ^ (tries + 1) := hLast
              _ = f.damping * 10.0 * 10 ^ tries := by
                rw [pow_succ]
                norm_num
                ring
      · rw [if_neg hMay]
        exact .spent hMay

/-- From the least damping on there are tries enough to come to the last. -/
theorem lastDamping_lt {x : ℝ} (h : leastDamping ≤ x) :
    lastDamping < x * 10 ^ maxTries := by
  have hMul : leastDamping * 10 ^ maxTries ≤ x * 10 ^ maxTries :=
    mul_le_mul_of_nonneg_right h (by positivity)
  refine lt_of_lt_of_le ?_ hMul
  norm_num [lastDamping, leastDamping, maxTries]

/-! ## The iterations end -/

theorem iterates_iterate (left : ℕ) :
    ∀ {f : Fit ℝ n}, leastDamping ≤ f.damping →
      f.iterations + left = limits.maxIterations.toNat →
      Iterates solver limits s f (iterate solver limits s left f) := by
  induction left with
  | zero =>
      intro f _ hLeft
      refine .spent fun hMay => ?_
      have hLt := hMay.1
      omega
  | succ left ih =>
      intro f hDamping hLeft
      rw [iterate]
      have hTries : Tries solver limits s f.begun
          (trySteps solver limits s maxTries f.begun) :=
        tries_trySteps maxTries (lastDamping_lt hDamping)
      by_cases hMay : (f.evaluations : ℤ) < limits.maxEvaluations
      · have hMay' : MayIterate limits f := ⟨by omega, hMay⟩
        rw [if_pos hMay]
        by_cases hSmall : largestMagnitude f.r ≤ limits.tolerance
        · rw [if_pos hSmall]
          exact .small hMay' hSmall
        · rw [if_neg hSmall]
          show Iterates solver limits s f
            (if (trySteps solver limits s maxTries f.begun).1 = true then
              iterate solver limits s left
                (trySteps solver limits s maxTries f.begun).2
            else (trySteps solver limits s maxTries f.begun).2)
          generalize trySteps solver limits s maxTries f.begun = out at hTries
          obtain ⟨taken, g⟩ := out
          have hTried := hTries.tried
          cases taken with
          | true =>
              refine .next hMay' hSmall hTries (ih (hTried.damping hDamping) ?_)
              have hSame : g.iterations = f.iterations + 1 :=
                hTried.iterations_eq
              omega
          | false => exact .stuck hMay' hSmall hTries
      · rw [if_neg hMay]
        exact .spent fun hMay' => hMay hMay'.2

/-- The fit ends, by its own conditions. -/
theorem iterates_solve (solver : StepSolver ℝ) (limits : FitLimits ℝ)
    (s : ErasureSystem ℝ n) :
    Iterates solver limits s (.start s) (Fit.solve solver limits s) := by
  refine iterates_iterate _ ?_ (Nat.zero_add _)
  norm_num [Fit.start, firstDamping, leastDamping]

/-! ## The budget -/

/-- What the iterations leave of a fit. -/
structure Iterated (limits : FitLimits ℝ) (f g : Fit ℝ n) : Prop where
  le_iterations : f.iterations ≤ g.iterations
  iterations_le : (g.iterations : ℤ) ≤
    max (f.iterations : ℤ) limits.maxIterations
  evaluations_le : (g.evaluations : ℤ) ≤
    max (f.evaluations : ℤ) limits.maxEvaluations
  cost_le : g.cost ≤ f.cost
  iterations_le_evaluations : f.iterations < f.evaluations →
    g.iterations ≤ g.evaluations

theorem Iterates.iterated (h : Iterates solver limits s f g) :
    Iterated limits f g := by
  induction h with
  | spent _ | small _ _ =>
      exact ⟨le_rfl, le_max_left _ _, le_max_left _ _, le_rfl, le_of_lt⟩
  | @stuck f g hMay _ hTries =>
      have hTried := hTries.tried
      have hIterations : g.iterations = f.iterations + 1 := hTried.iterations_eq
      have hEvaluations : f.evaluations ≤ g.evaluations := hTried.le_evaluations
      have hLt := hMay.1
      refine ⟨by omega, by omega, hTried.evaluations_le, hTried.cost_le,
        fun hBelow => by omega⟩
  | @next f g h hMay _ hTries _ ih =>
      have hTried := hTries.tried
      have hIterations : g.iterations = f.iterations + 1 := hTried.iterations_eq
      have hEvaluations : f.evaluations < g.evaluations :=
        hTried.lt_evaluations rfl
      have hBound : (g.evaluations : ℤ) ≤
        max (f.evaluations : ℤ) limits.maxEvaluations := hTried.evaluations_le
      have hLt := hMay.1
      have hGe := ih.le_iterations
      have hLe := ih.iterations_le
      have hMost := ih.evaluations_le
      exact ⟨by omega, by omega, by omega, ih.cost_le.trans hTried.cost_le,
        fun hBelow => ih.iterations_le_evaluations (by omega)⟩

/-- No iteration begins exactly if none may, or if none is needed. -/
theorem Iterates.iterations_eq_iff (h : Iterates solver limits s f g) :
    g.iterations = f.iterations ↔
      largestMagnitude f.r ≤ limits.tolerance ∨ ¬MayIterate limits f := by
  cases h with
  | spent hSpent => exact iff_of_true rfl (.inr hSpent)
  | small _ hSmall => exact iff_of_true rfl (.inl hSmall)
  | stuck hMay hLarge hTries =>
      have hSame : g.iterations = f.iterations + 1 := hTries.tried.iterations_eq
      refine iff_of_false (by omega) ?_
      rintro (hSmall | hSpent)
      · exact hLarge hSmall
      · exact hSpent hMay
  | @next _ mid _ hMay hLarge hTries hRest =>
      have hSame : mid.iterations = f.iterations + 1 :=
        hTries.tried.iterations_eq
      have hMore := hRest.iterated.le_iterations
      refine iff_of_false (by omega) ?_
      rintro (hSmall | hSpent)
      · exact hLarge hSmall
      · exact hSpent hMay

/-! ## The end -/

/-- What holds where a fit ends: it has kept to its budget, what it reports is
the largest residual at the point that is kept, this point is no worse than the
one to start from, and an iteration was begun if it was needed and allowed. -/
structure Fit.Ended (limits : FitLimits ℝ) (s : ErasureSystem ℝ n)
    (f : Fit ℝ n) : Prop where
  iterations_le : (f.iterations : ℤ) ≤ max 0 limits.maxIterations
  evaluations_le : (f.evaluations : ℤ) ≤ max 1 limits.maxEvaluations
  iterations_le_evaluations : f.iterations ≤ f.evaluations
  isGreatest_residual :
    IsGreatest (Set.range fun i => |s.defect f.x.entry i|) f.residual
  sum_sq_le :
    ∑ i, s.defect f.x.entry i ^ 2 ≤ ∑ i, s.defect (fun _ => 1 / 2) i ^ 2
  iterations_eq_zero_iff : f.iterations = 0 ↔
    (∀ i, |s.defect (fun _ => 1 / 2) i| ≤ limits.tolerance) ∨
      limits.maxIterations ≤ 0 ∨ limits.maxEvaluations ≤ 1

theorem cost_start (s : ErasureSystem ℝ n) :
    (Fit.start s).cost = ∑ i, s.defect (fun _ => 1 / 2) i ^ 2 := by
  show (s.residual (fitStart n)).dot (s.residual (fitStart n)) = _
  simp only [dot_self, entry_residual, entry_fitStart]

/-- Whatever the systems are solved by, a fit ends, in one way only, and within
its budget. -/
theorem ended_solve (hn : 0 < n) (solver : StepSolver ℝ)
    (limits : FitLimits ℝ) (s : ErasureSystem ℝ n) :
    (∀ f, Iterates solver limits s (.start s) f ↔
      f = Fit.solve solver limits s) ∧
    (Fit.solve solver limits s).Ended limits s := by
  have hEnds := iterates_solve solver limits s
  have hBudget := hEnds.iterated
  have hConsistent := Fit.consistent_solve solver limits s
  have hStart : largestMagnitude (Fit.start s).r ≤ limits.tolerance ↔
      ∀ i, |s.defect (fun _ => 1 / 2) i| ≤ limits.tolerance := by
    have hGreatest := isGreatest_largestMagnitude hn (s.residual (fitStart n))
    simp only [entry_residual, entry_fitStart] at hGreatest
    exact (isLUB_le_iff hGreatest.isLUB).trans Set.forall_mem_range
  constructor
  · intro f
    refine ⟨hEnds.unique, ?_⟩
    rintro rfl
    exact hEnds
  · refine ⟨hBudget.iterations_le, hBudget.evaluations_le,
      hBudget.iterations_le_evaluations Nat.zero_lt_one, ?_, ?_, ?_⟩
    · have hGreatest :=
        isGreatest_largestMagnitude hn (Fit.solve solver limits s).r
      rw [hConsistent.residual_eq] at hGreatest
      simp only [entry_residual] at hGreatest
      rwa [← hConsistent.residual_eq] at hGreatest
    · have hLe := hBudget.cost_le
      rw [cost_start, hConsistent.cost_eq, dot_self, hConsistent.residual_eq]
        at hLe
      simpa only [entry_residual] using hLe
    · have hZero := hEnds.iterations_eq_iff
      rw [hStart] at hZero
      refine hZero.trans (or_congr_right ?_)
      rw [MayIterate, not_and_or, not_lt, not_lt]
      rfl

/-- The equation `x = x x`. -/
def squareSystem : ErasureSystem ℝ 1 where
  constant := .ofFn fun _ => 0
  linear := .ofFn fun _ _ => 0
  quadratic := Vector.ofFn fun _ => .ofFn fun _ _ => 1

theorem defect_squareSystem (x : Fin 1 → ℝ) :
    squareSystem.defect x 0 = x 0 * x 0 - x 0 := by
  simp [ErasureSystem.defect, squareSystem, Tensor.slice, Mat.delta]
  ring

/-- A procedure that fails when it is called first, and takes the same step in
all directions after that. -/
def failsOnce (x : ℝ) : StepSolver ℝ := fun calls _ _ _ =>
  if calls = 0 then none else some (.ofFn fun _ => x)

/-- The first system cannot be solved, the second leads to the root, and then
the evaluations are used up. -/
theorem ended_solve_squareSystem :
    ∃ f, Fit.solve (failsOnce (-(1 / 2))) ⟨3, 2, 0⟩ squareSystem = f ∧
      f.iterations = 1 ∧ f.evaluations = 2 ∧
      f.Ended ⟨3, 2, 0⟩ squareSystem := by
  obtain ⟨hOnly, hEnded⟩ :=
    ended_solve one_pos (failsOnce (-(1 / 2))) ⟨3, 2, 0⟩ squareSystem
  let first : Fit ℝ 1 := { (Fit.start squareSystem).begun with
    damping := raised firstDamping, calls := 1 }
  have hFirst : tryStep (failsOnce (-(1 / 2))) squareSystem
      (Fit.start squareSystem).begun = (false, first) := rfl
  have hRoot : (fun i => (fitStart (α := ℝ) 1).entry i +
      (Vec.ofFn fun _ : Fin 1 => -(1 / 2 : ℝ)).entry i) = fun _ => 0 := by
    funext i
    rw [entry_fitStart, Vec.entry_ofFn]
    norm_num
  have hLess : (squareSystem.residual (.ofFn fun _ => 0)).dot
      (squareSystem.residual (.ofFn fun _ => 0)) < first.cost := by
    show _ < (Fit.start squareSystem).cost
    rw [cost_start, dot_self]
    simp [entry_residual, defect_squareSystem]
    norm_num
  rw [← hRoot] at hLess
  have hSecond : tryStep (failsOnce (-(1 / 2))) squareSystem first = (true, _) :=
    if_pos hLess
  have hLarge : ¬largestMagnitude (Fit.start squareSystem).r ≤ 0 := by
    intro hSmall
    have hZero := largestMagnitude_eq_zero_iff.1
      (le_antisymm hSmall (largestMagnitude_nonneg _)) 0
    change (squareSystem.residual (fitStart 1)).entry 0 = 0 at hZero
    rw [entry_residual, entry_fitStart, defect_squareSystem] at hZero
    norm_num at hZero
  have hMayTry : ∀ x : ℝ, x = firstDamping ∨ x = raised firstDamping →
      (1 : ℤ) < 2 ∧ x ≤ lastDamping := by
    rintro x (rfl | rfl) <;>
      norm_num [firstDamping, raised, lastDamping]
  have hRun := (hOnly _).1 (.next (by decide : (0 : ℤ) < 3 ∧ (1 : ℤ) < 2) hLarge
    (.again (hMayTry _ (.inl rfl)) hFirst
      (.taken (hMayTry _ (.inr rfl)) hSecond))
    (.spent fun hMay => absurd hMay.2 (by decide : ¬(2 : ℤ) < 2)))
  exact ⟨_, hRun.symm, rfl, rfl, hRun ▸ hEnded⟩

end

end StochasticGrammar.NormalForm
