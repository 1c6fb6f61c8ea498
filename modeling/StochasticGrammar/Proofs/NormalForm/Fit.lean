import Mathlib.Algebra.BigOperators.Fin
import Mathlib.Algebra.BigOperators.Ring.Finset
import StochasticGrammar.Proofs.NormalForm.Layers
import StochasticGrammar.Proofs.NormalForm.Probability

/-!
# The fitted probabilities

The residual of the fit is what is left of the equations of erasure: the value
of an erasable symbol is the sum over its rules of the products of the values
on their right sides, where a symbol that is not erasable has the value zero.

Such equations may have several solutions, and then the fit may find a wrong
one.  Where the symbols lie in layers there is only one, since the values of a
layer follow from those of the layers below.  So a fit without a residual finds
the probabilities of deriving the empty word.

Main results: `residual_erasureSystem`, `isFitted_of_residual`.
-/

namespace StochasticGrammar.NormalForm

open Weighting
open scoped ENNReal

/-! ## The equations of erasure -/

section System

variable {β : Type} [CommSemiring β] {rules : List (Rule β)}
  {symbols : List SymbolId}

/-- What a rule of a symbol makes of the values of symbols. -/
def nilTerm (f : SymbolId → β) (x : SymbolId) (r : Rule β) : β :=
  if r.lhs = x then r.probability * (r.rhs.map f).prod else 0

/-- What the rules of a symbol make of the values of symbols. -/
def nilStep (rules : List (Rule β)) (f : SymbolId → β) (x : SymbolId) : β :=
  (rules.map (nilTerm f x)).sum

theorem sumOver_eq_sum (n : Nat) (f : Fin n → β) :
    sumOver n f = ∑ i, f i := by
  rw [sumOver, Fin.foldl_eq_finRange_foldl, Fin.sum_univ_def,
    List.sum_eq_foldl, List.foldl_map]

theorem lastPosition?_eq_some_iff (hNodup : symbols.Nodup) {x : SymbolId}
    {i : Nat} (hi : i < symbols.length) :
    lastPosition? symbols x = some i ↔ x = symbols[i] := by
  rw [lastPosition?, Option.map_eq_some_iff]
  constructor
  · rintro ⟨q, hLast, rfl⟩
    obtain ⟨hAt, hSymbol⟩ := List.mem_filter.1 (List.mem_of_getLast? hLast)
    have hAt := List.mem_zipIdx_iff_getElem?.1 hAt
    rw [List.getElem?_eq_getElem hi] at hAt
    exact (eq_of_beq hSymbol).symm.trans (Option.some.inj hAt).symm
  · rintro rfl
    have hHere : (symbols[i], i) ∈ symbols.zipIdx :=
      List.mem_zipIdx_iff_getElem?.2 (by simp [hi])
    generalize hRows : symbols.zipIdx.filter _ = rows
    have hSelf : (symbols[i], i) ∈ rows := by
      rw [← hRows]
      exact List.mem_filter.2 ⟨hHere, beq_self_eq_true _⟩
    obtain ⟨q, hLast⟩ := Option.ne_none_iff_exists'.1 fun hNone =>
      List.ne_nil_of_mem hSelf (List.getLast?_eq_none_iff.1 hNone)
    refine ⟨q, hLast, ?_⟩
    have hMem := List.mem_of_getLast? hLast
    rw [← hRows] at hMem
    obtain ⟨hAt, hSymbol⟩ := List.mem_filter.1 hMem
    obtain ⟨hLt, hEq⟩ := List.getElem?_eq_some_iff.1
      (List.mem_zipIdx_iff_getElem?.1 hAt)
    exact hNodup.getElem_inj_iff.1 (hEq.trans (eq_of_beq hSymbol))

section Entries

variable (hNodup : symbols.Nodup)

include hNodup

/-- Among the rules at the place of a symbol, those with a right side are the
rules of the symbol with that right side. -/
theorem sumWhere_at (i : Fin symbols.length) {q : Rule β → Bool}
    {rhs : List SymbolId} (hq : ∀ r, q r = decide (r.rhs = rhs)) :
    sumWhere (rules.filter fun r =>
        lastPosition? symbols r.lhs == some i.val) q =
      sumWhere rules fun r =>
        decide (r.lhs = symbols.get i ∧ r.rhs = rhs) := by
  rw [sumWhere, sumWhere, List.filter_filter]
  refine congrArg (List.foldl _ 0) (List.filter_congr fun r _ => ?_)
  have hAt := lastPosition?_eq_some_iff hNodup (x := r.lhs) i.isLt
  rw [hq, Bool.eq_iff_iff]
  simp only [Bool.and_eq_true, beq_iff_eq, decide_eq_true_eq, hAt,
    List.get_eq_getElem]
  exact and_comm

theorem entry_constant (i : Fin symbols.length) :
    (erasureSystem rules symbols).constant.entry i =
      sumWhere rules fun r =>
        decide (r.lhs = symbols.get i ∧ r.rhs = []) := by
  simp only [erasureSystem, Vec.entry, Fin.getElem_fin, Vector.getElem_ofFn]
  refine sumWhere_at hNodup i fun r => ?_
  cases r.rhs <;> rfl

theorem entry_linear (i j : Fin symbols.length) :
    (erasureSystem rules symbols).linear.entry i j = sumWhere rules
      fun r => decide
        (r.lhs = symbols.get i ∧ r.rhs = [symbols.get j]) := by
  simp only [erasureSystem, Mat.entry, Mat.row, Vec.entry, Fin.getElem_fin,
    Vector.getElem_ofFn]
  refine sumWhere_at hNodup i fun r => ?_
  rcases r.rhs with _ | ⟨t, _ | ⟨u, rest⟩⟩
  · rfl
  · have hAt := lastPosition?_eq_some_iff hNodup (x := t) j.isLt
    rw [Bool.eq_iff_iff]
    simp [hAt]
  · simp

theorem entry_quadratic (i j k : Fin symbols.length) :
    ((erasureSystem rules symbols).quadratic.slice i).entry j k =
      sumWhere rules fun r => decide
        (r.lhs = symbols.get i ∧
          r.rhs = [symbols.get j, symbols.get k]) := by
  simp only [erasureSystem, Tensor.slice, Fin.getElem_fin, Vector.getElem_ofFn,
    Mat.entry_ofFn]
  refine sumWhere_at hNodup i fun r => ?_
  rcases r.rhs with _ | ⟨t, _ | ⟨u, _ | ⟨v, rest⟩⟩⟩
  · rfl
  · simp
  · have hFirst := lastPosition?_eq_some_iff hNodup (x := t) j.isLt
    have hSecond := lastPosition?_eq_some_iff hNodup (x := u) k.isLt
    rw [Bool.eq_iff_iff]
    simp [hFirst, hSecond]
  · simp

omit [CommSemiring β] in
theorem lookup_zip_getElem {ys : List β} {i : Nat} (hx : i < symbols.length)
    (hy : i < ys.length) :
    (symbols.zip ys).lookup symbols[i] = some ys[i] := by
  induction symbols generalizing ys i with
  | nil => simp at hx
  | cons x symbols ih =>
      cases ys with
      | nil => simp at hy
      | cons y ys =>
          obtain ⟨hNot, hNodup⟩ := List.nodup_cons.1 hNodup
          cases i with
          | zero => simp
          | succ i =>
              have hx : i < symbols.length := by simpa using hx
              have hNe : symbols[i] ≠ x :=
                fun hEq => hNot (hEq ▸ List.getElem_mem hx)
              simp only [List.zip_cons_cons, List.getElem_cons_succ,
                List.lookup_cons, beq_false_of_ne hNe]
              exact ih hNodup hx (by simpa using hy)

/-- The value of a symbol is a sum over the places where it may stand. -/
theorem sum_eq_lookup (x : Vec β symbols.length) (t : SymbolId) :
    (∑ j : Fin symbols.length, if t = symbols.get j then x.entry j else 0) =
      ((symbols.zip x.toList).lookup t).getD 0 := by
  by_cases ht : t ∈ symbols
  · obtain ⟨i, hi, rfl⟩ := List.getElem_of_mem ht
    rw [lookup_zip_getElem hNodup hi (by simpa using hi), Option.getD_some,
      Finset.sum_eq_single ⟨i, hi⟩]
    · simp [Vec.entry]
    · intro j _ hNe
      refine if_neg fun hEq => hNe (Fin.ext ?_)
      exact ((hNodup.getElem_inj_iff).1 hEq).symm
    · simp
  · have hNone : (symbols.zip x.toList).lookup t = none :=
      (lookup_zip_eq_none_iff (by simp)).2 ht
    rw [hNone, Option.getD_none]
    refine Finset.sum_eq_zero fun j _ => if_neg fun hEq => ht ?_
    rw [hEq]
    exact List.get_mem symbols j

omit hNodup in
/-- A short rule of a symbol has a part in one of the three coefficients. -/
theorem sum_entries_rule {r : Rule β} (hShort : r.rhs.length ≤ 2)
    (x : Vec β symbols.length) (a : SymbolId) :
    (if r.lhs = a ∧ r.rhs = [] then r.probability else 0) +
      (∑ j : Fin symbols.length,
        (if r.lhs = a ∧ r.rhs = [symbols.get j] then r.probability else 0) *
          x.entry j) +
      (∑ j : Fin symbols.length, ∑ k : Fin symbols.length,
        (if r.lhs = a ∧ r.rhs = [symbols.get j, symbols.get k] then
          r.probability else 0) * x.entry j * x.entry k) =
      nilTerm (fun t => ∑ j : Fin symbols.length,
        if t = symbols.get j then x.entry j else 0) a r := by
  unfold nilTerm
  by_cases hLhs : r.lhs = a
  · match r.rhs, hShort with
    | [], _ => simp [hLhs]
    | [t], _ => simp [hLhs, Finset.mul_sum]
    | [t, u], _ =>
        simp only [hLhs, true_and, reduceCtorEq, and_false, if_false,
          List.cons.injEq, and_true, zero_mul, Finset.sum_const_zero,
          zero_add, if_true, List.map_cons, List.map_nil, List.prod_cons,
          List.prod_nil, mul_one]
        rw [Finset.sum_mul_sum, Finset.mul_sum]
        refine Finset.sum_congr rfl fun j _ => ?_
        rw [Finset.mul_sum]
        refine Finset.sum_congr rfl fun k _ => ?_
        rw [ite_and]
        split_ifs <;> ring
    | _ :: _ :: _ :: _, hLength => simp at hLength
  · simp [hLhs]

/-- The equations of a symbol add up the products of the values on the right
sides of its rules. -/
theorem sum_entries (hShort : ∀ r ∈ rules, r.rhs.length ≤ 2)
    (x : Vec β symbols.length) (a : SymbolId) :
    sumWhere rules (fun r => decide (r.lhs = a ∧ r.rhs = [])) +
      (∑ j : Fin symbols.length, sumWhere rules
        (fun r => decide (r.lhs = a ∧ r.rhs = [symbols.get j])) *
          x.entry j) +
      (∑ j : Fin symbols.length, ∑ k : Fin symbols.length, sumWhere rules
        (fun r => decide
          (r.lhs = a ∧ r.rhs = [symbols.get j, symbols.get k])) *
          x.entry j * x.entry k) =
      nilStep rules (fun t => ((symbols.zip x.toList).lookup t).getD 0) a := by
  simp only [← sum_eq_lookup hNodup]
  induction rules with
  | nil => simp [sumWhere, nilStep]
  | cons r rules ih =>
      have hHead := sum_entries_rule (hShort r (by simp)) x a
      rw [nilStep, List.map_cons, List.sum_cons, ← nilStep, ← hHead,
        ← ih fun s hs => hShort s (by simp [hs])]
      simp only [sumWhere_cons, decide_eq_true_eq, add_mul,
        Finset.sum_add_distrib]
      ring

/-- What is left of the equation of a symbol is the difference between what its
rules make of the values and its own value. -/
theorem residual_erasureSystem {β : Type} [CommRing β] {rules : List (Rule β)}
    (hShort : ∀ r ∈ rules, r.rhs.length ≤ 2) (x : Vec β symbols.length)
    (i : Fin symbols.length) :
    ((erasureSystem rules symbols).residual x).entry i =
      nilStep rules (fun t => ((symbols.zip x.toList).lookup t).getD 0)
        (symbols.get i) - x.entry i := by
  have hOne : (∑ j : Fin symbols.length, Mat.delta i j * x.entry j) =
      x.entry i := by
    simp [Mat.delta]
  rw [← sum_entries hNodup hShort]
  simp only [ErasureSystem.residual, Vec.entry_ofFn, Mat.mulVec, Mat.subOne,
    Mat.entry_ofFn, ErasureSystem.quadraticPart, sumOver_eq_sum,
    entry_constant hNodup, entry_linear hNodup, entry_quadratic hNodup,
    sub_mul, Finset.sum_sub_distrib, hOne]
  ring

end Entries

end System

/-! ## A fit without a residual -/

section Largest

variable {n : Nat}

theorem largestFrom_cons (m x : ℝ) (rest : List ℝ) :
    largestFrom m (x :: rest) = largestFrom (max m x) rest := by
  rw [largestFrom]
  by_cases h : x ≤ m
  · rw [if_pos h, max_eq_left h]
  · rw [if_neg h, if_pos le_rfl, max_eq_right (le_of_not_ge h)]

theorem le_largestFrom {m : ℝ} {xs : List ℝ} :
    ∀ y ∈ m :: xs, y ≤ largestFrom m xs := by
  induction xs generalizing m with
  | nil => simp [largestFrom]
  | cons x rest ih =>
      intro y hy
      rw [largestFrom_cons]
      have hNext : max m x ≤ largestFrom (max m x) rest := ih _ (by simp)
      simp only [List.mem_cons] at hy
      rcases hy with rfl | rfl | hy
      · exact (le_max_left _ _).trans hNext
      · exact (le_max_right _ _).trans hNext
      · exact ih y (by simp [hy])

theorem largestFrom_mem {m : ℝ} {xs : List ℝ} :
    largestFrom m xs ∈ m :: xs := by
  induction xs generalizing m with
  | nil => simp [largestFrom]
  | cons x rest ih =>
      rw [largestFrom_cons]
      rcases List.mem_cons.1 (ih (m := max m x)) with hHead | hRest
      · rw [hHead]
        rcases max_choice m x with hMax | hMax <;> simp [hMax]
      · simp [hRest]

theorem magnitude_eq_abs (x : ℝ) : magnitude x = |x| := by
  unfold magnitude
  split
  · rename_i h
    rw [abs_of_neg h]
  · rename_i h
    rw [abs_of_nonneg (not_lt.1 h)]

theorem mem_map_magnitude_iff {x : Vec ℝ n} {y : ℝ} :
    y ∈ x.toList.map magnitude ↔ ∃ i, |x.entry i| = y := by
  simp [List.mem_iff_getElem, magnitude_eq_abs, Vec.entry, Fin.exists_iff]

/-- The largest magnitude is zero exactly if all numbers are. -/
theorem largestMagnitude_eq_zero_iff {x : Vec ℝ n} :
    largestMagnitude x = 0 ↔ ∀ i, x.entry i = 0 := by
  have hMem := fun y => mem_map_magnitude_iff (x := x) (y := y)
  unfold largestMagnitude
  split
  · rename_i hNil
    rw [hNil] at hMem
    simp only [List.not_mem_nil, false_iff, not_exists] at hMem
    exact iff_of_true rfl fun i => absurd rfl (hMem _ i)
  · rename_i m rest hCons
    rw [hCons] at hMem
    constructor
    · intro hZero i
      have hLe := le_largestFrom _ ((hMem _).2 ⟨i, rfl⟩)
      rw [hZero] at hLe
      exact abs_nonpos_iff.1 hLe
    · intro hAll
      have hTop : largestFrom m rest ∈ m :: rest := largestFrom_mem
      obtain ⟨i, hi⟩ := (hMem _).1 hTop
      rw [← hi, hAll i, abs_zero]

theorem largestMagnitude_nonneg (x : Vec ℝ n) : 0 ≤ largestMagnitude x := by
  unfold largestMagnitude
  split
  · exact le_rfl
  · rename_i m rest hCons
    have hMem : m ∈ x.toList.map magnitude := by simp [hCons]
    obtain ⟨y, _, rfl⟩ := List.mem_map.1 hMem
    rw [magnitude_eq_abs]
    exact (abs_nonneg y).trans (le_largestFrom |y| (by simp))

end Largest

variable {options : Options ℝ} {rules : List (Rule ℝ)}

/-- What is fitted is where the fit ends. -/
theorem fit_eq_solve (hSome : erasables rules ≠ []) :
    (Erasure.fit options rules).probabilities =
      (Fit.solve options.solveStep options.limits
        (erasureSystem rules (erasables rules))).x.toList ∧
    (Erasure.fit options rules).residual =
      (Fit.solve options.solveStep options.limits
        (erasureSystem rules (erasables rules))).residual := by
  have hEmpty : (erasables rules).isEmpty = false := by
    simpa [List.isEmpty_iff] using hSome
  unfold Erasure.fit
  simp only [hEmpty, Bool.false_eq_true, if_false, and_self]

theorem probability_fit (hSome : erasables rules ≠ []) :
    (Erasure.fit options rules).probability = fun t =>
      (((erasables rules).zip (Fit.solve options.solveStep options.limits
        (erasureSystem rules (erasables rules))).x.toList).lookup t).getD 0 := by
  funext t
  rw [Erasure.probability, Erasure.probability?, symbols_fit,
    (fit_eq_solve hSome).1]

/-- The entries of the point where the fit ends are the fitted
probabilities. -/
theorem entry_fit (i : Fin (erasables rules).length) :
    (Fit.solve options.solveStep options.limits
      (erasureSystem rules (erasables rules))).x.entry i =
        (Erasure.fit options rules).probability ((erasables rules).get i) := by
  have hSome : erasables rules ≠ [] :=
    List.ne_nil_of_mem (List.get_mem _ i)
  rw [probability_fit hSome, List.get_eq_getElem]
  generalize (Fit.solve options.solveStep options.limits
    (erasureSystem rules (erasables rules))).x = x
  have hLength : i.val < x.toList.length := by simp
  have hLookup := lookup_zip_getElem (nodup_erasables rules) i.isLt hLength
  simp only [hLookup, Option.getD_some]
  exact (Vector.getElem_toList _).symm

/-- A fit has no residual exactly if it solves the equations of erasure. -/
theorem residual_fit_eq_zero_iff (hShort : ∀ r ∈ rules, r.rhs.length ≤ 2) :
    (Erasure.fit options rules).residual = 0 ↔ ∀ x ∈ erasables rules,
      nilStep rules (Erasure.fit options rules).probability x =
        (Erasure.fit options rules).probability x := by
  by_cases hNone : erasables rules = []
  · simp [fit_of_erasables_nil hNone, hNone, Erasure.nothing]
  have hConsistent := Fit.consistent_solve options.solveStep options.limits
    (erasureSystem rules (erasables rules))
  rw [(fit_eq_solve hNone).2, Fit.residual, largestMagnitude_eq_zero_iff,
    List.forall_mem_iff_get]
  refine forall_congr' fun i => ?_
  rw [hConsistent.residual_eq,
    residual_erasureSystem (nodup_erasables rules) hShort, sub_eq_zero,
    ← probability_fit hNone, entry_fit]

/-- If a fit that found something is good enough, there is a tolerance. -/
theorem tolerance_nonneg (hSome : erasables rules ≠ [])
    (hConverged : (Erasure.fit options rules).converged = true) :
    0 ≤ options.limits.tolerance := by
  have hEmpty : (erasables rules).isEmpty = false := by
    simpa [List.isEmpty_iff] using hSome
  unfold Erasure.fit at hConverged
  simp only [hEmpty, Bool.false_eq_true, if_false, Bool.and_eq_true,
    decide_eq_true_eq] at hConverged
  exact (largestMagnitude_nonneg _).trans hConverged.1

/-- A fit that solves the equations of erasure by probabilities is good
enough. -/
theorem converged_fit (hShort : ∀ r ∈ rules, r.rhs.length ≤ 2)
    (hTolerance : 0 ≤ options.limits.tolerance)
    (hSolves : ∀ x ∈ erasables rules,
      nilStep rules (Erasure.fit options rules).probability x =
        (Erasure.fit options rules).probability x)
    (hRange : ∀ x ∈ erasables rules,
      0 ≤ (Erasure.fit options rules).probability x ∧
        (Erasure.fit options rules).probability x ≤ 1) :
    (Erasure.fit options rules).converged = true := by
  have hResidual := (residual_fit_eq_zero_iff hShort).2 hSolves
  by_cases hNone : erasables rules = []
  · simp [fit_of_erasables_nil hNone, Erasure.nothing]
  have hEmpty : (erasables rules).isEmpty = false := by
    simpa [List.isEmpty_iff] using hNone
  rw [(fit_eq_solve hNone).2] at hResidual
  have hEntries : (Fit.solve options.solveStep options.limits
      (erasureSystem rules (erasables rules))).x.all
        (inUnitRange options.limits.tolerance) = true := by
    rw [Vector.all_eq_true]
    intro i hi
    obtain ⟨hLow, hHigh⟩ := hRange _ (List.get_mem _ ⟨i, hi⟩)
    rw [← entry_fit] at hLow hHigh
    simp only [inUnitRange, Bool.and_eq_true, decide_eq_true_eq]
    constructor
    · exact (neg_nonpos.2 hTolerance).trans hLow
    · exact hHigh.trans (by linarith)
  unfold Erasure.fit
  simp only [hEmpty, Bool.false_eq_true, if_false, hEntries, hResidual,
    hTolerance, decide_true, Bool.and_self]

/-! ## Solutions in layers -/

theorem ofReal_prod {f : SymbolId → ℝ} {h : SymbolId → ℝ≥0∞}
    {xs : List SymbolId}
    (hAll : ∀ x ∈ xs, 0 ≤ f x ∧ h x = ENNReal.ofReal (f x)) :
    0 ≤ (xs.map f).prod ∧
      (xs.map h).prod = ENNReal.ofReal (xs.map f).prod := by
  induction xs with
  | nil => simp
  | cons x xs ih =>
      obtain ⟨hx, hEq⟩ := hAll x (by simp)
      obtain ⟨hxs, hProd⟩ := ih fun y hy => hAll y (by simp [hy])
      simp only [List.map_cons, List.prod_cons]
      exact ⟨mul_nonneg hx hxs, by rw [hEq, hProd, ENNReal.ofReal_mul hx]⟩

/-- If the products on the right sides agree, so do the sums over the rules. -/
theorem ofReal_nilStep {f : SymbolId → ℝ} {h : Weighting} {x : SymbolId}
    (hNonneg : ∀ r ∈ rules, 0 ≤ r.probability)
    (hRows : ∀ r ∈ rules, r.lhs = x → 0 ≤ (r.rhs.map f).prod ∧
      (r.rhs.map (h · [])).prod = ENNReal.ofReal (r.rhs.map f).prod) :
    0 ≤ nilStep rules f x ∧ expand (valued ENNReal.ofReal rules) h x [] =
      ENNReal.ofReal (nilStep rules f x) := by
  induction rules with
  | nil => simp [nilStep, valued]
  | cons r rules ih =>
      obtain ⟨hRest, hSum⟩ := ih (fun s hs => hNonneg s (by simp [hs]))
        fun s hs => hRows s (by simp [hs])
      have hHead : 0 ≤ nilTerm f x r ∧
          ruleWeight h x [] ⟨r.lhs, r.rhs, ENNReal.ofReal r.probability⟩ =
            ENNReal.ofReal (nilTerm f x r) := by
        have hr := hNonneg r (by simp)
        unfold nilTerm ruleWeight
        by_cases hLhs : r.lhs = x
        · obtain ⟨hProd, hEq⟩ := hRows r (by simp) hLhs
          simp only [if_pos hLhs, row_apply_nil, hEq, ENNReal.ofReal_mul hr,
            and_true]
          exact mul_nonneg hr hProd
        · simp [hLhs]
      have hCons : nilStep (r :: rules) f x =
          nilTerm f x r + nilStep rules f x := by
        rw [nilStep, List.map_cons, List.sum_cons, ← nilStep]
      rw [hCons, valued_cons, expand_cons, hHead.2, hSum,
        ENNReal.ofReal_add hHead.1 hRest]
      exact ⟨add_nonneg hHead.1 hRest, rfl⟩

/-- Where the symbols lie in layers, a solution of the equations of erasure has
the weights of the empty word. -/
theorem totals_nil_of_ranks {isTerminal : SymbolId → Bool}
    {rank : SymbolId → Nat} {f : SymbolId → ℝ}
    (hNonneg : ∀ r ∈ rules, 0 ≤ r.probability)
    (hHead : ∀ r ∈ rules, isTerminal r.lhs = false)
    (hEmpty : ∀ r ∈ rules, emptyId ∉ r.rhs) (hRank : Ranks rules rank)
    (hSolves : ∀ x ∈ erasables rules, nilStep rules f x = f x)
    (hOther : ∀ x, x ∉ erasables rules → f x = 0) :
    ∀ x ∈ erasables rules, 0 ≤ f x ∧
      totals isTerminal (valued ENNReal.ofReal rules) x [] =
        ENNReal.ofReal (f x) := by
  intro x
  induction hn : rank x using Nat.strong_induction_on generalizing x with
  | _ n ih =>
      intro hx
      have hTerminal : isTerminal x = false :=
        erasables_induction (p := fun x => isTerminal x = false)
          (fun r hr _ => hHead r hr) x hx
      rw [totals, withLeaves_nonterminal hTerminal, ← expand_total,
        ← hSolves x hx]
      refine ofReal_nilStep hNonneg fun r hr hLhs => ?_
      by_cases hAll : ∀ y ∈ r.rhs, y ∈ erasables rules
      · -- all symbols on the right lie in lower layers
        refine ofReal_prod fun y hy => ?_
        obtain ⟨before, after, hSplit⟩ := List.append_of_mem hy
        have hLower := hRank x y ⟨r, hr, hLhs, before, after, hSplit,
          fun z hz => hAll z ?_⟩
        · exact ih (rank y) (hn ▸ hLower) y rfl (hAll y hy)
        · rw [hSplit]
          exact ((List.sublist_cons_self y after).append_left before).subset hz
      · -- one that is not erasable makes both products zero
        push Not at hAll
        obtain ⟨y, hy, hNot⟩ := hAll
        have hNe : y ≠ emptyId := fun hEq => hEmpty r hr (hEq ▸ hy)
        have hProd : (r.rhs.map f).prod = 0 :=
          List.prod_eq_zero (List.mem_map.2 ⟨y, hy, hOther y hNot⟩)
        have hWeight : (r.rhs.map (totals isTerminal
            (valued ENNReal.ofReal rules) · [])).prod = 0 :=
          List.prod_eq_zero (List.mem_map.2
            ⟨y, hy, totals_nil_eq_zero hEmpty hNe hNot⟩)
        rw [hProd, hWeight, ENNReal.ofReal_zero]
        exact ⟨le_rfl, rfl⟩

/-- Where the symbols lie in layers, a fit without a residual finds the
probabilities of deriving the empty word. -/
theorem isFitted_of_residual {g : Grammar ℝ} {s : Stage ℝ}
    (hPrepared : Prepared g s) (hNonneg : ∀ r ∈ s.rules, 0 ≤ r.probability)
    (hLayered : Layered s.rules)
    (hResidual : (Erasure.fit options s.rules).residual = 0) :
    IsFitted options s := by
  obtain ⟨rank, hRank⟩ := hLayered
  intro x p hKnown
  have hProbability : (Erasure.fit options s.rules).probability x = p := by
    rw [Erasure.probability, hKnown, Option.getD_some]
  have hOther : ∀ y, y ∉ erasables s.rules →
      (Erasure.fit options s.rules).probability y = 0 := by
    intro y hy
    rw [Erasure.probability, probability?_fit_eq_none_iff.2 hy,
      Option.getD_none]
  rw [Grammar.hasProbability_iff hPrepared.wellFormed_grammar hNonneg,
    ← hProbability]
  exact totals_nil_of_ranks hNonneg hPrepared.plain.head
    hPrepared.plain.noEmpty hRank
    ((residual_fit_eq_zero_iff hPrepared.length).1 hResidual)
    hOther x (mem_erasables_of_eq_some hKnown)

end StochasticGrammar.NormalForm
