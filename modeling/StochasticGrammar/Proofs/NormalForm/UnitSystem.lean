import Mathlib.Analysis.SpecificLimits.Basic
import Mathlib.LinearAlgebra.Matrix.NonsingularInverse
import StochasticGrammar.Proofs.NormalForm.UnitRules

/-!
# The linear system of the unit rules

The probabilities of renaming solve the equations of a first step.  So do the
sums over all chains, if they are finite.  The difference of two solutions is
what chains of any length make of it, and finite sums have terms that go to
zero, so there is one solution only.  Hence an exact solver finds the sums.

Main results: `rename_eq_chainTotal`, `renames_ofReal`.
-/

namespace StochasticGrammar.NormalForm

open Weighting
open scoped ENNReal

/-! ## The matrix of the unit rules -/

section Matrix

variable {β : Type} [Semiring β] {rules : List (Rule β)}

theorem sumWhere_cons (r : Rule β) (rules : List (Rule β))
    (p : Rule β → Bool) :
    sumWhere (r :: rules) p =
      (if p r then r.probability else 0) + sumWhere rules p := by
  have hSum : ∀ rs : List (Rule β), sumWhere rs p =
      ((rs.filter p).map (·.probability)).sum := by
    intro rs
    rw [sumWhere, List.sum_eq_foldl, List.foldl_map]
  rw [hSum, hSum]
  by_cases hp : p r = true
  · rw [List.filter_cons_of_pos hp, if_pos hp, List.map_cons, List.sum_cons]
  · rw [List.filter_cons_of_neg hp, if_neg hp, zero_add]

theorem unitTotal_cons (r : Rule β) (x t : SymbolId) :
    unitTotal (r :: rules) x t =
      (if r.lhs = x ∧ r.rhs = [t] then r.probability else 0) +
        unitTotal rules x t := by
  have hCons := sumWhere_cons r rules fun r => r.lhs == x && r.rhs == [t]
  simp only [Bool.and_eq_true, beq_iff_eq] at hCons
  exact hCons

/-- A step to one symbol is taken with the probabilities of its rules. -/
theorem unitStep_ite (x y : SymbolId) :
    unitStep rules (fun t => if t = y then 1 else 0) x =
      unitTotal rules x y := by
  induction rules with
  | nil => rfl
  | cons r rules ih =>
      rw [unitStep_cons, unitTotal_cons, ih]
      refine congrArg (· + _) ?_
      unfold unitTerm
      split
      · rename_i t hRhs
        simp only [hRhs, List.cons.injEq, and_true, ite_and, mul_ite, mul_one,
          mul_zero]
      · rename_i hNot
        rw [if_neg fun hBoth => hNot y hBoth.2]

theorem entry_unitMatrix (rows targets : List SymbolId)
    (i : Fin rows.length) (j : Fin targets.length) :
    (unitMatrix rules rows targets).entry i j =
      unitTotal rules (rows.get i) (targets.get j) := by
  have hOwn : unitTotal (rules.filter fun r => r.lhs == rows.get i &&
      r.rhs.length == 1) (rows.get i) (targets.get j) =
        unitTotal rules (rows.get i) (targets.get j) := by
    rw [unitTotal, unitTotal, List.filter_filter]
    refine congrArg (List.foldl _ 0) (List.filter_congr fun r _ => ?_)
    by_cases hRhs : r.rhs = [targets.get j]
    · simp [hRhs]
    · have hNo : (r.rhs == [targets.get j]) = false := by simpa using hRhs
      rw [hNo, Bool.and_false, Bool.false_and]
  rw [← hOwn]
  simp [unitMatrix, Mat.entry, Mat.row, Vec.entry]

/-- A step over all unit rules is a sum over what they may lead to. -/
theorem unitStep_eq_sum {xs : List SymbolId} (hNodup : xs.Nodup)
    (hTargets : ∀ r ∈ rules, ∀ t ∈ r.rhs, t ∈ xs) (f : SymbolId → β)
    (x : SymbolId) :
    unitStep rules f x =
      (xs.map fun t => unitTotal rules x t * f t).sum := by
  induction rules with
  | nil => simp [unitStep, unitTotal]
  | cons r rules ih =>
      have hHead : (xs.map fun t => (if r.lhs = x ∧ r.rhs = [t] then
          r.probability else 0) * f t).sum = unitTerm f x r := by
        rw [← List.sum_toFinset _ hNodup]
        unfold unitTerm
        split
        · rename_i t hRhs
          rw [Finset.sum_eq_single t]
          · simp [hRhs]
          · intro u _ hNe
            simp [hRhs, hNe.symm]
          · intro hNot
            have hMem := hTargets r (by simp) t (by simp [hRhs])
            exact absurd (List.mem_toFinset.2 hMem) hNot
        · rename_i hRhs
          refine Finset.sum_eq_zero fun t _ => ?_
          rw [if_neg fun h => hRhs t h.2, zero_mul]
      rw [unitStep_cons, ih fun s hs => hTargets s (by simp [hs]), ← hHead,
        ← List.sum_map_add]
      simp only [unitTotal_cons, add_mul]

end Matrix

/-! ## Reading a solution -/

section Reading

variable {β : Type} {c : Chains β}

theorem findFinIdx?_get {xs : List SymbolId} (hNodup : xs.Nodup)
    (i : Fin xs.length) : xs.findFinIdx? (· == xs.get i) = some i := by
  rw [List.findFinIdx?_eq_some_iff]
  refine ⟨by simp, fun j hji hEq => ?_⟩
  have hSame : xs[j] = xs[i] := by simpa using hEq
  have hIndex := (hNodup.getElem_inj_iff).1 hSame
  omega

theorem total?_of_mem (hRows : c.rows.Nodup) (hTargets : c.targets.Nodup)
    (i : Fin c.rows.length) (j : Fin c.targets.length) :
    c.total? c.rows[i] c.targets[j] = some (c.totals.entry i j) := by
  have hRow : c.rows.findFinIdx? (· == c.rows[i]) = some i :=
    findFinIdx?_get hRows i
  have hTarget : c.targets.findFinIdx? (· == c.targets[j]) = some j :=
    findFinIdx?_get hTargets j
  rw [Chains.total?, hRow, hTarget]
  rfl

variable [Zero β] [One β] [Add β]

theorem rename_of_mem (hRows : c.rows.Nodup) (hTargets : c.targets.Nodup)
    (i : Fin c.rows.length) (j : Fin c.targets.length) :
    c.rename c.rows[i] c.targets[j] =
      (if c.rows[i] = c.targets[j] then 1 else 0) + c.totals.entry i j := by
  rw [Chains.rename, total?_of_mem hRows hTargets]

theorem rename_of_notMem {x : SymbolId} (hx : x ∉ c.rows) (y : SymbolId) :
    c.rename x y = if x = y then 1 else 0 := by
  have hNone : c.total? x y = none := by
    have hRow : c.rows.findFinIdx? (· == x) = none := by
      rw [List.findFinIdx?_eq_none_iff]
      intro z hz hEq
      exact hx (eq_of_beq hEq ▸ hz)
    rw [Chains.total?, hRow]
    rfl
  rw [Chains.rename, hNone]

end Reading

/-- A sum over the probabilities of renaming to a symbol, taken apart. -/
theorem sum_mul_rename {β : Type} [Semiring β] {rows others : List SymbolId}
    (hNodup : (rows ++ others).Nodup)
    (x : Mat β rows.length (rows ++ others).length) (u : SymbolId → β)
    (j : Fin (rows ++ others).length) :
    ((rows ++ others).map fun t => u t *
      (⟨rows, rows ++ others, x⟩ : Chains β).rename t
        ((rows ++ others).get j)).sum =
      u ((rows ++ others).get j) + ∑ k : Fin rows.length,
        u (rows.get k) * x.entry k j := by
  have hRows : rows.Nodup := (List.nodup_append.1 hNodup).1
  have hNot : ∀ z ∈ others, z ∉ rows :=
    fun z hz hMem => (List.nodup_append.1 hNodup).2.2 z hMem z hz rfl
  have hGet := List.get_mem (rows ++ others) j
  have hRename : ∀ k, (⟨rows, rows ++ others, x⟩ : Chains β).rename
      (rows.get k) ((rows ++ others).get j) =
        (if rows.get k = (rows ++ others).get j then 1 else 0) +
          x.entry k j :=
    fun k => rename_of_mem (c := ⟨rows, rows ++ others, x⟩) hRows hNodup k j
  generalize (rows ++ others).get j = y at hGet hRename ⊢
  have hFirst : (rows.map fun t => u t *
      (⟨rows, rows ++ others, x⟩ : Chains β).rename t y).sum =
      (rows.map fun t => u t * if t = y then 1 else 0).sum +
        ∑ k : Fin rows.length, u (rows.get k) * x.entry k j := by
    rw [← Fin.sum_univ_fun_getElem, ← Fin.sum_univ_fun_getElem,
      ← Finset.sum_add_distrib]
    refine Finset.sum_congr rfl fun k _ => ?_
    show u (rows.get k) * _ = u (rows.get k) * _ + _
    rw [← mul_add]
    exact congrArg _ (hRename k)
  have hSecond : (others.map fun t => u t *
      (⟨rows, rows ++ others, x⟩ : Chains β).rename t y) =
      others.map fun t => u t * if t = y then 1 else 0 := by
    refine List.map_congr_left fun t ht => ?_
    rw [rename_of_notMem (c := ⟨rows, rows ++ others, x⟩) (hNot t ht)]
  have hDelta : ((rows ++ others).map fun t => u t *
      if t = y then 1 else 0).sum = u y := by
    rw [← List.sum_toFinset _ hNodup, Finset.sum_eq_single y]
    · rw [if_pos rfl, mul_one]
    · intro t _ hNe
      rw [if_neg hNe, mul_zero]
    · intro hOut
      exact absurd (List.mem_toFinset.2 hGet) hOut
  rw [List.map_append, List.sum_append] at hDelta
  rw [List.map_append, List.sum_append, hFirst, hSecond, ← hDelta,
    add_right_comm]

noncomputable section

/-! ## Sums over chains -/

section Sums

variable {rules : List (Rule ℝ)}

/-- The sum over the chains of unit rules from one symbol to another. -/
def chainTotal (rules : List (Rule ℝ)) (x y : SymbolId) : ℝ :=
  tsum fun n => chainWeight rules n x y

/-- If unit rules lead to lower ranks, the sums over the chains are finite. -/
theorem summable_of_rank {rank : SymbolId → Nat}
    (hRank : ∀ r ∈ rules, ∀ t, r.rhs = [t] → rank t < rank r.lhs)
    (x y : SymbolId) : Summable fun n => chainWeight rules n x y := by
  refine summable_of_ne_finset_zero (s := Finset.range (rank x + 1))
    fun n hn => ?_
  refine chainWeight_eq_zero_of_lt hRank y n x ?_
  rw [Finset.mem_range] at hn
  omega

theorem hasSum_unitStep {f : ℕ → SymbolId → ℝ} {total : SymbolId → ℝ}
    (h : ∀ t, HasSum (fun n => f n t) (total t)) (x : SymbolId) :
    HasSum (fun n => unitStep rules (f n) x) (unitStep rules total x) := by
  have hTerm : ∀ r : Rule ℝ,
      HasSum (fun n => unitTerm (f n) x r) (unitTerm total x r) := by
    intro r
    unfold unitTerm
    split
    · split
      · exact (h _).mul_left _
      · exact hasSum_zero
    · exact hasSum_zero
  induction rules with
  | nil => exact hasSum_zero
  | cons r rules ih =>
      simp only [unitStep_cons]
      exact (hTerm r).add ih

/-- The sums solve the equations of a first step. -/
theorem chainTotal_eq
    (hFinite : ∀ x y, Summable fun n => chainWeight rules n x y)
    (x y : SymbolId) :
    chainTotal rules x y = (if x = y then 1 else 0) +
      unitStep rules (fun t => chainTotal rules t y) x := by
  have hAll : HasSum (fun n => chainWeight rules (n + 1) x y)
      (unitStep rules (fun t => chainTotal rules t y) x) :=
    hasSum_unitStep (fun t => (hFinite t y).hasSum) x
  rw [chainTotal, (hFinite x y).tsum_eq_zero_add, hAll.tsum_eq]
  rfl

/-- What solves the equations without an inhomogeneous part is what chains of
any length make of it. -/
theorem eq_sum_chainWeight {d : SymbolId → ℝ} {s : Finset SymbolId}
    (hClosed : ∀ r ∈ rules, r.lhs ∈ s → ∀ t, r.rhs = [t] → t ∈ s)
    (hd : ∀ x ∈ s, d x = unitStep rules d x) (n : ℕ) :
    ∀ x ∈ s, d x = ∑ y ∈ s, chainWeight rules n x y * d y := by
  induction n with
  | zero =>
      intro x hx
      rw [Finset.sum_eq_single_of_mem x hx]
      · simp [chainWeight]
      · intro y _ hNe
        simp [chainWeight, hNe.symm]
  | succ n ih =>
      intro x hx
      rw [hd x hx, unitStep_congr fun r hr hLhs t hRhs =>
        ih t (hClosed r hr (hLhs ▸ hx) t hRhs), unitStep_sum]
      refine Finset.sum_congr rfl fun y _ => ?_
      rw [← unitStep_mul]
      rfl

/-- If the sums are finite, only zero solves them. -/
theorem eq_zero_of_unitStep {d : SymbolId → ℝ} {s : Finset SymbolId}
    (hFinite : ∀ x y, Summable fun n => chainWeight rules n x y)
    (hClosed : ∀ r ∈ rules, r.lhs ∈ s → ∀ t, r.rhs = [t] → t ∈ s)
    (hd : ∀ x ∈ s, d x = unitStep rules d x) {x : SymbolId} (hx : x ∈ s) :
    d x = 0 := by
  have hZero : Filter.Tendsto
      (fun n => ∑ y ∈ s, chainWeight rules n x y * d y) Filter.atTop
        (nhds (∑ y ∈ s, 0 * d y)) :=
    tendsto_finsetSum s fun y _ =>
      (hFinite x y).tendsto_atTop_zero.mul_const (d y)
  have hConst : (fun n => ∑ y ∈ s, chainWeight rules n x y * d y) =
      fun _ => d x :=
    funext fun n => (eq_sum_chainWeight hClosed hd n x hx).symm
  rw [hConst] at hZero
  simp only [zero_mul, Finset.sum_const_zero] at hZero
  exact tendsto_nhds_unique tendsto_const_nhds hZero

/-! ### As extended numbers -/

theorem unitTerm_nonneg {r : Rule ℝ} (hr : 0 ≤ r.probability)
    {f : SymbolId → ℝ} (hf : ∀ t, 0 ≤ f t) (x : SymbolId) :
    0 ≤ unitTerm f x r := by
  unfold unitTerm
  split
  · split
    · exact mul_nonneg hr (hf _)
    · exact le_refl _
  · exact le_refl _

theorem unitTerm_ofReal {r : Rule ℝ} (hr : 0 ≤ r.probability)
    (f : SymbolId → ℝ) (x : SymbolId) :
    unitTerm (fun t => ENNReal.ofReal (f t)) x
        ⟨r.lhs, r.rhs, ENNReal.ofReal r.probability⟩ =
      ENNReal.ofReal (unitTerm f x r) := by
  match hRhs : r.rhs with
  | [] => simp [unitTerm, hRhs]
  | [t] =>
      by_cases hLhs : r.lhs = x
      · simp [unitTerm, hRhs, hLhs, ENNReal.ofReal_mul hr]
      · simp [unitTerm, hRhs, hLhs]
  | _ :: _ :: _ => simp [unitTerm, hRhs]

variable (hNonneg : ∀ r ∈ rules, 0 ≤ r.probability)

include hNonneg

theorem unitStep_nonneg {f : SymbolId → ℝ} (hf : ∀ t, 0 ≤ f t)
    (x : SymbolId) : 0 ≤ unitStep rules f x := by
  refine List.sum_nonneg fun y hy => ?_
  obtain ⟨r, hr, rfl⟩ := List.mem_map.1 hy
  exact unitTerm_nonneg (hNonneg r hr) hf x

theorem chainWeight_nonneg (n : ℕ) (y : SymbolId) :
    ∀ x, 0 ≤ chainWeight rules n x y := by
  induction n with
  | zero =>
      intro x
      unfold chainWeight
      split
      · exact zero_le_one
      · exact le_refl _
  | succ n ih => exact unitStep_nonneg hNonneg ih

theorem unitStep_le {f f' : SymbolId → ℝ} (h : ∀ t, f t ≤ f' t)
    (x : SymbolId) : unitStep rules f x ≤ unitStep rules f' x := by
  refine List.sum_le_sum fun r hr => ?_
  unfold unitTerm
  split
  · split
    · exact mul_le_mul_of_nonneg_left (h _) (hNonneg r hr)
    · exact le_refl _
  · exact le_refl _

/-- If the unit rules of each symbol have a probability below one, the sums
over the chains are finite. -/
theorem summable_chainWeight {q : ℝ}
    (hq : ∀ x, unitStep rules (fun _ => 1) x ≤ q) (hLt : q < 1)
    (x y : SymbolId) : Summable fun n => chainWeight rules n x y := by
  have hPos : 0 ≤ q :=
    (unitStep_nonneg hNonneg (fun _ => zero_le_one) x).trans (hq x)
  have hPow : ∀ n x, chainWeight rules n x y ≤ q ^ n := by
    intro n
    induction n with
    | zero =>
        intro x
        rw [pow_zero]
        unfold chainWeight
        split
        · exact le_refl _
        · exact zero_le_one
    | succ n ih =>
        intro x
        calc chainWeight rules (n + 1) x y
            ≤ unitStep rules (fun _ => 1 * q ^ n) x :=
              unitStep_le hNonneg (fun t => (ih t).trans_eq (one_mul _).symm) x
          _ = unitStep rules (fun _ => 1) x * q ^ n :=
              (unitStep_mul rules (fun _ => 1) (q ^ n) x).symm
          _ ≤ q * q ^ n :=
              mul_le_mul_of_nonneg_right (hq x) (pow_nonneg hPos n)
          _ = q ^ (n + 1) := (pow_succ' q n).symm
  exact Summable.of_nonneg_of_le (fun n => chainWeight_nonneg hNonneg n y x)
    (fun n => hPow n x) (summable_geometric_of_lt_one hPos hLt)

theorem unitStep_ofReal {f : SymbolId → ℝ} (hf : ∀ t, 0 ≤ f t)
    (x : SymbolId) :
    unitStep (valued ENNReal.ofReal rules) (fun t => ENNReal.ofReal (f t)) x =
      ENNReal.ofReal (unitStep rules f x) := by
  induction rules with
  | nil => simp [valued, unitStep]
  | cons r rules ih =>
      have hHead := hNonneg r (by simp)
      have hTail : ∀ s ∈ rules, 0 ≤ s.probability :=
        fun s hs => hNonneg s (by simp [hs])
      rw [valued_cons, unitStep_cons, unitStep_cons, ih hTail,
        unitTerm_ofReal hHead, ENNReal.ofReal_add (unitTerm_nonneg hHead hf x)
          (unitStep_nonneg hTail hf x)]

theorem chainWeight_ofReal (n : ℕ) (y : SymbolId) :
    ∀ x, chainWeight (valued ENNReal.ofReal rules) n x y =
      ENNReal.ofReal (chainWeight rules n x y) := by
  induction n with
  | zero =>
      intro x
      unfold chainWeight
      split
      · rw [ENNReal.ofReal_one]
      · rw [ENNReal.ofReal_zero]
  | succ n ih =>
      intro x
      unfold chainWeight
      simp only [ih]
      exact unitStep_ofReal hNonneg (chainWeight_nonneg hNonneg n y) x

theorem chainTotal_nonneg (x y : SymbolId) : 0 ≤ chainTotal rules x y :=
  tsum_nonneg fun n => chainWeight_nonneg hNonneg n y x

theorem renameWeight_ofReal
    (hFinite : ∀ x y, Summable fun n => chainWeight rules n x y)
    (x y : SymbolId) :
    renameWeight (valued ENNReal.ofReal rules) x y =
      ENNReal.ofReal (chainTotal rules x y) := by
  rw [renameWeight, chainTotal, ENNReal.ofReal_tsum_of_nonneg
    (fun n => chainWeight_nonneg hNonneg n y x) (hFinite x y)]
  simp only [chainWeight_ofReal hNonneg]

end Sums

/-! ## The equations of a first step -/

/-- What a solver of linear systems returns is a solution. -/
def IsExact (solve : (n m : Nat) → Mat ℝ n n → Mat ℝ n m →
    Option (Mat ℝ n m)) : Prop :=
  ∀ (n m : Nat) (a : Mat ℝ n n) (b x : Mat ℝ n m), solve n m a b = some x →
    ∀ i j, ∑ k, a.entry i k * x.entry k j = b.entry i j

/-- A matrix as a function of two positions. -/
def toMatrix {n m : Nat} (a : Mat ℝ n m) : Matrix (Fin n) (Fin m) ℝ :=
  Matrix.of a.entry

open Classical in
/-- Solves a linear system by the inverse matrix, if there is one. -/
def solveByInverse (n m : Nat) (a : Mat ℝ n n) (b : Mat ℝ n m) :
    Option (Mat ℝ n m) :=
  if IsUnit (toMatrix a).det then
    some (.ofFn fun i j => ((toMatrix a)⁻¹ * toMatrix b) i j)
  else none

theorem isSome_solveByInverse {n m : Nat} {a : Mat ℝ n n} {b : Mat ℝ n m}
    (h : IsUnit (toMatrix a).det) : (solveByInverse n m a b).isSome := by
  unfold solveByInverse
  rw [if_pos h]
  rfl

theorem isExact_solveByInverse : IsExact solveByInverse := by
  intro n m a b x hSolve i j
  unfold solveByInverse at hSolve
  split at hSolve
  · rename_i hUnit
    cases hSolve
    simp only [Mat.entry_ofFn]
    show (toMatrix a * ((toMatrix a)⁻¹ * toMatrix b)) i j = toMatrix b i j
    rw [Matrix.mul_nonsing_inv_cancel_left _ _ hUnit]
  · simp at hSolve

section Real

variable {al : Alphabet} {rules : List (Rule ℝ)} {c : Chains ℝ}

theorem nodup_columns (hal : al.WellFormed) : (columns al).Nodup := by
  rw [columns, ← Alphabet.map_id_symbols]
  exact hal.nodup_ids

/-- What an exact solver finds solves the equations. -/
theorem totals_eq {options : Options ℝ} (hExact : IsExact options.solveUnits)
    (hSolve : Chains.solve options al rules = .ok c) :
    ∃ x : Mat ℝ (al.ids .nonterminal).length (columns al).length,
      c = ⟨al.ids .nonterminal, columns al, x⟩ ∧
      ∀ i j, x.entry i j = unitTotal rules (al.ids .nonterminal)[i]
          (columns al)[j] +
        ∑ k, unitTotal rules (al.ids .nonterminal)[i]
          (al.ids .nonterminal)[k] * x.entry k j := by
  obtain ⟨x, hTable, hUnits⟩ := Chains.solve_eq_ok hSolve
  refine ⟨x, hTable, fun i j => ?_⟩
  have hRow := hExact _ _ _ _ _ hUnits i j
  simp only [Mat.subOne, Mat.neg, Mat.entry_ofFn, entry_unitMatrix, sub_mul,
    Finset.sum_sub_distrib, Mat.delta, ite_mul, one_mul, zero_mul,
    Finset.sum_ite_eq, Finset.mem_univ, if_true, List.get_eq_getElem] at hRow
  simp only [Fin.getElem_fin]
  linarith

variable (hal : al.WellFormed) (hPlain : Plain al rules)

include hal hPlain

/-- The probabilities of renaming solve the equations of a first step. -/
theorem rename_eq {options : Options ℝ} (hExact : IsExact options.solveUnits)
    (hSolve : Chains.solve options al rules = .ok c) {x y : SymbolId}
    (hx : al.hasId x = true) (hy : al.hasId y = true) :
    c.rename x y = (if x = y then 1 else 0) +
      unitStep rules (fun t => c.rename t y) x := by
  obtain ⟨totals, rfl, hTotals⟩ := totals_eq hExact hSolve
  have hNodup := nodup_columns hal
  by_cases hTerminal : al.isTerminal x = true
  · -- no rule begins with a terminal
    have hRow : x ∉ al.ids .nonterminal := by
      intro hMem
      rw [hal.not_isTerminal hMem] at hTerminal
      simp at hTerminal
    rw [unitStep_eq_zero (fun r hr hLhs => ?_), add_zero]
    · exact rename_of_notMem hRow y
    · have hHead := hPlain.head r hr
      rw [hLhs, hTerminal] at hHead
      simp at hHead
  · have hRow : x ∈ al.ids .nonterminal := by
      rcases (Alphabet.hasId_iff_mem_ids al x).1 hx with hMem | hMem
      · exact hMem
      · exact absurd ((Alphabet.isTerminal_iff al x).2 hMem) hTerminal
    obtain ⟨i, hi, rfl⟩ := List.getElem_of_mem hRow
    obtain ⟨j, hj, rfl⟩ := List.getElem_of_mem (mem_columns.2 hy)
    have hTargets : ∀ r ∈ rules, ∀ t ∈ r.rhs, t ∈ columns al :=
      fun r hr t ht => mem_columns.2 (hPlain.known r hr t (by simp [ht]))
    rw [unitStep_eq_sum hNodup hTargets]
    refine (rename_of_mem (c := ⟨al.ids .nonterminal, columns al, totals⟩)
      (List.nodup_append.1 hNodup).1 hNodup ⟨i, hi⟩ ⟨j, hj⟩).trans ?_
    refine congrArg _ ((hTotals ⟨i, hi⟩ ⟨j, hj⟩).trans ?_)
    exact (sum_mul_rename hNodup totals _ ⟨j, hj⟩).symm

variable {options : Options ℝ} (hExact : IsExact options.solveUnits)
  (hSolve : Chains.solve options al rules = .ok c)
  (hFinite : ∀ x y, Summable fun n => chainWeight rules n x y)

include hExact hSolve hFinite

/-- An exact solver finds the sums over all chains. -/
theorem rename_eq_chainTotal {x y : SymbolId} (hx : al.hasId x = true)
    (hy : al.hasId y = true) : c.rename x y = chainTotal rules x y := by
  have hMem : ∀ z, z ∈ (unitClosure (renamings rules) x).toFinset ↔
      z ∈ unitClosure (renamings rules) x := fun z => List.mem_toFinset
  refine sub_eq_zero.1 (eq_zero_of_unitStep
    (d := fun z => c.rename z y - chainTotal rules z y) hFinite ?_ ?_
    ((hMem x).2 (self_mem_unitClosure _ x)))
  · intro r hr hLhs t hRhs
    exact (hMem t).2 (mem_unitClosure_of_edge
      (mem_renamings.2 ⟨r, hr, rfl, hRhs⟩) ((hMem r.lhs).1 hLhs))
  · intro z hz
    have hId := hPlain.hasId_of_mem_unitClosure hx z ((hMem z).1 hz)
    show c.rename z y - chainTotal rules z y =
      unitStep rules (fun t => c.rename t y - chainTotal rules t y) z
    have hAdd := unitStep_add rules
      (fun t => c.rename t y - chainTotal rules t y)
      (fun t => chainTotal rules t y) z
    simp only [sub_add_cancel] at hAdd
    rw [rename_eq hal hPlain hExact hSolve hId hy,
      chainTotal_eq hFinite, hAdd]
    ring

/-- So the probabilities of renaming have the weights of the chains. -/
theorem renames_ofReal (hNonneg : ∀ r ∈ rules, 0 ≤ r.probability) :
    Renames ENNReal.ofReal (fun p => 0 ≤ p) al c rules := by
  have hRename : ∀ {x s : SymbolId}, al.hasId x = true →
      s ∈ unitClosure (renamings rules) x →
      c.rename x s = chainTotal rules x s := fun {x s} hx hs =>
    rename_eq_chainTotal hal hPlain hExact hSolve hFinite hx
      (hPlain.hasId_of_mem_unitClosure hx s hs)
  constructor
  · intro q x s hx hq hs
    rw [hRename hx hs]
    exact mul_nonneg hq (chainTotal_nonneg hNonneg x s)
  · intro q x s hx hq hs
    rw [hRename hx hs, ENNReal.ofReal_mul hq,
      renameWeight_ofReal hNonneg hFinite]
  · intro x hx _
    rw [hRename hal.hasId_startId hx]
    exact chainTotal_nonneg hNonneg startId x
  · intro x hx _
    rw [hRename hal.hasId_startId hx, renameWeight_ofReal hNonneg hFinite]

end Real

end

end StochasticGrammar.NormalForm
