import Mathlib.Topology.Algebra.InfiniteSum.Real
import StochasticGrammar.Proofs.NormalForm.Probability

/-!
# Nonnegative results

The system of the unit rules may have a solution where the sums over the chains
of unit rules are not finite, and such a solution is not made of probabilities:
some chains have a negative one.  If the sums are finite, the solution and all
probabilities of the result are nonnegative.

A solution that is nonnegative bounds the sums over any number of chains, since
the equations of a first step carry the bound from one number of steps to the
next.

Main results: `rename_nonneg_iff`, `nonneg_of_result`.
-/

namespace StochasticGrammar.NormalForm

noncomputable section

variable {options : Options ℝ} {al : Alphabet} {rules : List (Rule ℝ)}
  {chains : Chains ℝ}

/-! ## The solution for all symbols -/

theorem rename_of_notMem_targets {x y : SymbolId} (hy : y ∉ chains.targets) :
    chains.rename x y = if x = y then 1 else 0 := by
  have hNone : chains.total? x y = none := by
    have hColumn : chains.targets.findFinIdx? (· == y) = none := by
      rw [List.findFinIdx?_eq_none_iff]
      intro z hz hEq
      exact hy (eq_of_beq hEq ▸ hz)
    rw [Chains.total?, hColumn]
    cases chains.rows.findFinIdx? (· == x) <;> rfl
  rw [Chains.rename, hNone]

/-- A symbol that is not there is renamed to itself only, and no other symbol
is renamed to it. -/
theorem rename_of_not_hasId
    (hSolve : Chains.solve options al rules = .ok chains) {x y : SymbolId}
    (hId : al.hasId x = false ∨ al.hasId y = false) :
    chains.rename x y = if x = y then 1 else 0 := by
  obtain ⟨totals, rfl, _⟩ := Chains.solve_eq_ok hSolve
  rcases hId with hx | hy
  · refine rename_of_notMem (fun hMem => ?_) y
    rw [(Alphabet.hasId_iff_mem_ids al x).2 (.inl hMem)] at hx
    cases hx
  · refine rename_of_notMem_targets fun hMem => ?_
    rw [mem_columns.1 hMem] at hy
    cases hy

section Solution

variable (hal : al.WellFormed) (hPlain : Plain al rules)
  (hExact : IsExact options.solveUnits)
  (hSolve : Chains.solve options al rules = .ok chains)

include hal hPlain hExact hSolve

/-- The probabilities of renaming solve the equations of a first step, whatever
the symbols. -/
theorem rename_eq_add_unitStep (x y : SymbolId) :
    chains.rename x y = (if x = y then 1 else 0) +
      unitStep rules (fun t => chains.rename t y) x := by
  by_cases hx : al.hasId x = true
  · by_cases hy : al.hasId y = true
    · exact rename_eq hal hPlain hExact hSolve hx hy
    · have hy : al.hasId y = false := by simpa using hy
      have hNone : unitStep rules (fun t => chains.rename t y) x = 0 := by
        refine (unitStep_congr fun r hr _ t hRhs => ?_).trans
          (unitStep_zero rules x)
        have ht := hPlain.known r hr t (by simp [hRhs])
        rw [rename_of_not_hasId hSolve (.inr hy), if_neg]
        rintro rfl
        rw [ht] at hy
        cases hy
      rw [rename_of_not_hasId hSolve (.inr hy), hNone, add_zero]
  · have hx : al.hasId x = false := by simpa using hx
    rw [rename_of_not_hasId hSolve (.inl hx),
      unitStep_eq_zero (fun r hr hLhs => ?_), add_zero]
    rw [← hLhs, hPlain.known r hr r.lhs (by simp)] at hx
    cases hx

/-- If the solution is nonnegative, it bounds the sums over the chains. -/
theorem sum_chainWeight_le (hNonneg : ∀ r ∈ rules, 0 ≤ r.probability)
    (hRename : ∀ x y, 0 ≤ chains.rename x y) (y : SymbolId) (n : ℕ) :
    ∀ x, ∑ i ∈ Finset.range n, chainWeight rules i x y ≤
      chains.rename x y := by
  induction n with
  | zero =>
      intro x
      simpa using hRename x y
  | succ n ih =>
      intro x
      calc ∑ i ∈ Finset.range (n + 1), chainWeight rules i x y
          = (if x = y then 1 else 0) + unitStep rules
              (fun t => ∑ i ∈ Finset.range n, chainWeight rules i t y) x := by
            rw [Finset.sum_range_succ', add_comm, unitStep_sum]
            rfl
        _ ≤ (if x = y then 1 else 0) +
              unitStep rules (fun t => chains.rename t y) x := by
            gcongr
            exact unitStep_le hNonneg ih x
        _ = chains.rename x y :=
            (rename_eq_add_unitStep hal hPlain hExact hSolve x y).symm

/-- The solution is nonnegative exactly if the sums over the chains of unit
rules are finite. -/
theorem rename_nonneg_iff (hNonneg : ∀ r ∈ rules, 0 ≤ r.probability) :
    (∀ x y, 0 ≤ chains.rename x y) ↔
      ∀ x y, Summable fun n => chainWeight rules n x y := by
  constructor
  · intro hRename x y
    exact summable_of_sum_range_le
      (fun n => chainWeight_nonneg hNonneg n y x)
      fun n => sum_chainWeight_le hal hPlain hExact hSolve hNonneg hRename y n x
  · intro hFinite x y
    by_cases hKnown : al.hasId x = true ∧ al.hasId y = true
    · rw [rename_eq_chainTotal hal hPlain hExact hSolve hFinite hKnown.1
        hKnown.2]
      exact chainTotal_nonneg hNonneg x y
    · have hId : al.hasId x = false ∨ al.hasId y = false := by
        rwa [not_and_or, Bool.not_eq_true, Bool.not_eq_true] at hKnown
      rw [rename_of_not_hasId hSolve hId]
      split <;> norm_num

end Solution

/-! ## The result -/

theorem merges_zero (merge : Bool) :
    Merges (fun _ : ℝ => 0) (fun p => 0 ≤ p) merge where
  good_merge hp hq := by
    cases merge
    · exact hp
    · exact add_nonneg hp hq
  add _ _ := (add_zero 0).symm

theorem mem_of_probability?_eq_some {α : Type} {e : Erasure α} {x : SymbolId}
    {p : α} (h : e.probability? x = some p) : p ∈ e.probabilities := by
  obtain ⟨before, after, hZip, _⟩ := List.lookup_eq_some_iff.1 h
  have hMem : (x, p) ∈ e.symbols.zip e.probabilities := by simp [hZip]
  exact (List.of_mem_zip hMem).2

/-- If the sums over the chains of unit rules are finite, every rule of the
result has a nonnegative probability.  If they are not, then some chains have a
negative one in the solution that is used. -/
theorem nonneg_of_result {g c : Grammar ℝ} (hg : g.WellFormed)
    (hNonneg : ∀ r ∈ g.rules, 0 ≤ r.probability)
    (hExact : IsExact options.solveUnits)
    (hFitted : ∀ p ∈ (erasure options g).probabilities, 0 ≤ p)
    (hResult : result options g = .ok c) :
    ∃ e chains, emptied options g = .ok e ∧
      Chains.solve options e.alphabet e.rules = .ok chains ∧
      ((∀ x y, 0 ≤ chains.rename x y) ↔
        ∀ x y, Summable fun n => chainWeight e.rules n x y) ∧
      ((∀ x y, Summable fun n => chainWeight e.rules n x y) →
        ∀ r ∈ c.rules, 0 ≤ r.probability) := by
  obtain ⟨s, chains, h⟩ := exists_converted hResult
  have hPrepared := h.prepared hg
  have hFactor : ∀ {x : SymbolId} {p : ℝ},
      (Erasure.fit options s.rules).probability? x = some p → 0 ≤ p := by
    intro x p hx
    refine hFitted p ?_
    rw [erasure, h.split]
    exact mem_of_probability?_eq_some hx
  have hShort : ∀ r ∈ shortRules options s, 0 ≤ r.probability := by
    have hSplit := good_of_mem_split hg h.split zero_le_one hNonneg
    exact good_of_mem_withShortened hSplit fun hx r hr =>
      mul_nonneg (hSplit r hr) (hFactor hx)
  refine ⟨_, chains, h.emptied, h.solve, rename_nonneg_iff
    hPrepared.wellFormed (h.tidy hg).toPlain hExact h.solve hShort, ?_⟩
  intro hFinite r hr
  rw [h.result] at hr
  refine good_of_mem_finalRules (merges_zero _) ?_ le_of_lt r hr
  exact good_of_mem_withoutUnits
    (renames_ofReal hPrepared.wellFormed (h.tidy hg).toPlain hExact h.solve
      hFinite hShort) (h.tidy hg) hShort hPrepared.wellFormed.hasId_startId

/-- The letter of the small grammar has a nonnegative probability. -/
theorem nonneg_of_result_halves :
    ∃ c, result exactOptions halves = .ok c ∧
      ∀ r ∈ c.rules, 0 ≤ r.probability := by
  obtain ⟨chains, hSolve⟩ := exists_chains_halves
  have hResult : result exactOptions halves = _ :=
    result_detour (lt_irrefl 0) hSolve
  obtain ⟨e, _, hEmptied, _, _, hAll⟩ := nonneg_of_result
    (Grammar.wellFormed_detour (1 / 2) (1 / 4) (1 / 4)) halves_nonneg
    isExact_solveByInverse (by intro p hp; cases hp) hResult
  refine ⟨_, hResult, hAll ?_⟩
  cases emptied_detour.symm.trans hEmptied
  exact summable_chainWeight_halves

/-! ## A solution that is not made of probabilities -/

/-- Options of exact arithmetic that reject singular systems. -/
def testedOptions : Options ℝ :=
  open Classical in
  { exactOptions with
    verdict := fun _ a =>
      if IsUnit (toMatrix a).det then .regular else .singular }

theorem exists_chains_tested {al : Alphabet} {rules : List (Rule ℝ)}
    (hUnit : IsUnit (toMatrix (unitMatrix rules (al.ids .nonterminal)
      (al.ids .nonterminal)).subOne).det) :
    ∃ chains, Chains.solve testedOptions al rules = .ok chains :=
  exists_chains_of_regular _ _ (if_pos hUnit) (fun _ => rfl)
    (isSome_solveByInverse hUnit)

theorem exists_chains_doubled : ∃ chains,
    Chains.solve testedOptions Grammar.twoSymbols
      (Grammar.detour 1 2 1).rules = .ok chains := by
  refine exists_chains_tested (isUnit_pair ?_)
  norm_num [unitTotal, Grammar.detour, startId]

/-- The equations of a first step leave no choice. -/
theorem rename_doubled
    (hSolve : Chains.solve testedOptions Grammar.twoSymbols
      (Grammar.detour 1 2 1).rules = .ok chains) :
    chains.rename startId 2 = -1 := by
  have hPlain : Plain Grammar.twoSymbols (Grammar.detour (1 : ℝ) 2 1).rules :=
    plain_stripped (Grammar.wellFormed_detour 1 2 1)
  have hStep := fun x => rename_eq_add_unitStep Grammar.wellFormed_twoSymbols
    hPlain isExact_solveByInverse hSolve x 2
  have hLetter : chains.rename 2 2 = 1 := by
    simpa [unitStep, unitTerm, Grammar.detour, startId] using hStep 2
  have hOther : chains.rename 3 2 = 2 * chains.rename 3 2 + 1 := by
    simpa [unitStep, unitTerm, Grammar.detour, startId, hLetter] using hStep 3
  have hStart : chains.rename startId 2 = chains.rename 3 2 := by
    simpa [unitStep, unitTerm, Grammar.detour, startId] using hStep startId
  rw [hStart]
  linarith

/-- A symbol that derives itself with the probability two by a single rule is
not rejected, and the letter gets a negative probability. -/
theorem exists_negative_detour :
    (∀ r ∈ (Grammar.detour (1 : ℝ) 2 1).rules, 0 ≤ r.probability) ∧
    (erasure testedOptions (Grammar.detour 1 2 1)).symbols = [] ∧
    IsExact testedOptions.solveUnits ∧
    ¬ ((∃ e, result testedOptions (Grammar.detour 1 2 1) = .error e) ∨
      ∃ c, result testedOptions (Grammar.detour 1 2 1) = .ok c ∧
        ∀ r ∈ c.rules, 0 ≤ r.probability) := by
  obtain ⟨chains, hSolve⟩ := exists_chains_doubled
  have hResult := result_detour (lt_irrefl 0) hSolve
  refine ⟨by simp [Grammar.detour], rfl, isExact_solveByInverse, ?_⟩
  rw [hResult]
  rintro (⟨e, hError⟩ | ⟨c, hOk, hAll⟩)
  · cases hError
  · cases hOk
    have hLetter := hAll _ (List.mem_singleton_self _)
    rw [rename_doubled hSolve] at hLetter
    norm_num at hLetter

end

end StochasticGrammar.NormalForm
