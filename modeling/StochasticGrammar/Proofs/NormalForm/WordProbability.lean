import StochasticGrammar.Proofs.NormalForm.RemoveEmpty

/-!
# The probability of a word under the result

A word other than the empty one may have infinitely many derivation trees in a
grammar, but only finitely many in its normal form, and these are the ones that
the chart lists.  The sum of their probabilities is the sum over all derivation
trees of the word in the grammar.

It is assumed that the fitted probabilities are those of deriving the empty
word, that the chains of unit rules have finite sums, that linear systems are
solved exactly and that duplicates are merged.

Main results: `probability_result`.
-/

namespace StochasticGrammar.NormalForm

open Weighting
open scoped ENNReal

variable {options : Options ℝ} {g c : Grammar ℝ}

/-- The sum over the derivations that are listed for a word is the probability
with which the grammar derives it. -/
theorem probability_result (hg : g.WellFormed)
    (hNonneg : ∀ r ∈ g.rules, 0 ≤ r.probability)
    (hMerge : options.mergeDuplicates = true)
    (hFitted : ∀ s, split g = .ok s → IsFitted options s)
    (hExact : IsExact options.solveUnits)
    (hFinite : ∀ e, emptied options g = .ok e →
      ∀ x y, Summable fun n => chainWeight e.rules n x y)
    (hResult : result options g = .ok c) {w : List SymbolId}
    (hInput : ∀ id ∈ w, id ≠ emptyId ∧ g.alphabet.isTerminal id = true) :
    ∃ p q, Cyk.Parse.make c w = .ok p ∧
      p.derivations.probability.Yields (fun total => total = q) ∧
        g.HasProbability startId w q := by
  obtain ⟨s, chains, h⟩ := exists_converted hResult
  have hSplit : ∀ r ∈ s.rules, 0 ≤ r.probability :=
    good_of_mem_split hg h.split zero_le_one hNonneg
  have hChains := hFinite _ h.emptied
  have hFaithful := faithful_ofReal (h.prepared hg) hSplit
    (hFitted s h.split) hMerge hExact h.solve hChains
  have hc := h.wellFormed_result hg
  have hInput' : ∀ id ∈ w,
      id ≠ emptyId ∧ c.alphabet.isTerminal id = true := by
    rw [h.isTerminal_eq hg]
    exact hInput
  obtain ⟨p, hMake, hGrammar, shapes, hLists, hNodup, hMem⟩ :=
    Cyk.Parse.lists_of_inNormalForm hc (h.inNormalForm hg) hInput'
  -- what is listed adds up to the probability under the result
  have hSum := Grammar.hasProbability_of_list hNodup hMem
  obtain ⟨hq, hWeight⟩ := (Grammar.hasProbability_iff hc
    (h.good_result hg hNonneg hFaithful)).1 hSum
  rw [totals_result h hg hNonneg (hFitted s h.split) hFaithful] at hWeight
  have hYields : p.derivations.probability.Yields fun total =>
      total = (shapes.map fun t => (t.product? c).getD 0).sum := by
    refine hLists.probability.mono fun total hTotal => ?_
    rw [hTotal, List.sum_eq_foldl, List.foldl_map]
    simp only [Derivations.weight, hGrammar]
  exact ⟨p, _, hMake, hYields,
    (Grammar.hasProbability_iff hg hNonneg).2 ⟨hq, hWeight⟩⟩

/-- Three letters, the first two of which are a group that may be left out and
that leads to itself by unit rules: both sums are the same. -/
theorem probability_result_groups :
    ∃ c p q, result testedOptions (groups (1 / 2) (1 / 8) (3 / 8)) = .ok c ∧
      Cyk.Parse.make c [2, 2, 2] = .ok p ∧
      p.derivations.probability.Yields (fun total => total = q) ∧
        (groups (1 / 2) (1 / 8) (3 / 8)).HasProbability startId [2, 2, 2]
          q := by
  have hHalf : (1 / 2 : ℝ) / 4 + 3 / 8 = 1 / 2 := by norm_num
  have hTolerance : 0 ≤ testedOptions.limits.tolerance := le_rfl
  have hNonneg := groups_nonneg (p := 1 / 2) (q := 1 / 8) (r := 3 / 8)
    (by norm_num) (by norm_num) (by norm_num)
  obtain ⟨c, hResult⟩ := exists_result_groups (q := 1 / 8) hHalf (by norm_num)
  obtain ⟨p, q, h⟩ := probability_result
    (wellFormed_groups (1 / 2) (1 / 8) (3 / 8)) hNonneg rfl
    (fun s hSplit => by
      cases (split_groups (1 / 2) (1 / 8) (3 / 8)).symm.trans hSplit
      exact isFitted_groups)
    isExact_solveByInverse
    (fun e hEmptied => by
      cases (emptied_groups hTolerance hHalf rfl).symm.trans hEmptied
      exact summable_chainWeight_groups)
    hResult
    (by decide : ∀ id ∈ [2, 2, 2], id ≠ emptyId ∧
      Grammar.twoSymbols.isTerminal id = true)
  exact ⟨c, p, q, hResult, h⟩

end StochasticGrammar.NormalForm
