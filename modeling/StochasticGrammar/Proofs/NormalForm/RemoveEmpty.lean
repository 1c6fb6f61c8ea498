import StochasticGrammar.Proofs.NormalForm.LeastSolution

/-!
# The stage that removes empty right sides

What the stage keeps holds of any list of short rules, not only of those that
come out of the stages before it: every symbol gives the words other than the
empty one the weight that it gave them, finite or not, and the probability of
the empty word is set aside for the start symbol.

It is assumed that the fitted probabilities are those of deriving the empty
word.

Main results: `weight_removeEmpty`.
-/

namespace StochasticGrammar.NormalForm

open Weighting
open scoped ENNReal

variable {options : Options ℝ} {s : Stage ℝ} {e : Emptied ℝ}

section Fitted

variable (hHead : ∀ r ∈ s.rules, s.alphabet.isTerminal r.lhs = false)
  (hNonneg : ∀ r ∈ s.rules, 0 ≤ r.probability) (hFitted : IsFitted options s)

include hHead hNonneg hFitted

theorem fitted_nonneg : ∀ x ∈ erasables s.rules,
    0 ≤ (Erasure.fit options s.rules).probability x := by
  intro x hx
  obtain ⟨p, hKnown⟩ := Option.ne_none_iff_exists'.1 fun hNone =>
    probability?_fit_eq_none_iff.1 hNone hx
  rw [Erasure.probability, hKnown, Option.getD_some]
  exact (fitted_iff hHead hNonneg hFitted hKnown).1

/-- If the fitted probabilities are those of deriving the empty word, all
symbols give the other words the weights that they gave them, no right side is
empty, and the probability of the empty word is that of the start symbol. -/
theorem weight_removeEmpty (hShort : ∀ r ∈ s.rules, r.rhs.length ≤ 2)
    (hEmpty : ∀ r ∈ s.rules, emptyId ∉ r.rhs)
    (hRemove : removeEmpty options s = .ok e) :
    (∀ a w, w ≠ [] →
      (⟨e.alphabet, e.rules⟩ : Grammar ℝ).weight a w =
        (⟨s.alphabet, s.rules⟩ : Grammar ℝ).weight a w) ∧
    (∀ r ∈ e.rules, r.rhs ≠ []) ∧
    (⟨s.alphabet, s.rules⟩ : Grammar ℝ).HasProbability startId []
      e.emptyProbability := by
  have hReported := fitted_nonneg hHead hNonneg hFitted
  obtain rfl := removeEmpty_eq_ok hRemove
  unfold shortRules
  refine ⟨fun a w hw => ?_, fun r hr => ne_nil_of_mem_withShortened hr, ?_⟩
  · have hHead' : ∀ r ∈ withShortened (.fit options s.rules) s.rules,
        s.alphabet.isTerminal r.lhs = false := by
      intro r hr
      obtain ⟨t, ht, hLhs, _⟩ := sides_of_mem_withShortened hr
      rw [hLhs]
      exact hHead t ht
    rw [Grammar.weight_eq_totals (withShortened_fit_nonneg hNonneg hReported)
      hHead', Grammar.weight_eq_totals hNonneg hHead]
    by_cases ha : s.alphabet.isTerminal a = true
    · rw [totals, withLeaves_terminal ha, totals, withLeaves_terminal ha]
    · rw [Bool.not_eq_true] at ha
      rw [totals, withLeaves_nonterminal ha, totals, withLeaves_nonterminal ha,
        total_withShortened (factors_ofReal hHead hNonneg hFitted hEmpty)
          hShort hEmpty, erased_of_ne hw]
  · rw [Grammar.hasProbability_iff_weight hNonneg,
      Grammar.weight_eq_totals hNonneg hHead]
    exact ⟨probability_fit_nonneg hReported startId,
      totals_startId_nil hHead hNonneg hFitted hEmpty⟩

end Fitted

/-- A group of letters is left out with the probability that is reported. -/
theorem isFitted_groups : IsFitted testedOptions
    ⟨Grammar.twoSymbols, groupRules (1 / 2) (1 / 8) (3 / 8)⟩ := by
  have hHalf : (1 / 2 : ℝ) / 4 + 3 / 8 = 1 / 2 := by norm_num
  have hPrepared := prepared_split (wellFormed_groups (1 / 2) (1 / 8) (3 / 8))
    (split_groups (1 / 2) (1 / 8) (3 / 8))
  have hNonneg : ∀ r ∈ groupRules (1 / 2) (1 / 8) (3 / 8),
      0 ≤ r.probability := by
    norm_num [groupRules]
  have hTolerance : 0 ≤ testedOptions.limits.tolerance := le_rfl
  have hFit := fit_groupRules (q := 1 / 8) hTolerance hHalf
  refine isFitted_of_finiteChains (by simp [groupRules, startId, emptyId])
    hPrepared.plain.noEmpty hNonneg hPrepared.length hFit.1 (fun x hx => ?_)
    fun x _ y _ _ => ?_
  · rw [List.mem_singleton.1 hx, hFit.2]
    norm_num
  · rw [withShortened_groupRules le_rfl hHalf]
    exact summable_chainWeight_groups x y

/-- A group of letters that may be left out, before a letter: every word has the
same weight before and after the stage. -/
theorem weight_removeEmpty_groups : ∃ s e,
    split (groups (1 / 2) (1 / 8) (3 / 8)) = .ok s ∧
    removeEmpty testedOptions s = .ok e ∧
    ∀ w, w ≠ [] → (⟨e.alphabet, e.rules⟩ : Grammar ℝ).weight 3 w =
      (⟨s.alphabet, s.rules⟩ : Grammar ℝ).weight 3 w := by
  have hHalf : (1 / 2 : ℝ) / 4 + 3 / 8 = 1 / 2 := by norm_num
  have hSplit := split_groups (1 / 2) (1 / 8) (3 / 8)
  have hPrepared :=
    prepared_split (wellFormed_groups (1 / 2) (1 / 8) (3 / 8)) hSplit
  have hNonneg : ∀ r ∈ groupRules (1 / 2) (1 / 8) (3 / 8),
      0 ≤ r.probability := by
    norm_num [groupRules]
  have hTolerance : 0 ≤ testedOptions.limits.tolerance := le_rfl
  obtain ⟨s, hSame, hRemove⟩ := bind_eq_ok.1
    (emptied_groups (q := 1 / 8) hTolerance hHalf rfl)
  cases hSplit.symm.trans hSame
  have hBoth := weight_removeEmpty hPrepared.plain.head hNonneg
    isFitted_groups hPrepared.length hPrepared.plain.noEmpty hRemove
  exact ⟨_, _, hSplit, hRemove, hBoth.1 3⟩

end StochasticGrammar.NormalForm
