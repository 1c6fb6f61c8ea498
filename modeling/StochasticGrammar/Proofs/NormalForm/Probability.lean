import StochasticGrammar.Proofs.NormalForm.Erasable
import StochasticGrammar.Proofs.NormalForm.Result
import StochasticGrammar.Proofs.NormalForm.UnitSystem
import StochasticGrammar.Proofs.Weight.Probability

/-!
# The probabilities of the result

In exact arithmetic the conversion is faithful to nonnegative probabilities, if
the fitted probabilities are those of deriving the empty word, the chains of
unit rules have finite sums, and linear systems are solved exactly.

The probabilities are real numbers here, and their weights are the same numbers
as extended ones.

Main results: `faithful_ofReal`, `totals_result`.
-/

namespace StochasticGrammar.NormalForm

open Weighting
open scoped ENNReal

noncomputable section

variable {options : Options ℝ} {g c : Grammar ℝ} {s : Stage ℝ}
  {chains : Chains ℝ}

theorem neutral_ofReal : Neutral ENNReal.ofReal fun p => 0 ≤ p where
  good_one := zero_le_one
  mul_one _ := by rw [ENNReal.ofReal_one, mul_one]

theorem merges_ofReal : Merges ENNReal.ofReal (fun p => 0 ≤ p) true where
  good_merge hp hq := add_nonneg hp hq
  add hp hq := ENNReal.ofReal_add hp hq

/-- The fitted probabilities are those of deriving the empty word with the
rules of the second stage. -/
def IsFitted (options : Options ℝ) (s : Stage ℝ) : Prop :=
  ∀ (x : SymbolId) (p : ℝ),
    (Erasure.fit options s.rules).probability? x = some p →
      (⟨s.alphabet, s.rules⟩ : Grammar ℝ).HasProbability x [] p

/-- What the second stage leaves is a well-formed grammar. -/
theorem Prepared.wellFormed_grammar (h : Prepared g s) :
    (⟨s.alphabet, s.rules⟩ : Grammar ℝ).WellFormed :=
  ⟨h.wellFormed, fun r hr => Grammar.ruleFault?_eq_none_iff.2
    ⟨h.plain.known r hr, h.plain.head r hr⟩⟩

section Fitted

variable (hHead : ∀ r ∈ s.rules, s.alphabet.isTerminal r.lhs = false)
  (hNonneg : ∀ r ∈ s.rules, 0 ≤ r.probability) (hFitted : IsFitted options s)

include hHead hNonneg hFitted

theorem fitted_iff {x : SymbolId} {p : ℝ}
    (hx : (Erasure.fit options s.rules).probability? x = some p) :
    0 ≤ p ∧ totals s.alphabet.isTerminal
      (valued ENNReal.ofReal s.rules) x [] = ENNReal.ofReal p := by
  have hProbability := hFitted x p hx
  rwa [Grammar.hasProbability_iff_weight hNonneg,
    Grammar.weight_eq_totals hNonneg hHead] at hProbability

variable (hEmpty : ∀ r ∈ s.rules, emptyId ∉ r.rhs)

include hEmpty

theorem factors_ofReal :
    Factors ENNReal.ofReal (.fit options s.rules) s.rules
      (totals s.alphabet.isTerminal (valued ENNReal.ofReal s.rules)) where
  known := by
    intro x p hx r hr
    rw [(fitted_iff hHead hNonneg hFitted hx).2,
      ENNReal.ofReal_mul (hNonneg r hr)]
  unknown := by
    intro x hUnknown r hr hx
    have hNe : x ≠ emptyId := fun hEq => hEmpty r hr (hEq ▸ hx)
    exact totals_nil_eq_zero hEmpty hNe
      (probability?_fit_eq_none_iff.1 hUnknown)

/-- The start symbol derives the empty word with its fitted probability, which
is zero if there is none. -/
theorem totals_startId_nil :
    totals s.alphabet.isTerminal (valued ENNReal.ofReal s.rules) startId [] =
      ENNReal.ofReal ((Erasure.fit options s.rules).probability startId) := by
  rw [Erasure.probability]
  cases hKnown : (Erasure.fit options s.rules).probability? startId with
  | some p => exact (fitted_iff hHead hNonneg hFitted hKnown).2
  | none =>
      rw [Option.getD_none, ENNReal.ofReal_zero]
      exact totals_nil_eq_zero hEmpty (by decide)
        (probability?_fit_eq_none_iff.1 hKnown)

end Fitted

section Faithful

variable (hPrepared : Prepared g s)
  (hNonneg : ∀ r ∈ s.rules, 0 ≤ r.probability) (hFitted : IsFitted options s)

include hPrepared hNonneg hFitted

theorem faithful_ofReal (hMerge : options.mergeDuplicates = true)
    (hExact : IsExact options.solveUnits)
    (hSolve : Chains.solve options s.alphabet (shortRules options s) =
      .ok chains)
    (hFinite : ∀ x y, Summable fun n =>
      chainWeight (shortRules options s) n x y) :
    Converted.Faithful ENNReal.ofReal (fun p => 0 ≤ p) options s chains := by
  have hFactor : ∀ {x : SymbolId} {p : ℝ},
      (Erasure.fit options s.rules).probability? x = some p →
        ∀ r ∈ s.rules, 0 ≤ r.probability * p := fun {x p} hx r hr =>
    mul_nonneg (hNonneg r hr)
      (fitted_iff hPrepared.plain.head hNonneg hFitted hx).1
  refine ⟨neutral_ofReal, ?_, factors_ofReal hPrepared.plain.head hNonneg
    hFitted hPrepared.plain.noEmpty, hFactor, le_of_lt, ?_⟩
  · rw [hMerge]
    exact merges_ofReal
  · exact renames_ofReal hPrepared.wellFormed
      (tidy_withShortened hPrepared _).toPlain hExact hSolve hFinite
      (good_of_mem_withShortened hNonneg hFactor)

end Faithful

/-- The grammar and its result give every word the same weight. -/
theorem totals_result (h : Converted options g s chains c) (hg : g.WellFormed)
    (hNonneg : ∀ r ∈ g.rules, 0 ≤ r.probability)
    (hFitted : IsFitted options s)
    (hFaithful : Converted.Faithful ENNReal.ofReal (fun p => 0 ≤ p) options s
      chains) (w : List SymbolId) :
    totals c.alphabet.isTerminal (valued ENNReal.ofReal c.rules) startId w =
      totals g.alphabet.isTerminal (valued ENNReal.ofReal g.rules)
        startId w := by
  have hPrepared := h.prepared hg
  have hSplit : ∀ r ∈ s.rules, 0 ≤ r.probability :=
    good_of_mem_split hg h.split zero_le_one hNonneg
  rw [totals, withLeaves_nonterminal
    (h.wellFormed_result hg).alphabet.isTerminal_startId, totals,
    withLeaves_nonterminal hg.alphabet.isTerminal_startId,
    h.total_eq hg hNonneg hFaithful w]
  by_cases hw : w = []
  · -- the rule for the empty word is left out if its probability is zero
    have hNil := totals_startId_nil hPrepared.plain.head hSplit hFitted
      hPrepared.plain.noEmpty
    rw [totals, withLeaves_nonterminal
      hPrepared.wellFormed.isTerminal_startId,
      total_split hg h.split neutral_ofReal hNonneg] at hNil
    rw [if_pos hw, hw, hNil]
    by_cases hPos : 0 < (Erasure.fit options s.rules).probability startId
    · rw [if_pos hPos]
    · rw [if_neg hPos, ENNReal.ofReal_of_nonpos (not_lt.1 hPos)]
  · rw [if_neg hw]

/-! ## Small conversions -/

/-- Options of exact arithmetic. -/
def exactOptions : Options ℝ where
  limits := ⟨0, 0, 0⟩
  strict := false
  mergeDuplicates := true
  solveStep _ _ _ _ := none
  verdict _ _ := .regular
  solveUnits := solveByInverse
  isFinite _ := true

/-- With exact arithmetic, the chains of a regular system are found. -/
theorem exists_chains_of_isUnit {al : Alphabet} {rules : List (Rule ℝ)}
    (hUnit : IsUnit (toMatrix (unitMatrix rules (al.ids .nonterminal)
      (al.ids .nonterminal)).subOne).det) :
    ∃ chains, Chains.solve exactOptions al rules = .ok chains :=
  exists_chains _ _ (fun _ _ => rfl) (fun _ => rfl)
    (isSome_solveByInverse hUnit)

/-- When the system of one nonterminal is regular. -/
theorem isUnit_single {rules : List (Rule ℝ)} {x : SymbolId}
    (hDet : unitTotal rules x x - 1 ≠ 0) :
    IsUnit (toMatrix (unitMatrix rules [x] [x]).subOne).det := by
  rw [isUnit_iff_ne_zero]
  refine ne_of_eq_of_ne (Matrix.det_fin_one _) ?_
  simpa [toMatrix, Mat.subOne, entry_unitMatrix, Mat.delta] using hDet

/-- When the system of two nonterminals is regular. -/
theorem isUnit_pair {rules : List (Rule ℝ)} {x y : SymbolId}
    (hDet : (unitTotal rules x x - 1) * (unitTotal rules y y - 1) -
      unitTotal rules x y * unitTotal rules y x ≠ 0) :
    IsUnit (toMatrix (unitMatrix rules [x, y] [x, y]).subOne).det := by
  rw [isUnit_iff_ne_zero]
  refine ne_of_eq_of_ne (Matrix.det_fin_two _) ?_
  simpa [toMatrix, Mat.subOne, entry_unitMatrix, Mat.delta] using hDet

/-- The small grammar, with infinitely many derivation trees of its letter. -/
def halves : Grammar ℝ := Grammar.detour (1 / 2) (1 / 4) (1 / 4)

theorem halves_nonneg : ∀ r ∈ halves.rules, 0 ≤ r.probability := by
  intro r hr
  simp only [halves, Grammar.detour, List.mem_cons, List.not_mem_nil, or_false]
    at hr
  rcases hr with rfl | rfl | rfl <;> norm_num

theorem summable_chainWeight_halves (x y : SymbolId) :
    Summable fun n => chainWeight halves.rules n x y := by
  refine summable_chainWeight halves_nonneg (q := 1 / 2) (fun x => ?_)
    (by norm_num) x y
  simp only [unitStep, unitTerm, halves, Grammar.detour, List.map_cons,
    List.map_nil, List.sum_cons, List.sum_nil]
  by_cases hStart : startId = x
  · rw [← hStart]
    norm_num [startId]
  · by_cases hOther : 3 = x
    · simp [← hOther, startId]
      norm_num
    · simp [hStart, hOther]

theorem exists_chains_halves : ∃ chains,
    Chains.solve exactOptions Grammar.twoSymbols halves.rules =
      .ok chains := by
  refine exists_chains_of_isUnit (isUnit_pair ?_)
  norm_num [unitTotal, halves, Grammar.detour, startId]

theorem exists_chains_optional (p r x : ℝ) : ∃ chains,
    Chains.solve exactOptions Grammar.twoSymbols (optionalRules p r x) =
      .ok chains := by
  refine exists_chains_of_isUnit (isUnit_pair ?_)
  simp [unitTotal, optionalRules, startId]

theorem exists_chains_trailing (p : ℝ) : ∃ chains,
    Chains.solve exactOptions Grammar.oneLetter [⟨startId, [2], p⟩] =
      .ok chains := by
  refine exists_chains_of_isUnit (isUnit_single ?_)
  norm_num [unitTotal, startId]

end

end StochasticGrammar.NormalForm
