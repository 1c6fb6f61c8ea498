import StochasticGrammar.Proofs.NormalForm.Erasable
import StochasticGrammar.Proofs.NormalForm.Result
import StochasticGrammar.Proofs.Weight.TreeSum

/-!
# The language of the result

If every number counts as an infinite weight, weights say what can be derived
and nothing else.  Then the conversion is faithful whatever its numbers are:
products and sums of infinite weights are infinite, and what the solvers find
does not matter.

The empty word is the exception, since its rule is there only if the fitted
probability is positive.

Main results: `canGenerate_result`.
-/

namespace StochasticGrammar.NormalForm

open Weighting
open scoped ENNReal

variable {α : Type}

/-- Every number counts as an infinite weight. -/
noncomputable def infinite (_ : α) : ℝ≥0∞ := ⊤

theorem infinite_ne_zero (p : α) : infinite p ≠ 0 := ENNReal.top_ne_zero

theorem neutral_infinite [One α] : Neutral (infinite (α := α)) fun _ => True where
  good_one := trivial
  mul_one _ := ENNReal.top_mul_top

theorem merges_infinite [Add α] (merge : Bool) :
    Merges (infinite (α := α)) (fun _ => True) merge where
  good_merge _ _ := trivial
  add _ _ := (top_add ⊤).symm

/-! ## Chains -/

section Chains

variable {rules : List (Rule α)}

/-- Infinite weights add up to nothing or to infinity. -/
theorem unitStep_infinite {f : SymbolId → ℝ≥0∞} {x : SymbolId}
    (h : unitStep (valued infinite rules) f x ≠ 0) :
    unitStep (valued infinite rules) f x = ⊤ := by
  have hTerm : ∀ r ∈ valued infinite rules,
      unitTerm (fun t => f t * ⊤) x r = unitTerm f x r := by
    intro r hr
    obtain ⟨s, hs, rfl⟩ := List.mem_map.1 hr
    unfold unitTerm
    split
    · split
      · show ⊤ * (f _ * ⊤) = ⊤ * f _
        rw [mul_left_comm, ENNReal.top_mul_top, mul_comm]
      · rfl
    · rfl
  have hScaled : unitStep (valued infinite rules) f x * ⊤ =
      unitStep (valued infinite rules) f x := by
    rw [unitStep_mul, unitStep, unitStep, List.map_congr_left hTerm]
  rw [← hScaled, ENNReal.mul_top h]

theorem renames_infinite [Zero α] [One α] [Add α] [Mul α] {al : Alphabet}
    (hal : al.WellFormed) (chains : Chains α) :
    Renames infinite (fun _ => True) al chains rules where
  good_mul _ _ _ := trivial
  mul _ _ hs := (ENNReal.top_mul
    (renameWeight_ne_zero (fun _ _ => infinite_ne_zero _) _ _ hs)).symm
  good_start _ _ := trivial
  start := by
    intro x hx hTerminal
    have hNe : startId ≠ x := by
      rintro rfl
      rw [hal.isTerminal_startId] at hTerminal
      simp at hTerminal
    have hSome := renameWeight_ne_zero (φ := infinite)
      (fun r _ => infinite_ne_zero r.probability) startId x hx
    rw [renameWeight_eq, if_neg hNe, zero_add] at hSome ⊢
    exact (unitStep_infinite hSome).symm

end Chains

/-! ## The conversion -/

/-- The start symbol is erasable exactly if it derives the empty word. -/
theorem startId_mem_erasables_iff [One α] {g : Grammar α} {s : Stage α}
    (hg : g.WellFormed) (h : split g = .ok s) :
    startId ∈ erasables s.rules ↔ ∃ t, g.DerivesWord startId [] t := by
  have hPrepared := prepared_split hg h
  have hTotal : totals s.alphabet.isTerminal (valued infinite s.rules)
      startId = totals g.alphabet.isTerminal (valued infinite g.rules)
        startId := by
    rw [totals, withLeaves_nonterminal
      hPrepared.wellFormed.isTerminal_startId, totals,
      withLeaves_nonterminal hg.alphabet.isTerminal_startId,
      total_split hg h neutral_infinite fun _ _ => trivial]
  rw [← ParseTree.totals_ne_zero_iff hg fun _ _ => infinite_ne_zero _,
    ← hTotal]
  constructor
  · exact totals_nil_ne_zero hPrepared.plain.head
      (fun _ _ => infinite_ne_zero _) startId
  · intro hWeight
    by_contra hNot
    exact hWeight
      (totals_nil_eq_zero hPrepared.plain.noEmpty (by decide) hNot)

section Conversion

variable [Zero α] [One α] [Add α] [Sub α] [Neg α] [Mul α] [Div α]
  [OfScientific α] [LT α] [DecidableLT α] [LE α] [DecidableLE α]
  {options : Options α} {g c : Grammar α} {s : Stage α} {chains : Chains α}

theorem factors_infinite (h : Prepared g s) :
    Factors infinite (.fit options s.rules) s.rules
      (totals s.alphabet.isTerminal (valued infinite s.rules)) where
  known := by
    intro x p hKnown r _
    have hx := mem_erasables_of_eq_some hKnown
    exact (ENNReal.top_mul (totals_nil_ne_zero h.plain.head
      (fun _ _ => infinite_ne_zero _) x hx)).symm
  unknown := by
    intro x hUnknown r hr hx
    have hNe : x ≠ emptyId := fun hEq => h.plain.noEmpty r hr (hEq ▸ hx)
    exact totals_nil_eq_zero h.plain.noEmpty hNe
      (probability?_fit_eq_none_iff.1 hUnknown)

theorem faithful_infinite (chains : Chains α) (h : Prepared g s) :
    Converted.Faithful infinite (fun _ => True) options s chains where
  neutral := neutral_infinite
  merges := merges_infinite _
  factors := factors_infinite h
  good_factor _ _ _ := trivial
  good_empty _ := trivial
  renames := renames_infinite h.wellFormed chains

/-- The result derives the nonempty words that the grammar derives, and the
empty word if its rule is there. -/
theorem exists_derivesWord_result_iff (hg : g.WellFormed)
    (h : Converted options g s chains c) {w : List SymbolId} :
    (∃ t, c.DerivesWord startId w t) ↔
      if w = [] then 0 < (Erasure.fit options s.rules).probability startId
      else ∃ t, g.DerivesWord startId w t := by
  have hTotal := h.total_eq hg (fun _ _ => trivial)
    (faithful_infinite chains (h.prepared hg)) w
  have hc := h.wellFormed_result hg
  rw [← ParseTree.totals_ne_zero_iff hc fun _ _ => infinite_ne_zero _,
    ← ParseTree.totals_ne_zero_iff hg fun _ _ => infinite_ne_zero _,
    totals, withLeaves_nonterminal hc.alphabet.isTerminal_startId, hTotal,
    totals, withLeaves_nonterminal hg.alphabet.isTerminal_startId]
  by_cases hw : w = []
  · rw [if_pos hw, if_pos hw]
    split
    · rename_i hPos
      exact iff_of_true (infinite_ne_zero _) hPos
    · rename_i hPos
      exact iff_of_false (fun hNe => hNe rfl) hPos
  · rw [if_neg hw, if_neg hw]

/-- The parser succeeds on the result, and generates what is derivable. -/
theorem canGenerate_make_result (hg : g.WellFormed)
    (hResult : result options g = .ok c) {w : List SymbolId}
    (hInput : ∀ id ∈ w, id ≠ emptyId ∧ g.alphabet.isTerminal id = true)
    (hw : w ≠ []) :
    ∃ p, Cyk.Parse.make c w = .ok p ∧ (p.derivations.canGenerate = true ↔
      ∃ t, g.DerivesWord startId w t) := by
  obtain ⟨s, chains, h⟩ := exists_converted hResult
  have hInput' : ∀ id ∈ w,
      id ≠ emptyId ∧ c.alphabet.isTerminal id = true := by
    rwa [h.isTerminal_eq hg]
  obtain ⟨p, hMake, _, shapes, hLists, _, hMem⟩ :=
    Cyk.Parse.lists_of_inNormalForm (h.wellFormed_result hg)
      (h.inNormalForm hg) hInput'
  refine ⟨p, hMake, ?_⟩
  simp only [p.derivations.canGenerate_iff hLists, hMem]
  rw [exists_derivesWord_result_iff hg h, if_neg hw]

/-- Whatever the numbers are, the result generates the nonempty words that the
grammar derives.  It generates the empty word if the start symbol is erasable
and its fitted probability is positive; and it is erasable if it derives the
empty word. -/
theorem canGenerate_result (hg : g.WellFormed)
    (hResult : result options g = .ok c) {w : List SymbolId}
    (hInput : ∀ id ∈ w, id ≠ emptyId ∧ g.alphabet.isTerminal id = true) :
    ∃ p, Cyk.Parse.make c w = .ok p ∧
      (w ≠ [] → (p.derivations.canGenerate = true ↔
        ∃ t, g.DerivesWord startId w t)) ∧
      (w = [] → ¬ (0 : α) < 0 → (p.derivations.canGenerate = true ↔
        startId ∈ (erasure options g).symbols ∧
          0 < (erasure options g).probability startId)) ∧
      (startId ∈ (erasure options g).symbols ↔
        ∃ t, g.DerivesWord startId [] t) := by
  obtain ⟨s, chains, h⟩ := exists_converted hResult
  have hErasure : erasure options g = .fit options s.rules := by
    rw [erasure, h.split]
  have hInput' : ∀ id ∈ w,
      id ≠ emptyId ∧ c.alphabet.isTerminal id = true := by
    rw [h.isTerminal_eq hg]
    exact hInput
  obtain ⟨p, hMake, _, shapes, hLists, _, hMem⟩ :=
    Cyk.Parse.lists_of_inNormalForm (h.wellFormed_result hg)
      (h.inNormalForm hg) hInput'
  have hGenerate := p.derivations.canGenerate_iff hLists
  simp only [hMem] at hGenerate
  rw [exists_derivesWord_result_iff hg h] at hGenerate
  refine ⟨p, hMake, fun hw => ?_, fun hw hZero => ?_, ?_⟩
  · rw [hGenerate, if_neg hw]
  · rw [hGenerate, if_pos hw, hErasure, symbols_fit]
    refine ⟨fun hPos => ⟨?_, hPos⟩, fun hBoth => hBoth.2⟩
    by_contra hNot
    rw [Erasure.probability, probability?_fit_eq_none_iff.2 hNot] at hPos
    exact hZero hPos
  · rw [hErasure, symbols_fit]
    exact startId_mem_erasables_iff hg h.split

end Conversion

theorem derivesWord_optional (p q r : α) :
    (Grammar.optional p q r).DerivesWord startId [2, 2]
      (.branch 0 startId [.branch 2 3 [.terminal 2], .terminal 2]) := by
  have hLetter : ParseTree.IsDerivation (Grammar.optional p q r)
      (.terminal 2) := .terminal rfl
  have hFirst : ParseTree.IsDerivation (Grammar.optional p q r)
      (.branch 2 3 [.terminal 2]) :=
    .branch (r := ⟨3, [2], r⟩) rfl rfl (by simp [hLetter])
  refine ⟨?_, rfl, rfl⟩
  exact .branch (r := ⟨startId, [3, 2], p⟩) rfl rfl (by simp [hLetter, hFirst])

/-- Options with solvers that return nothing of use. -/
def careless : Options ℚ where
  limits := ⟨0, 0, 0⟩
  strict := false
  mergeDuplicates := false
  solveStep _ _ _ _ := none
  verdict _ _ := .regular
  solveUnits _ _ _ b := some b
  isFinite _ := true

/-- A letter after one that may be left out: both are generated for wrong
numbers, too. -/
theorem canGenerate_result_optional :
    ∃ c p, result careless (Grammar.optional 1 2 3) = .ok c ∧
      Cyk.Parse.make c [2, 2] = .ok p ∧ p.derivations.canGenerate = true := by
  obtain ⟨c, hResult⟩ :
      ∃ c, result careless (Grammar.optional 1 2 3) = .ok c :=
    exists_result_optional (lt_irrefl 0) rfl fun _ =>
      exists_chains _ _ (fun _ _ => rfl) (fun _ => rfl) rfl
  obtain ⟨p, hMake, hNonempty, _⟩ := canGenerate_result
    (Grammar.wellFormed_optional 1 2 3) hResult
    (by decide : ∀ id ∈ [2, 2], id ≠ emptyId ∧
      Grammar.twoSymbols.isTerminal id = true)
  exact ⟨c, p, hResult, hMake, (hNonempty (by simp)).2
    ⟨_, derivesWord_optional 1 2 3⟩⟩

end StochasticGrammar.NormalForm
