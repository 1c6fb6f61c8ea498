import StochasticGrammar.Proofs.NormalForm.ErasableOrder
import StochasticGrammar.Proofs.NormalForm.Fit

/-!
# The least solution of the equations of erasure

A derivation of the empty string has no leaves, so its trees depend on the rules
only, whatever the terminals are.  What the products over the trees of a symbol
add up to is found by taking the rule at the root apart: it is what the rule
makes of the sums for the symbols on its right side.  These are the equations of
erasure, and the sums are below all other solutions.

The sums may be infinite, so the solutions are extended numbers.

Main results: `isLeast_emptyWeight`.
-/

namespace StochasticGrammar

open NormalForm Weighting
open scoped ENNReal

/-- What the products over the trees that derive the empty string from a symbol
add up to, finite or not. -/
noncomputable def Grammar.emptyWeight (g : Grammar ℝ) (x : SymbolId) : ℝ≥0∞ :=
  tsum fun t : {t : ParseTree // g.Derives x [] t} =>
    ENNReal.ofReal ((t.1.product? g).getD 0)

/-! ## Trees without leaves -/

namespace ParseTree

/-- A tree without leaves is allowed by the rules, whatever the terminals. -/
theorem IsDerivation.of_yield_eq_nil {α : Type} {al : Alphabet}
    {rules : List (Rule α)} {t : ParseTree} (h : t.IsDerivation ⟨al, rules⟩)
    (hYield : t.yield = []) (al' : Alphabet) :
    t.IsDerivation ⟨al', rules⟩ := by
  induction h with
  | terminal _ => simp at hYield
  | branch hRule hSymbols _ ih =>
      rw [yield_branch, yieldList_eq_flatMap, List.flatMap_eq_nil_iff] at hYield
      exact .branch hRule hSymbols fun t ht => ih t ht (hYield t ht)

/-- If there are no terminals, no tree has leaves. -/
theorem IsDerivation.yield_eq_nil {α : Type} {g : Grammar α} {t : ParseTree}
    (h : t.IsDerivation g) (hNone : ∀ s, g.alphabet.isTerminal s = false) :
    t.yield = [] := by
  induction h with
  | @terminal s hTerminal =>
      rw [hNone s] at hTerminal
      cases hTerminal
  | branch _ _ _ ih =>
      rw [yield_branch, yieldList_eq_flatMap, List.flatMap_eq_nil_iff]
      exact ih

end ParseTree

/-- The empty string is derived as if there were no terminals. -/
theorem Grammar.derives_nil_iff_derivesWord {α : Type} (al : Alphabet)
    (rules : List (Rule α)) {x : SymbolId} {t : ParseTree} :
    (⟨al, rules⟩ : Grammar α).Derives x [] t ↔
      (⟨Alphabet.empty, rules⟩ : Grammar α).DerivesWord x [] t := by
  constructor
  · rintro ⟨hDerivation, hSymbol, hYield⟩
    refine ⟨hDerivation.of_yield_eq_nil hYield _, hSymbol, ?_⟩
    rw [ParseTree.word, hYield, List.filter_nil]
  · rintro ⟨hDerivation, hSymbol, _⟩
    have hYield := hDerivation.yield_eq_nil fun _ => rfl
    exact ⟨hDerivation.of_yield_eq_nil hYield _, hSymbol, hYield⟩

/-- If no rule leads to the empty string symbol, the empty word is derived by
trees without leaves. -/
theorem Grammar.weight_nil {g : Grammar ℝ}
    (hEmpty : ∀ r ∈ g.rules, emptyId ∉ r.rhs) {x : SymbolId}
    (hx : x ≠ emptyId) : g.weight x [] = g.emptyWeight x := by
  have hIff : ∀ t, g.DerivesWord x [] t ↔ g.Derives x [] t := by
    intro t
    constructor
    · rintro ⟨hDerivation, rfl, hWord⟩
      have hNone := hDerivation.emptyId_notMem_yield hEmpty hx
      exact ⟨hDerivation, rfl, ParseTree.word_eq_yield hNone ▸ hWord⟩
    · rintro ⟨hDerivation, hSymbol, hYield⟩
      exact ⟨hDerivation, hSymbol, by rw [ParseTree.word, hYield]; rfl⟩
  rw [emptyWeight, ← (Equiv.subtypeEquivRight hIff).tsum_eq]
  rfl

/-- The sums over the trees of the empty string are total weights. -/
theorem Grammar.emptyWeight_eq_total (al : Alphabet) {rules : List (Rule ℝ)}
    (hNonneg : ∀ r ∈ rules, 0 ≤ r.probability) (x : SymbolId) :
    (⟨al, rules⟩ : Grammar ℝ).emptyWeight x =
      total (fun _ => false) (valued ENNReal.ofReal rules) x [] := by
  have hProduct : ∀ t : ParseTree, t.product? (⟨al, rules⟩ : Grammar ℝ) =
      t.product? ⟨Alphabet.empty, rules⟩ := ParseTree.product?_congr rfl
  have hTrees : (⟨al, rules⟩ : Grammar ℝ).emptyWeight x =
      (⟨Alphabet.empty, rules⟩ : Grammar ℝ).weight x [] := by
    rw [emptyWeight, weight, ← (Equiv.subtypeEquivRight fun t =>
      derives_nil_iff_derivesWord al rules).tsum_eq]
    simp only [hProduct]
    rfl
  rw [hTrees, weight_eq_totals hNonneg fun _ _ => rfl, totals,
    withLeaves_nonterminal rfl]
  rfl

namespace NormalForm

/-! ## Weights of the empty word -/

section Nil

variable {rules : List (Rule ℝ≥0∞)} {f f' : SymbolId → ℝ≥0∞} {x : SymbolId}

/-- What the rules make of weights, for the empty word. -/
theorem expand_apply_nil (h : Weighting) :
    expand rules h x [] = nilStep rules (h · []) x := by
  refine congrArg List.sum (List.map_congr_left fun r _ => ?_)
  rw [ruleWeight, nilTerm, row_apply_nil]

theorem nilStep_mono (hLe : ∀ r ∈ rules, ∀ y ∈ r.rhs, f y ≤ f' y) :
    nilStep rules f x ≤ nilStep rules f' x := by
  refine List.sum_le_sum fun r hr => ?_
  unfold nilTerm
  split
  · gcongr
    exact List.prod_le_prod' (hLe r hr)
  · exact le_rfl

/-- What the equations of erasure do not increase is above the weights of the
empty word. -/
theorem total_nil_le (isTerminal : SymbolId → Bool)
    (hEmpty : ∀ r ∈ rules, emptyId ∉ r.rhs)
    (hLe : ∀ y, nilStep rules f y ≤ f y) (x : SymbolId) :
    total isTerminal rules x [] ≤ f x := by
  let bound : Weighting := fun y w => if w = [] then f y else ⊤
  have hNil : ∀ y, bound y [] = f y := fun y => if_pos rfl
  have hTotal : total isTerminal rules ≤ bound := by
    refine total_le fun y w => ?_
    by_cases hw : w = []
    · rw [hw, expand_apply_nil, hNil]
      refine (nilStep_mono fun r hr z hz => ?_).trans (hLe y)
      by_cases hTerminal : isTerminal z = true
      · have hNe : z ≠ emptyId := fun hEq => hEmpty r hr (hEq ▸ hz)
        rw [withLeaves_terminal hTerminal, leaf_nil hNe]
        exact zero_le
      · rw [withLeaves_nonterminal (by simpa using hTerminal), hNil]
    · exact le_top.trans_eq (if_neg hw).symm
  exact (hTotal x []).trans_eq (hNil x)

/-- What the rules make of nonnegative numbers is the same for extended
ones. -/
theorem nilStep_ofReal {rules : List (Rule ℝ)}
    (hNonneg : ∀ r ∈ rules, 0 ≤ r.probability) {f : SymbolId → ℝ}
    (hf : ∀ y, 0 ≤ f y) (x : SymbolId) :
    0 ≤ nilStep rules f x ∧
      nilStep (valued ENNReal.ofReal rules) (fun y => ENNReal.ofReal (f y)) x =
        ENNReal.ofReal (nilStep rules f x) := by
  have hBoth := ofReal_nilStep (h := fun y _ => ENNReal.ofReal (f y)) (x := x)
    hNonneg fun r _ _ => ofReal_prod fun y _ => ⟨hf y, rfl⟩
  rwa [expand_apply_nil] at hBoth

/-- Symbols that are not erasable get nothing from values of the others. -/
theorem nilStep_eq_zero {α : Type} {φ : α → ℝ≥0∞} {rules : List (Rule α)}
    (hOther : ∀ y, y ∉ erasables rules → f y = 0)
    (hx : x ∉ erasables rules) : nilStep (valued φ rules) f x = 0 := by
  refine List.sum_eq_zero fun y hy => ?_
  obtain ⟨_, hMem, rfl⟩ := List.mem_map.1 hy
  obtain ⟨r, hr, rfl⟩ := List.mem_map.1 hMem
  unfold nilTerm
  split
  · rename_i hLhs
    have hLhs : r.lhs = x := hLhs
    obtain ⟨z, hz, hNot⟩ : ∃ z ∈ r.rhs, z ∉ erasables rules := by
      by_contra hAll
      push Not at hAll
      exact hx (hLhs ▸ eraseClosed_erasables rules r hr hAll)
    have hZero : (r.rhs.map f).prod = 0 :=
      List.prod_eq_zero (List.mem_map.2 ⟨z, hz, hOther z hNot⟩)
    rw [hZero, mul_zero]
  · rfl

end Nil

/-! ## Solutions -/

/-- Extended numbers that satisfy the equations `x = c + b x + [xᵀ a i x] i`. -/
def ErasureSystem.Solves {n : Nat} (s : ErasureSystem ℝ n)
    (x : Fin n → ℝ≥0∞) : Prop :=
  ∀ i, x i = ENNReal.ofReal (s.constant.entry i) +
    ∑ j, ENNReal.ofReal (s.linear.entry i j) * x j +
    ∑ j, ∑ k, ENNReal.ofReal ((s.quadratic.slice i).entry j k) * x j * x k

/-- The value of a symbol, given the values of the symbols of a list. -/
def valueAt (symbols : List SymbolId) (x : Fin symbols.length → ℝ≥0∞)
    (t : SymbolId) : ℝ≥0∞ :=
  ((symbols.zip (Vec.ofFn x).toList).lookup t).getD 0

section Solutions

variable {rules : List (Rule ℝ)} {symbols : List SymbolId}
  {x : Fin symbols.length → ℝ≥0∞}

theorem valueAt_get (hNodup : symbols.Nodup) (i : Fin symbols.length) :
    valueAt symbols x (symbols.get i) = x i := by
  have hLength : i.val < (Vec.ofFn x).toList.length := by simp
  rw [valueAt, List.get_eq_getElem,
    lookup_zip_getElem hNodup i.isLt hLength, Option.getD_some]
  simp [Vec.ofFn]

theorem valueAt_of_notMem {t : SymbolId} (ht : t ∉ symbols) :
    valueAt symbols x t = 0 := by
  rw [valueAt, (lookup_zip_eq_none_iff (by simp)).2 ht, Option.getD_none]

/-- Values that are zero elsewhere are given by those of the list. -/
theorem valueAt_comp_get (hNodup : symbols.Nodup) {f : SymbolId → ℝ≥0∞}
    (hOther : ∀ t, t ∉ symbols → f t = 0) :
    valueAt symbols (fun i => f (symbols.get i)) = f := by
  funext t
  by_cases ht : t ∈ symbols
  · obtain ⟨i, rfl⟩ := List.get_of_mem ht
    exact valueAt_get hNodup i
  · rw [valueAt_of_notMem ht, hOther t ht]

theorem ofReal_sumWhere (hNonneg : ∀ r ∈ rules, 0 ≤ r.probability)
    (a : SymbolId) (rhs : List SymbolId) :
    0 ≤ sumWhere rules (fun r => decide (r.lhs = a ∧ r.rhs = rhs)) ∧
      ENNReal.ofReal
        (sumWhere rules fun r => decide (r.lhs = a ∧ r.rhs = rhs)) =
          sumWhere (valued ENNReal.ofReal rules)
            fun r => decide (r.lhs = a ∧ r.rhs = rhs) := by
  induction rules with
  | nil => simp [sumWhere, valued]
  | cons r rules ih =>
      obtain ⟨hRest, hSum⟩ := ih fun s hs => hNonneg s (by simp [hs])
      have hr := hNonneg r (by simp)
      simp only [valued_cons, sumWhere_cons, decide_eq_true_eq, ← hSum]
      by_cases hHere : r.lhs = a ∧ r.rhs = rhs
      · simp only [if_pos hHere]
        exact ⟨add_nonneg hr hRest, ENNReal.ofReal_add hr hRest⟩
      · simp only [if_neg hHere, zero_add, and_true]
        exact hRest

/-- To solve the equations is to be kept by what the rules make of values. -/
theorem solves_erasureSystem_iff (hNodup : symbols.Nodup)
    (hShort : ∀ r ∈ rules, r.rhs.length ≤ 2)
    (hNonneg : ∀ r ∈ rules, 0 ≤ r.probability) :
    (erasureSystem rules symbols).Solves x ↔ ∀ i, x i =
      nilStep (valued ENNReal.ofReal rules) (valueAt symbols x)
        (symbols.get i) := by
  have hShort' : ∀ r ∈ valued ENNReal.ofReal rules, r.rhs.length ≤ 2 := by
    intro r hr
    obtain ⟨s, hs, rfl⟩ := List.mem_map.1 hr
    exact hShort s hs
  refine forall_congr' fun i => ?_
  have hSum := sum_entries hNodup hShort' (Vec.ofFn x) (symbols.get i)
  simp only [Vec.entry_ofFn, ← (ofReal_sumWhere hNonneg _ _).2] at hSum
  rw [entry_constant hNodup]
  simp only [entry_linear hNodup, entry_quadratic hNodup]
  rw [hSum]
  rfl

end Solutions

/-! ## The least solution -/

/-- What the sums for the symbols on the right sides make is the sum for the
symbol on the left. -/
theorem emptyWeight_eq_nilStep (al : Alphabet) {rules : List (Rule ℝ)}
    (hNonneg : ∀ r ∈ rules, 0 ≤ r.probability) (x : SymbolId) :
    (⟨al, rules⟩ : Grammar ℝ).emptyWeight x =
      nilStep (valued ENNReal.ofReal rules)
        (⟨al, rules⟩ : Grammar ℝ).emptyWeight x := by
  have hSums : (⟨al, rules⟩ : Grammar ℝ).emptyWeight =
      (total (fun _ => false) (valued ENNReal.ofReal rules) · []) :=
    funext (Grammar.emptyWeight_eq_total al hNonneg)
  calc (⟨al, rules⟩ : Grammar ℝ).emptyWeight x
      = expand (valued ENNReal.ofReal rules)
          (totals (fun _ => false) (valued ENNReal.ofReal rules)) x [] := by
        rw [expand_total, hSums]
    _ = nilStep (valued ENNReal.ofReal rules)
          (⟨al, rules⟩ : Grammar ℝ).emptyWeight x := by
        rw [expand_apply_nil, hSums]
        rfl

/-- The products over the trees of the empty string add up to the least
solution of the equations of the erasable symbols, and there are no such trees
for other symbols. -/
theorem isLeast_emptyWeight (al : Alphabet) {rules : List (Rule ℝ)}
    (hShort : ∀ r ∈ rules, r.rhs.length ≤ 2)
    (hEmpty : ∀ r ∈ rules, emptyId ∉ r.rhs)
    (hNonneg : ∀ r ∈ rules, 0 ≤ r.probability) :
    IsLeast {x | (erasureSystem rules (erasables rules)).Solves x}
      (fun i => (⟨al, rules⟩ : Grammar ℝ).emptyWeight
        ((erasables rules).get i)) ∧
    ∀ x, x ∉ erasables rules →
      ∀ t, ¬ (⟨al, rules⟩ : Grammar ℝ).Derives x [] t := by
  have hNodup := nodup_erasables rules
  have hEmpty' : ∀ r ∈ valued ENNReal.ofReal rules, emptyId ∉ r.rhs := by
    intro r hr
    obtain ⟨s, hs, rfl⟩ := List.mem_map.1 hr
    exact hEmpty s hs
  have hOther : ∀ x, x ∉ erasables rules →
      (⟨al, rules⟩ : Grammar ℝ).emptyWeight x = 0 := by
    intro x hx
    rw [Grammar.emptyWeight_eq_total al hNonneg, total_nil_eq_zero hEmpty hx]
  refine ⟨⟨?_, fun x hx i => ?_⟩, ?_⟩
  · -- the sums satisfy the equations
    rw [Set.mem_ofPred_eq, solves_erasureSystem_iff hNodup hShort hNonneg,
      valueAt_comp_get hNodup hOther]
    exact fun i => emptyWeight_eq_nilStep al hNonneg _
  · -- other solutions are not increased by the equations
    rw [Set.mem_ofPred_eq, solves_erasureSystem_iff hNodup hShort hNonneg] at hx
    have hLe : ∀ y, nilStep (valued ENNReal.ofReal rules)
        (valueAt (erasables rules) x) y ≤ valueAt (erasables rules) x y := by
      intro y
      by_cases hy : y ∈ erasables rules
      · obtain ⟨j, rfl⟩ := List.get_of_mem hy
        rw [valueAt_get hNodup, ← hx j]
      · rw [nilStep_eq_zero (fun _ => valueAt_of_notMem) hy]
        exact zero_le
    have hBound := total_nil_le (fun _ => false) hEmpty' hLe
      ((erasables rules).get i)
    rwa [valueAt_get hNodup, ← Grammar.emptyWeight_eq_total al hNonneg]
      at hBound
  · rintro x hx t ⟨hDerivation, hSymbol, hYield⟩
    exact hx (hSymbol ▸ symbol_mem_erasables hDerivation hYield)

/-- Two ways to pair a symbol with itself, and one to leave it out. -/
def pairings (p q r : ℝ) : List (Rule ℝ) :=
  [⟨3, [3, 3], p⟩, ⟨3, [], q⟩, ⟨3, [3, 3], r⟩, ⟨startId, [3, 2], 1⟩]

theorem erasables_pairings (p q r : ℝ) : erasables (pairings p q r) = [3] := by
  simp [erasables, eraseRounds, eraseRound, eraseStep, erasesNow, pairings,
    startId]

/-- The equation is `x = 1 / 4 + 3 / 4 x ^ 2`, with the solutions `1 / 3` and
`1`. -/
theorem isLeast_emptyWeight_pairings :
    let rules := pairings (1 / 4) (1 / 4) (1 / 2)
    erasables rules = [3] ∧
    IsLeast {x | (erasureSystem rules (erasables rules)).Solves x}
      (fun i => (⟨Grammar.twoSymbols, rules⟩ : Grammar ℝ).emptyWeight
        ((erasables rules).get i)) ∧
    ∀ t, ¬ (⟨Grammar.twoSymbols, rules⟩ : Grammar ℝ).Derives startId [] t := by
  intro rules
  have hErasables : erasables rules = [3] := erasables_pairings _ _ _
  have hShort : ∀ r ∈ rules, r.rhs.length ≤ 2 := by simp [rules, pairings]
  have hNonneg : ∀ r ∈ rules, 0 ≤ r.probability := by simp [rules, pairings]
  obtain ⟨hLeast, hOther⟩ := isLeast_emptyWeight Grammar.twoSymbols hShort
    (by simp [rules, pairings, emptyId]) hNonneg
  refine ⟨hErasables, hLeast, hOther startId ?_⟩
  rw [hErasables]
  decide

end NormalForm

end StochasticGrammar
