import Mathlib.Topology.Algebra.InfiniteSum.Real
import StochasticGrammar.Proofs.Weight.TreeSum

/-!
# Probabilities of words

A symbol derives a word with a probability if the products over its derivation
trees add up to it.  There may be infinitely many trees, and then the sum is a
series.  As an extended number, the sum exists whether it is finite or not
(`Grammar.weight`).

Main results: the sums are total weights (`Grammar.weight_eq_totals`), and
probabilities are those that are finite (`Grammar.hasProbability_iff_weight`,
`Grammar.hasProbability_iff`).  If the trees are listed, the sum is a finite one
(`Grammar.hasProbability_of_list`).
-/

namespace StochasticGrammar

open scoped ENNReal

/-- Nonnegative numbers add up to a number if they do so as extended ones. -/
theorem hasSum_iff_tsum_ofReal {ι : Type} {f : ι → ℝ} (hf : ∀ i, 0 ≤ f i)
    {p : ℝ} : HasSum f p ↔
      0 ≤ p ∧ (tsum fun i => ENNReal.ofReal (f i)) = ENNReal.ofReal p := by
  constructor
  · intro hSum
    refine ⟨hSum.nonneg hf, ?_⟩
    rw [← hSum.tsum_eq, ENNReal.ofReal_tsum_of_nonneg hf hSum.summable]
  · rintro ⟨hp, hSum⟩
    have hFinite := ENNReal.hasSum_toReal
      (hSum.trans_ne ENNReal.ofReal_ne_top)
    rw [← ENNReal.tsum_toReal_eq fun _ => ENNReal.ofReal_ne_top, hSum,
      ENNReal.toReal_ofReal hp] at hFinite
    simpa only [ENNReal.toReal_ofReal (hf _)] using hFinite

/-- The products over the derivation trees of a symbol and a word add up to a
number. -/
def Grammar.HasProbability (g : Grammar ℝ) (x : SymbolId) (w : List SymbolId)
    (p : ℝ) : Prop :=
  HasSum (fun t : {t : ParseTree // g.DerivesWord x w t} =>
    (t.1.product? g).getD 0) p

/-- What the products over the derivation trees of a symbol and a word add up
to, finite or not. -/
noncomputable def Grammar.weight (g : Grammar ℝ) (x : SymbolId)
    (w : List SymbolId) : ℝ≥0∞ :=
  tsum fun t : {t : ParseTree // g.DerivesWord x w t} =>
    ENNReal.ofReal ((t.1.product? g).getD 0)

variable {g : Grammar ℝ} {x : SymbolId} {w : List SymbolId}

namespace ParseTree

/-- A tree has a product, and as a weight it is the value of the tree. -/
def HasProduct (g : Grammar ℝ) (t : ParseTree) : Prop :=
  ∃ q, t.product? g = some q ∧ 0 ≤ q ∧
    ENNReal.ofReal q = t.value g ENNReal.ofReal

theorem exists_product_row {ts : List ParseTree}
    (h : ∀ t ∈ ts, t.HasProduct g) {p : ℝ} (hp : 0 ≤ p) :
    ∃ q, reduceList? g (· * ·) 1 p ts = some q ∧ 0 ≤ q ∧
      ENNReal.ofReal q =
        ENNReal.ofReal p * valueList g ENNReal.ofReal ts := by
  induction ts generalizing p with
  | nil => exact ⟨p, by simp [reduceList?], hp, by simp [valueList]⟩
  | cons t ts ih =>
      obtain ⟨q, hProduct, hq, hValue⟩ := h t (by simp)
      obtain ⟨q', hProduct', hq', hValue'⟩ :=
        ih (fun u hu => h u (by simp [hu])) (mul_nonneg hp hq)
      refine ⟨q', ?_, hq', ?_⟩
      · rw [product?] at hProduct
        rw [reduceList?, hProduct]
        exact hProduct'
      · rw [hValue', ENNReal.ofReal_mul hp, hValue, valueList, mul_assoc]

/-- Derivation trees have products. -/
theorem IsDerivation.hasProduct (hNonneg : ∀ r ∈ g.rules, 0 ≤ r.probability)
    {t : ParseTree} (h : t.IsDerivation g) : t.HasProduct g := by
  induction h with
  | terminal _ =>
      exact ⟨1, by simp [product?, ParseTree.terminal, reduce?,
        entryProbability?, reduceList?], zero_le_one, by simp⟩
  | @branch ix r ts hRule _ _ ih =>
      obtain ⟨q, hProduct, hq, hValue⟩ :=
        exists_product_row ih (hNonneg r (List.mem_of_getElem? hRule))
      refine ⟨q, ?_, hq, ?_⟩
      · simpa [product?, ParseTree.branch, reduce?, entryProbability?,
          Grammar.rule?, hRule] using hProduct
      · rw [value_branch hRule, hValue]

end ParseTree

namespace Grammar

section Nonnegative

variable (hNonneg : ∀ r ∈ g.rules, 0 ≤ r.probability)

include hNonneg

/-- The product over a tree is nonnegative, and as a weight it is the value of
the tree. -/
theorem product_nonneg (t : {t : ParseTree // g.DerivesWord x w t}) :
    0 ≤ (t.1.product? g).getD 0 ∧
      ENNReal.ofReal ((t.1.product? g).getD 0) =
        t.1.value g ENNReal.ofReal := by
  obtain ⟨q, hSome, hq, hValue⟩ := t.2.isDerivation.hasProduct hNonneg
  rw [hSome]
  exact ⟨hq, hValue⟩

/-- The products over the derivation trees add up to the total weight. -/
theorem weight_eq_totals
    (hHead : ∀ r ∈ g.rules, g.alphabet.isTerminal r.lhs = false) :
    g.weight x w = Weighting.totals g.alphabet.isTerminal
      (Weighting.valued ENNReal.ofReal g.rules) x w := by
  have hTrees : ParseTree.trees g (fun _ => True) x w =
      {t | g.DerivesWord x w t} := by
    ext t
    exact and_iff_left trivial
  rw [← ParseTree.tsum_trees hHead, ParseTree.treeSum, hTrees, ← tsum_subtype]
  exact tsum_congr fun t => (product_nonneg hNonneg t).2

/-- Probabilities are the sums that are finite. -/
theorem hasProbability_iff_weight {p : ℝ} :
    g.HasProbability x w p ↔ 0 ≤ p ∧ g.weight x w = ENNReal.ofReal p :=
  hasSum_iff_tsum_ofReal fun t => (product_nonneg hNonneg t).1

end Nonnegative

/-- Probabilities are total weights that are finite. -/
theorem hasProbability_iff (hg : g.WellFormed)
    (hNonneg : ∀ r ∈ g.rules, 0 ≤ r.probability) {p : ℝ} :
    g.HasProbability x w p ↔ 0 ≤ p ∧
      Weighting.totals g.alphabet.isTerminal
        (Weighting.valued ENNReal.ofReal g.rules) x w = ENNReal.ofReal p := by
  rw [hasProbability_iff_weight hNonneg,
    weight_eq_totals hNonneg fun _ => hg.isTerminal_lhs]

/-- If the derivation trees are listed, their products are added up. -/
theorem hasProbability_of_list {shapes : List ParseTree}
    (hNodup : shapes.Nodup) (hMem : ∀ t, t ∈ shapes ↔ g.DerivesWord x w t) :
    g.HasProbability x w
      (shapes.map fun t => (t.product? g).getD 0).sum := by
  classical
  let f := Set.indicator {t | g.DerivesWord x w t}
    fun t => (t.product? g).getD 0
  have hOther : ∀ t ∉ shapes.toFinset, f t = 0 := fun t ht =>
    Set.indicator_of_notMem
      (fun hDerives => ht (List.mem_toFinset.2 ((hMem t).2 hDerives))) _
  have hSum : HasSum f (∑ t ∈ shapes.toFinset, f t) :=
    hasSum_sum_of_ne_finset_zero hOther
  have hListed : ∑ t ∈ shapes.toFinset, f t =
      ∑ t ∈ shapes.toFinset, (t.product? g).getD 0 :=
    Finset.sum_congr rfl fun t ht =>
      Set.indicator_of_mem ((hMem t).1 (List.mem_toFinset.1 ht)) _
  rw [hListed, List.sum_toFinset _ hNodup] at hSum
  have hSubtype := (hasSum_subtype_iff_indicator
    (f := fun t : ParseTree => (t.product? g).getD 0)
    (s := {t | g.DerivesWord x w t})).2 hSum
  exact hSubtype

end Grammar

end StochasticGrammar
