import StochasticGrammar.Proofs.NormalForm.ChainSums

/-!
# The stage that removes unit rules

What the stage keeps holds of any list of tidy rules, whatever the unit rules
are.  The start symbol gives every word the weight that it gave it.  Any other
symbol gives a word the weight of the derivations that begin with two symbols:
the chains of unit rules have moved to where the symbol is used.

It is assumed that the sums over the chains of unit rules are finite and that
the linear system is solved exactly.

Main results: `weight_removeUnits`.
-/

namespace StochasticGrammar.NormalForm

open Weighting
open scoped ENNReal

/-! ## Trees that begin with two symbols -/

/-- The first rule of a tree has two symbols on the right. -/
def BeginsWithPair {α : Type} (g : Grammar α) (t : ParseTree) : Prop :=
  ∃ (ix : ℕ) (r : Rule α), t.entry.rule = some (ix : ℤ) ∧
    g.rules[ix]? = some r ∧ r.rhs.length = 2

theorem beginsWithPair_iff_mem_branchesOf {α : Type} {g : Grammar α}
    {a : SymbolId} {w : List SymbolId} {t : ParseTree} :
    g.DerivesWord a w t ∧ BeginsWithPair g t ↔
      t ∈ ParseTree.branchesOf g (·.rhs.length == 2) (fun _ => True) a w := by
  constructor
  · rintro ⟨⟨hDerivation, rfl, rfl⟩, ix, r, hRoot, hRule, hPair⟩
    cases hDerivation with
    | terminal _ => cases hRoot
    | @branch k _ ts hFirst hSymbols hBelow =>
        obtain rfl : k = ix := by
          simpa [ParseTree.branch, ParseTree.entry] using hRoot
        cases hFirst.symm.trans hRule
        exact ⟨k, r, ts, hRule, by simp [hPair], rfl,
          ⟨hSymbols, fun t ht => ⟨hBelow t ht, trivial⟩,
            (ParseTree.word_branch _ _ _).symm⟩, rfl⟩
  · rintro ⟨ix, r, ts, hRule, hPair, rfl, ⟨hSymbols, hBelow, rfl⟩, rfl⟩
    exact ⟨⟨.branch hRule hSymbols fun t ht => (hBelow t ht).1, rfl,
      ParseTree.word_branch _ _ _⟩, ix, r, rfl, hRule, by simpa using hPair⟩

/-- The derivations that begin with two symbols have the weight of the rules of
two symbols. -/
theorem tsum_beginsWithPair {g : Grammar ℝ}
    (hNonneg : ∀ r ∈ g.rules, 0 ≤ r.probability)
    (hHead : ∀ r ∈ g.rules, g.alphabet.isTerminal r.lhs = false)
    (a : SymbolId) (w : List SymbolId) :
    (tsum fun t : {t // g.DerivesWord a w t ∧ BeginsWithPair g t} =>
      ENNReal.ofReal ((t.1.product? g).getD 0)) =
        expand (valued ENNReal.ofReal (pairRules g.rules))
          (totals g.alphabet.isTerminal (valued ENNReal.ofReal g.rules))
            a w := by
  have hTotals : ParseTree.treeSum g ENNReal.ofReal (fun _ => True) =
      totals g.alphabet.isTerminal (valued ENNReal.ofReal g.rules) :=
    funext fun x => funext fun v => ParseTree.tsum_trees hHead x v
  have hSet : ParseTree.branchesOf g (·.rhs.length == 2) (fun _ => True) a w =
      {t | g.DerivesWord a w t ∧ BeginsWithPair g t} :=
    Set.ext fun _ => beginsWithPair_iff_mem_branchesOf.symm
  rw [pairRules, ← hTotals, ← ParseTree.tsum_branchesOf, hSet, ← tsum_subtype]
  exact tsum_congr fun t => (Grammar.product_nonneg hNonneg ⟨t.1, t.2.1⟩).2

/-! ## The stage -/

section Stage

variable {options : Options ℝ} {al : Alphabet} {rules out : List (Rule ℝ)}

theorem isTerminal_lhs_of_mem_withoutUnits {α : Type} [Zero α] [One α] [Add α]
    [Mul α] {c : Chains α} {rules : List (Rule α)} (hal : al.WellFormed)
    (hTidy : Tidy al rules) :
    ∀ r ∈ withoutUnits c al rules, al.isTerminal r.lhs = false := by
  intro r hr
  rcases mem_withoutUnits_cases hTidy hr with
    hPair | ⟨x, _, ⟨_, _, rfl⟩ | ⟨s, _, rfl⟩⟩
  · obtain ⟨s, hs, _, _, _, _, _, _, _, rfl⟩ := exists_of_mem_spreadRules hPair
    exact hTidy.head s hs
  · exact hal.isTerminal_startId
  · exact hal.isTerminal_startId

/-- Without unit rules, the start symbol gives every word the weight that it
gave it, and any other nonterminal gives it what the derivations that begin with
two symbols did. -/
theorem weight_removeUnits (hal : al.WellFormed) (hTidy : Tidy al rules)
    (hNonneg : ∀ r ∈ rules, 0 ≤ r.probability)
    (hFinite : ∀ x ∈ al.ids .nonterminal, ∀ y, al.hasId y = true →
      Summable fun chain : properChains rules x y => chainProduct rules chain)
    (hExact : IsExact options.solveUnits)
    (hRemove : removeUnits options al rules = .ok out) :
    (∀ w, (⟨al, out⟩ : Grammar ℝ).weight startId w =
      (⟨al, rules⟩ : Grammar ℝ).weight startId w) ∧
    ∀ a ∈ al.ids .nonterminal, a ≠ startId → ∀ w,
      (⟨al, out⟩ : Grammar ℝ).weight a w =
        tsum fun t : {t // (⟨al, rules⟩ : Grammar ℝ).DerivesWord a w t ∧
          BeginsWithPair ⟨al, rules⟩ t} =>
            ENNReal.ofReal ((t.1.product? ⟨al, rules⟩).getD 0) := by
  obtain ⟨c, hSolve, rfl⟩ := map_eq_ok.1 hRemove
  have hAll : ∀ x y, Summable fun n => chainWeight rules n x y :=
    summable_chainWeight_of_rows hTidy.known hTidy.head fun x hx y hy =>
      (summable_chains_iff hNonneg).1 (hFinite x hx y hy)
  have hNames :=
    renames_ofReal hal hTidy.toPlain hExact hSolve hAll hNonneg
  have hOut := good_of_mem_withoutUnits hNames hTidy hNonneg hal.hasId_startId
  have hHead := isTerminal_lhs_of_mem_withoutUnits (c := c) hal hTidy
  have hWeight : ∀ a w, al.isTerminal a = false →
      (⟨al, withoutUnits c al rules⟩ : Grammar ℝ).weight a w =
        total al.isTerminal
          (valued ENNReal.ofReal (withoutUnits c al rules)) a w := by
    intro a w ha
    rw [Grammar.weight_eq_totals hOut hHead, totals, withLeaves_nonterminal ha]
  constructor
  · intro w
    rw [hWeight startId w hal.isTerminal_startId,
      total_withoutUnits hNames hTidy hNonneg hal,
      Grammar.weight_eq_totals hNonneg hTidy.head, totals,
      withLeaves_nonterminal hal.isTerminal_startId]
  · intro a ha hNe w
    rw [hWeight a w (hal.not_isTerminal ha),
      total_withoutUnits_of_ne hNames hTidy hNonneg hal hNe,
      tsum_beginsWithPair hNonneg hTidy.head]

end Stage

/-! ## A small stage -/

/-- A letter by way of a symbol that may go on for any number of steps, or two
of them: `S -> A`, `S -> A A`, `A -> A`, `A -> a` and `A -> A a`. -/
def detours (p q : ℝ) : List (Rule ℝ) :=
  [⟨startId, [3], p⟩, ⟨startId, [3, 3], p⟩, ⟨3, [3], q⟩, ⟨3, [2], q⟩,
    ⟨3, [3, 2], p⟩]

theorem detours_nonneg : ∀ r ∈ detours (1 / 2) (1 / 4), 0 ≤ r.probability := by
  norm_num [detours]

theorem tidy_detours : Tidy Grammar.twoSymbols (detours (1 / 2) (1 / 4)) := by
  refine ⟨⟨?_, ?_, ?_⟩, ?_, ?_⟩ <;> unfold detours <;>
    simp [Over, startId, emptyId] <;> decide

theorem summable_detours (x y : SymbolId) :
    Summable fun n => chainWeight (detours (1 / 2) (1 / 4)) n x y := by
  refine summable_chainWeight detours_nonneg (q := 1 / 2) (fun x => ?_)
    (by norm_num) x y
  simp only [unitStep, unitTerm, detours, List.map_cons, List.map_nil,
    List.sum_cons, List.sum_nil]
  by_cases hStart : startId = x
  · rw [← hStart]
    norm_num [startId]
  · by_cases hOther : 3 = x
    · simp [← hOther, startId]
      norm_num
    · norm_num [hStart, hOther]

/-- The start symbol keeps its weights without its unit rule. -/
theorem weight_removeUnits_detours : ∃ out,
    removeUnits exactOptions Grammar.twoSymbols (detours (1 / 2) (1 / 4)) =
      .ok out ∧
    ∀ w, (⟨Grammar.twoSymbols, out⟩ : Grammar ℝ).weight startId w =
      (⟨Grammar.twoSymbols, detours (1 / 2) (1 / 4)⟩ : Grammar ℝ).weight
        startId w := by
  have hal := Grammar.wellFormed_twoSymbols
  obtain ⟨c, hSolve⟩ := exists_chains_exact hal tidy_detours.known
    tidy_detours.head summable_detours
  have hRemove : removeUnits exactOptions Grammar.twoSymbols
      (detours (1 / 2) (1 / 4)) =
      .ok (withoutUnits c Grammar.twoSymbols (detours (1 / 2) (1 / 4))) :=
    map_eq_ok.2 ⟨c, hSolve, rfl⟩
  exact ⟨_, hRemove, (weight_removeUnits hal tidy_detours detours_nonneg
    (fun x _ y _ => (summable_chains_iff detours_nonneg).2
      (summable_detours x y)) isExact_solveByInverse hRemove).1⟩

end StochasticGrammar.NormalForm
