import StochasticGrammar.Proofs.NormalForm.Fit
import StochasticGrammar.Proofs.Parse.SameLanguage

/-!
# Probabilities on a grammar and on its normal form

In exact arithmetic, the agenda on a grammar and the chart on its normal form
find the same probability of an input.  They add up different trees: where the
normal form has one tree, the grammar may have many that differ in what is
erased and renamed on the way.  Both sums are compared with the probability of
the input under the grammar, which is a sum over all derivation trees.

That no symbol derives itself is needed three times.  Then the agenda leaves no
derivation tree out, the chains of unit rules have finite sums, and the
equations of erasure have one solution, which is what the fit finds if it leaves
no residual.

Main results: `Parse.probability_agrees`.
-/

namespace StochasticGrammar

open NormalForm Weighting
open scoped ENNReal

variable {g c : Grammar ℝ} {options : Options ℝ} {input : List SymbolId}

/-- A parser that lists the derivation trees of a word finds its
probability. -/
theorem Derivations.Lists.exists_probability {d : Derivations ℝ}
    {shapes : List ParseTree} {x : SymbolId} {w : List SymbolId}
    (h : d.Lists shapes) (hNodup : shapes.Nodup)
    (hMem : ∀ t, t ∈ shapes ↔ d.grammar.DerivesWord x w t) :
    ∃ total, d.probability.Yields (fun p => p = total) ∧
      d.grammar.HasProbability x w total := by
  refine ⟨_, h.probability.mono fun p hp => ?_,
    Grammar.hasProbability_of_list hNodup hMem⟩
  rw [hp, List.sum_eq_foldl, List.foldl_map]
  rfl

/-! ## The agenda -/

/-- Reading rules to the lone empty string symbol as rules to nothing changes
no probabilities. -/
theorem Grammar.hasProbability_withoutEmptySymbol_iff (hg : g.WellFormed)
    (hNonneg : ∀ r ∈ g.rules, 0 ≤ r.probability) {x : SymbolId}
    {w : List SymbolId} {p : ℝ} :
    g.withoutEmptySymbol.HasProbability x w p ↔ g.HasProbability x w p := by
  have hNonneg' : ∀ r ∈ g.withoutEmptySymbol.rules, 0 ≤ r.probability := by
    intro r hr
    obtain ⟨s, hs, rfl⟩ := mem_withoutEmptySymbol.1 hr
    rw [Rule.probability_withoutLoneEmpty]
    exact hNonneg s hs
  rw [hasProbability_iff hg.withoutEmptySymbol hNonneg',
    hasProbability_iff hg hNonneg, totals, totals]
  show _ ∧ withLeaves g.alphabet.isTerminal (total g.alphabet.isTerminal
    (valued ENNReal.ofReal g.withoutEmptySymbol.rules)) x w = _ ↔ _
  rw [total_withoutEmptySymbol hg]

/-- If no symbol derives itself, the agenda lists all derivation trees and
finds the probability of the input. -/
theorem Earley.Parse.exists_probability (hg : g.WellFormed)
    (hNonneg : ∀ r ∈ g.rules, 0 ≤ r.probability) (hAlone : g.EmptyAlone)
    (hFree : g.CycleFree)
    (hInput : ∀ id ∈ input, id ≠ emptyId ∧ g.alphabet.isTerminal id = true) :
    ∃ p total, Earley.Parse.make g input = .ok p ∧
      p.derivations.probability.Yields (fun q => q = total) ∧
      g.HasProbability startId input total := by
  obtain ⟨p, hMake, hGrammar, shapes, hLists, hNodup, hMem⟩ :=
    Earley.Parse.lists_make hg hInput
  have hEmpty : emptyId ∉ input := fun hId => (hInput emptyId hId).1 rfl
  have hAcyclic : Acyclic g.withoutEmptySymbol.rules :=
    hAlone.stripped_eq ▸ hFree
  have hAll : ∀ t, t ∈ shapes ↔
      p.derivations.grammar.DerivesWord startId input t := by
    intro t
    rw [hMem, hGrammar, ← hAlone.derives_iff hEmpty]
    exact and_iff_left_of_imp fun ht => hAcyclic.repetitionFree ht.isDerivation
  obtain ⟨total, hYields, hTotal⟩ := hLists.exists_probability hNodup hAll
  rw [hGrammar, Grammar.hasProbability_withoutEmptySymbol_iff hg hNonneg]
    at hTotal
  exact ⟨p, total, hMake, hYields, hTotal⟩

/-! ## The chart -/

/-- If no symbol derives itself, the chart on the normal form finds the
probability of the input under the grammar. -/
theorem Cyk.Parse.exists_probability (hg : g.WellFormed)
    (hNonneg : ∀ r ∈ g.rules, 0 ≤ r.probability) (hFree : g.CycleFree)
    (hMerge : options.mergeDuplicates = true)
    (hResidual : (erasure options g).residual = 0)
    (hExact : IsExact options.solveUnits)
    (hResult : result options g = .ok c)
    (hInput : ∀ id ∈ input, id ≠ emptyId ∧ g.alphabet.isTerminal id = true) :
    ∃ p total, Cyk.Parse.make c input = .ok p ∧
      p.derivations.probability.Yields (fun q => q = total) ∧
      g.HasProbability startId input total := by
  obtain ⟨s, chains, h⟩ := exists_converted hResult
  have hPrepared := h.prepared hg
  have hSplit : ∀ r ∈ s.rules, 0 ≤ r.probability :=
    good_of_mem_split hg h.split zero_le_one hNonneg
  have hLayered := layered_split hg h.split hFree
  rw [erasure, h.split] at hResidual
  have hFitted := isFitted_of_residual hPrepared hSplit hLayered hResidual
  obtain ⟨rank, hRank⟩ := hLayered
  have hLower : ∀ r ∈ shortRules options s, ∀ t, r.rhs = [t] →
      rank t < rank r.lhs := fun r hr t hRhs =>
    hRank r.lhs t (exposes_of_mem_withShortened hr hRhs)
  have hFaithful := faithful_ofReal hPrepared hSplit hFitted hMerge hExact
    h.solve (summable_of_rank hLower)
  have hc := h.wellFormed_result hg
  have hInput' : ∀ id ∈ input,
      id ≠ emptyId ∧ c.alphabet.isTerminal id = true := by
    rwa [h.isTerminal_eq hg]
  obtain ⟨p, hMake, hGrammar, shapes, hLists, hNodup, hMem⟩ :=
    Cyk.Parse.lists_of_inNormalForm hc (h.inNormalForm hg) hInput'
  rw [← hGrammar] at hMem
  obtain ⟨total, hYields, hTotal⟩ := hLists.exists_probability hNodup hMem
  rw [hGrammar, Grammar.hasProbability_iff hc
    (h.good_result hg hNonneg hFaithful),
    totals_result h hg hNonneg hFitted hFaithful,
    ← Grammar.hasProbability_iff hg hNonneg] at hTotal
  exact ⟨p, total, hMake, hYields, hTotal⟩

/-! ## Both parsers -/

/-- If no symbol derives itself, and the empty string symbol is a whole right
side wherever it occurs, both parsers find the same probability: the one of the
input under the grammar.  It is assumed that the fit leaves no residual and that
the solver of linear systems is exact. -/
theorem Parse.probability_agrees (hg : g.WellFormed)
    (hNonneg : ∀ r ∈ g.rules, 0 ≤ r.probability) (hAlone : g.EmptyAlone)
    (hFree : g.CycleFree) (hMerge : options.mergeDuplicates = true)
    (hResidual : (erasure options g).residual = 0)
    (hExact : IsExact options.solveUnits)
    (hResult : result options g = .ok c)
    (hInput : ∀ id ∈ input, id ≠ emptyId ∧ g.alphabet.isTerminal id = true) :
    ∃ p q total, Earley.Parse.make g input = .ok p ∧
      Cyk.Parse.make c input = .ok q ∧
      p.derivations.probability.Yields (fun x => x = total) ∧
      q.derivations.probability.Yields (fun x => x = total) ∧
      g.HasProbability startId input total := by
  obtain ⟨p, total, hMake, hYields, hTotal⟩ :=
    Earley.Parse.exists_probability hg hNonneg hAlone hFree hInput
  obtain ⟨q, total', hMake', hYields', hTotal'⟩ :=
    Cyk.Parse.exists_probability hg hNonneg hFree hMerge hResidual hExact
      hResult hInput
  obtain rfl : total = total' := hTotal.unique hTotal'
  exact ⟨p, q, total, hMake, hMake', hYields, hYields', hTotal⟩

/-! ## A small grammar -/

/-- A letter that may be left out: each rule makes a row smaller. -/
theorem Grammar.cycleFree_optional {α : Type} (p q r : α) :
    (optional p q r).CycleFree := by
  refine acyclic_of_lt (fun x => if x = startId then 4 else
    if x = 3 then 2 else 1) fun s hs => ?_
  simp only [optional, List.map_cons, List.map_nil, List.mem_cons,
    List.not_mem_nil, or_false] at hs
  rcases hs with rfl | rfl | rfl <;>
    simp [Rule.withoutEmpty, startId, emptyId]

/-- It is left out with probability `1 / 2`, which is where the fit starts. -/
theorem residual_optional : (erasure exactOptions
    (Grammar.optional 1 (1 / 2) (1 / 2))).residual = 0 := by
  let rules : List (Rule ℝ) :=
    [⟨startId, [3, 2], 1⟩, ⟨3, [], 1 / 2⟩, ⟨3, [2], 1 / 2⟩]
  have hErasables : erasables rules = [3] := erasables_optional _ _ _
  have hShort : ∀ r ∈ rules, r.rhs.length ≤ 2 := by simp [rules]
  show (Erasure.fit exactOptions rules).residual = 0
  rw [(fit_eq_solve (by simp [hErasables])).2]
  refine largestMagnitude_eq_zero_iff.2 fun i => ?_
  show ((erasureSystem rules (erasables rules)).residual
    (fitStart _)).entry i = 0
  have hAll : ∀ x ∈ erasables rules, x = 3 := by simp [hErasables]
  have hOnly : (erasables rules).get i = 3 := hAll _ (List.get_mem _ i)
  have hHalf : (fitStart (α := ℝ) (erasables rules).length).entry i =
      1 / 2 := by
    rw [fitStart, Vec.entry_ofFn]
    norm_num
  let value : SymbolId → ℝ := fun t => (((erasables rules).zip
    (fitStart (α := ℝ) (erasables rules).length).toList).lookup t).getD 0
  have hLetter : value 2 = 0 := by
    show (List.lookup 2 _).getD 0 = 0
    rw [(lookup_zip_eq_none_iff (by simp)).2 (by simp [hErasables]),
      Option.getD_none]
  rw [residual_erasureSystem (nodup_erasables rules) hShort, hOnly, hHalf,
    sub_eq_zero]
  show nilStep rules value 3 = 1 / 2
  clear_value value
  simp [nilStep, nilTerm, rules, hLetter, startId]

/-- Two letters are derived with the same probability by both ways. -/
theorem Parse.probability_agrees_optional :
    ∃ c p q total,
      result exactOptions (Grammar.optional 1 (1 / 2) (1 / 2)) = .ok c ∧
      Earley.Parse.make (Grammar.optional (1 : ℝ) (1 / 2) (1 / 2)) [2, 2] =
        .ok p ∧
      Cyk.Parse.make c [2, 2] = .ok q ∧
      p.derivations.probability.Yields (fun x => x = total) ∧
      q.derivations.probability.Yields (fun x => x = total) ∧
      (Grammar.optional (1 : ℝ) (1 / 2) (1 / 2)).HasProbability startId [2, 2]
        total := by
  have hNonneg : ∀ r ∈ (Grammar.optional (1 : ℝ) (1 / 2) (1 / 2)).rules,
      0 ≤ r.probability := by
    simp [Grammar.optional]
  obtain ⟨c, hResult⟩ := exists_result_exact_optional 1 (1 / 2) (1 / 2)
  obtain ⟨p, q, total, h⟩ := Parse.probability_agrees
    (Grammar.wellFormed_optional 1 (1 / 2) (1 / 2)) hNonneg
    (Grammar.emptyAlone_optional 1 (1 / 2) (1 / 2))
    (Grammar.cycleFree_optional 1 (1 / 2) (1 / 2)) rfl residual_optional
    isExact_solveByInverse hResult
    (by decide : ∀ id ∈ [2, 2], id ≠ emptyId ∧
      Grammar.twoSymbols.isTerminal id = true)
  exact ⟨c, p, q, total, hResult, h⟩

end StochasticGrammar
