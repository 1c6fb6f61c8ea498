import StochasticGrammar.Proofs.NormalForm.Failure
import StochasticGrammar.Proofs.NormalForm.Slope

/-!
# Which solution the fit finds

The equations of erasure may have several solutions, and a fit without a
residual ends at any of them.  What it reports is never below the weights of the
empty word, which are the least solution.

How far it is above them is carried from one side of the equations to the other:
the shortened rules have the reported probabilities as factors, so a step of
their unit rules does not decrease the difference.  If the chains of these unit
rules have finite sums, there is no difference, and what is reported is right.
Conversely, if what is reported is the least solution, the differences to what
the equations arrive at from nothing die out, and since the system of the unit
rules had a solution, the sums are finite.

So whether the fit is right is decided by the chains.  It may be wrong:
`S -> A a (1)`, `A -> A A (3/2)`, `A -> a (1)` and `A -> e (1/8)` is a
counterexample.

Main results: `isFitted_iff_of_result`, `exists_false_root`.
-/

namespace StochasticGrammar.NormalForm

open Weighting
open scoped ENNReal

noncomputable section

/-- The chains of unit rules from erasable symbols to those that are left out with
a positive probability have finite sums. -/
def FiniteChains (e : Erasure ℝ) (rules : List (Rule ℝ)) : Prop :=
  ∀ x ∈ e.symbols, ∀ y ∈ e.symbols, 0 < e.probability y →
    Summable fun n => chainWeight rules n x y

/-! ## Weights of the empty word as a solution -/

section Solution

variable {rules : List (Rule ℝ)} {m : SymbolId → ℝ} (al : Alphabet)
  (hEmpty : ∀ r ∈ rules, emptyId ∉ r.rhs)
  (hNonneg : ∀ r ∈ rules, 0 ≤ r.probability) (hm : ∀ x, 0 ≤ m x)

include hNonneg hm

/-- No solution is below the weights of the empty word. -/
theorem emptyWeight_le_of_nilStep (hEmpty : ∀ r ∈ rules, emptyId ∉ r.rhs)
    (hStep : ∀ x, nilStep rules m x = m x) (x : SymbolId) :
    (⟨al, rules⟩ : Grammar ℝ).emptyWeight x ≤ ENNReal.ofReal (m x) := by
  have hEmpty' : ∀ r ∈ valued ENNReal.ofReal rules, emptyId ∉ r.rhs := by
    intro r hr
    obtain ⟨s, hs, rfl⟩ := List.mem_map.1 hr
    exact hEmpty s hs
  rw [Grammar.emptyWeight_eq_total al hNonneg]
  refine total_nil_le _ (f := fun y => ENNReal.ofReal (m y)) hEmpty'
    (fun y => ?_) x
  rw [(nilStep_ofReal hNonneg hm y).2, hStep y]

/-- Where they are finite, the weights are a solution. -/
theorem nilStep_of_emptyWeight
    (hWeight : ∀ x, (⟨al, rules⟩ : Grammar ℝ).emptyWeight x =
      ENNReal.ofReal (m x)) (x : SymbolId) : nilStep rules m x = m x := by
  have hSum := nilStep_ofReal hNonneg hm x
  simp only [← hWeight] at hSum
  rw [← emptyWeight_eq_nilStep al hNonneg, hWeight] at hSum
  exact ((ENNReal.ofReal_eq_ofReal_iff (hm x) hSum.1).1 hSum.2).symm

end Solution

/-! ## What the fit reports -/

section Fit

variable {options : Options ℝ} {rules : List (Rule ℝ)} (al : Alphabet)
  (hShort : ∀ r ∈ rules, r.rhs.length ≤ 2)
  (hEmpty : ∀ r ∈ rules, emptyId ∉ r.rhs)
  (hNonneg : ∀ r ∈ rules, 0 ≤ r.probability)
  (hResidual : (Erasure.fit options rules).residual = 0)
  (hFitted : ∀ x ∈ erasables rules,
    0 ≤ (Erasure.fit options rules).probability x)

theorem probability_fit_of_notMem {x : SymbolId} (hx : x ∉ erasables rules) :
    (Erasure.fit options rules).probability x = 0 := by
  rw [Erasure.probability, probability?_fit_eq_none_iff.2 hx, Option.getD_none]

include hFitted in
theorem probability_fit_nonneg (x : SymbolId) :
    0 ≤ (Erasure.fit options rules).probability x := by
  by_cases hx : x ∈ erasables rules
  · exact hFitted x hx
  · rw [probability_fit_of_notMem hx]

include hNonneg hFitted in
theorem withShortened_fit_nonneg :
    ∀ r ∈ withShortened (.fit options rules) rules, 0 ≤ r.probability := by
  refine good_of_mem_withShortened hNonneg fun {x p} hKnown r hr => ?_
  have hp := hFitted x (mem_erasables_of_eq_some hKnown)
  rw [Erasure.probability, hKnown, Option.getD_some] at hp
  exact mul_nonneg (hNonneg r hr) hp

include hShort hNonneg hResidual hFitted

/-- A fit without a residual is a solution for all symbols. -/
theorem nilStep_probability_fit (x : SymbolId) :
    nilStep rules (Erasure.fit options rules).probability x =
      (Erasure.fit options rules).probability x := by
  by_cases hx : x ∈ erasables rules
  · exact (residual_fit_eq_zero_iff hShort).1 hResidual x hx
  · have hSum := nilStep_ofReal hNonneg (probability_fit_nonneg hFitted) x
    have hNone : nilStep (valued ENNReal.ofReal rules) (fun y =>
        ENNReal.ofReal ((Erasure.fit options rules).probability y)) x = 0 := by
      refine nilStep_eq_zero (fun y hy => ?_) hx
      rw [probability_fit_of_notMem hy, ENNReal.ofReal_zero]
    rw [hNone] at hSum
    rw [probability_fit_of_notMem hx]
    exact le_antisymm (ENNReal.ofReal_eq_zero.1 hSum.2.symm) hSum.1

include hEmpty in
/-- What is reported is not below the weights of the empty word. -/
theorem emptyWeight_le_probability (x : SymbolId) :
    (⟨al, rules⟩ : Grammar ℝ).emptyWeight x ≤
      ENNReal.ofReal ((Erasure.fit options rules).probability x) :=
  emptyWeight_le_of_nilStep al hNonneg (probability_fit_nonneg hFitted) hEmpty
    (nilStep_probability_fit hShort hNonneg hResidual hFitted) x

/-- If the chains of the shortened rules have finite sums, there is no other
solution below what is reported. -/
theorem probability_le_of_solution
    (hFinite : FiniteChains (.fit options rules)
      (withShortened (.fit options rules) rules))
    {m : SymbolId → ℝ} (hm : ∀ x, 0 ≤ m x)
    (hLe : ∀ x, m x ≤ (Erasure.fit options rules).probability x)
    (hStep : ∀ x, nilStep rules m x = m x) (x : SymbolId) :
    (Erasure.fit options rules).probability x ≤ m x := by
  have hReported := probability_fit_nonneg hFitted
  have hShortened := withShortened_fit_nonneg hNonneg hFitted
  have hSolves := nilStep_probability_fit hShort hNonneg hResidual hFitted
  rw [FiniteChains, symbols_fit] at hFinite
  generalize hFit : Erasure.fit options rules = e at *
  let s := (erasables rules).toFinset.filter fun y => 0 < e.probability y
  have hOther : ∀ y, y ∉ s → e.probability y - m y = 0 := by
    intro y hy
    have hZero : e.probability y = 0 := by
      by_cases hMem : y ∈ erasables rules
      · have hNot : ¬ 0 < e.probability y := fun hPos =>
          hy (Finset.mem_filter.2 ⟨List.mem_toFinset.2 hMem, hPos⟩)
        exact le_antisymm (not_lt.1 hNot) (hReported y)
      · rw [← hFit, probability_fit_of_notMem hMem]
    have hBelow := hLe y
    have hAbove := hm y
    linarith
  have hd : ∀ y, e.probability y - m y ≤
      unitStep (withShortened e rules) (fun t => e.probability t - m t) y := by
    intro y
    have hBend := bend_nonneg (x := y) hNonneg fun t => sub_nonneg.2 (hLe t)
    have hEqual := nilStep_add_bend (e := e) (m := m) (x := y) hShort
    rw [hSolves y, hStep y] at hEqual
    linarith
  by_cases hx : x ∈ erasables rules
  · refine sub_nonpos.1 (nonpos_of_le_unitStep hShortened hOther hd
      fun y hy => ?_)
    obtain ⟨hMem, hPos⟩ := Finset.mem_filter.1 hy
    exact hFinite x hx y (List.mem_toFinset.1 hMem) hPos
  · rw [← hFit, probability_fit_of_notMem hx]
    exact hm x

include hEmpty in
/-- If the chains of the shortened rules have finite sums, the weights of the
empty word are reported. -/
theorem emptyWeight_eq_probability
    (hFinite : FiniteChains (.fit options rules)
      (withShortened (.fit options rules) rules))
    (x : SymbolId) :
    (⟨al, rules⟩ : Grammar ℝ).emptyWeight x =
      ENNReal.ofReal ((Erasure.fit options rules).probability x) := by
  have hLe := emptyWeight_le_probability al hShort hEmpty hNonneg hResidual
    hFitted
  let m : SymbolId → ℝ := fun y =>
    ((⟨al, rules⟩ : Grammar ℝ).emptyWeight y).toReal
  have hWeight : ∀ y, (⟨al, rules⟩ : Grammar ℝ).emptyWeight y =
      ENNReal.ofReal (m y) := fun y =>
    (ENNReal.ofReal_toReal ((hLe y).trans_lt ENNReal.ofReal_lt_top).ne).symm
  have hm : ∀ y, 0 ≤ m y := fun _ => ENNReal.toReal_nonneg
  have hBelow : ∀ y, m y ≤ (Erasure.fit options rules).probability y := by
    intro y
    have hBoth := hLe y
    rwa [hWeight, ENNReal.ofReal_le_ofReal_iff
      (probability_fit_nonneg hFitted y)] at hBoth
  have hStep := nilStep_of_emptyWeight al hNonneg hm hWeight
  refine le_antisymm (hLe x) ?_
  rw [hWeight]
  exact ENNReal.ofReal_le_ofReal (probability_le_of_solution hShort hNonneg
    hResidual hFitted hFinite hm hBelow hStep x)

omit hResidual in
include hEmpty in
/-- If the weights of the empty word are reported, and the system of the unit
rules had a solution, the chains have finite sums. -/
theorem finiteChains_of_emptyWeight (hal : al.WellFormed)
    (hPlain : Plain al (withShortened (.fit options rules) rules))
    (hHeads : ∀ r ∈ rules, r.lhs ∈ al.ids .nonterminal)
    (hExact : IsExact options.solveUnits) {chains : Chains ℝ}
    (hSolve : Chains.solve options al
      (withShortened (.fit options rules) rules) = .ok chains)
    (hWeight : ∀ x, (⟨al, rules⟩ : Grammar ℝ).emptyWeight x =
      ENNReal.ofReal ((Erasure.fit options rules).probability x)) :
    FiniteChains (.fit options rules)
      (withShortened (.fit options rules) rules) := by
  have hReported := probability_fit_nonneg hFitted
  have hShortened := withShortened_fit_nonneg hNonneg hFitted
  have hOther : ∀ x, x ∉ (al.ids .nonterminal).toFinset →
      (Erasure.fit options rules).probability x = 0 := by
    intro x hx
    refine probability_fit_of_notMem fun hMem => hx (List.mem_toFinset.2 ?_)
    exact erasables_induction (fun r hr _ => hHeads r hr) x hMem
  have hLeast : ∀ m : SymbolId → ℝ, (∀ x, 0 ≤ m x) →
      (∀ x, nilStep rules m x = m x) →
        ∀ x, (Erasure.fit options rules).probability x ≤ m x := by
    intro m hm hStep x
    have hLe := emptyWeight_le_of_nilStep al hNonneg hm hEmpty hStep x
    rwa [hWeight, ENNReal.ofReal_le_ofReal_iff (hm x)] at hLe
  have hDwindles := dwindles_of_least hNonneg hShort hReported
    (nilStep_of_emptyWeight al hNonneg hReported hWeight) hOther hLeast
  obtain ⟨K, hK, hBound⟩ := exists_sum_abs_le hal hPlain hExact hSolve
  intro x _ y hy hPos
  rw [symbols_fit] at hy
  have hMem : y ∈ (al.ids .nonterminal).toFinset := by
    by_contra hNot
    rw [hOther y hNot] at hPos
    exact lt_irrefl 0 hPos
  -- the chains to one symbol are among those to all
  have hAll := hDwindles.summable hShortened hK hBound x
  refine (summable_mul_right_iff hPos.ne').1 (Summable.of_nonneg_of_le
    (fun n => mul_nonneg (chainWeight_nonneg hShortened n y x) hPos.le)
    (fun n => ?_) hAll)
  refine (Finset.single_le_sum (f := fun y => chainWeight
    (withShortened (.fit options rules) rules) n x y *
      (Erasure.fit options rules).probability y) (fun z _ => mul_nonneg
      (chainWeight_nonneg hShortened n z x) (hReported z)) hMem).trans_eq ?_
  simp only [chainValue, nilApproach, sub_zero]

end Fit

/-! ## Right fits -/

section Stage

variable {options : Options ℝ} {s : Stage ℝ}
  (hHead : ∀ r ∈ s.rules, r.lhs ≠ emptyId)
  (hEmpty : ∀ r ∈ s.rules, emptyId ∉ r.rhs)
  (hNonneg : ∀ r ∈ s.rules, 0 ≤ r.probability)

include hHead hEmpty

theorem weight_nil_of_mem_erasables {x : SymbolId}
    (hx : x ∈ erasables s.rules) :
    (⟨s.alphabet, s.rules⟩ : Grammar ℝ).weight x [] =
      (⟨s.alphabet, s.rules⟩ : Grammar ℝ).emptyWeight x :=
  Grammar.weight_nil hEmpty (erasables_induction
    (p := fun y => y ≠ emptyId) (fun r hr _ => hHead r hr) x hx)

include hNonneg

/-- The fitted probabilities are right if they are nonnegative and the weights of
the empty word, and only then. -/
theorem isFitted_iff_emptyWeight : IsFitted options s ↔
    (∀ x ∈ erasables s.rules,
      0 ≤ (Erasure.fit options s.rules).probability x) ∧
    ∀ x, (⟨s.alphabet, s.rules⟩ : Grammar ℝ).emptyWeight x =
      ENNReal.ofReal ((Erasure.fit options s.rules).probability x) := by
  have hKnown : ∀ {x p},
      (Erasure.fit options s.rules).probability? x = some p →
        (Erasure.fit options s.rules).probability x = p := by
    intro x p h
    rw [Erasure.probability, h, Option.getD_some]
  constructor
  · intro hFitted
    have hEach : ∀ x ∈ erasables s.rules,
        0 ≤ (Erasure.fit options s.rules).probability x ∧
          (⟨s.alphabet, s.rules⟩ : Grammar ℝ).emptyWeight x =
            ENNReal.ofReal
              ((Erasure.fit options s.rules).probability x) := by
      intro x hx
      obtain ⟨p, hp⟩ :
          ∃ p, (Erasure.fit options s.rules).probability? x = some p :=
        Option.ne_none_iff_exists'.1
          fun hNone => probability?_fit_eq_none_iff.1 hNone hx
      rw [hKnown hp, ← weight_nil_of_mem_erasables hHead hEmpty hx]
      exact (Grammar.hasProbability_iff_weight hNonneg).1 (hFitted x p hp)
    refine ⟨fun x hx => (hEach x hx).1, fun x => ?_⟩
    by_cases hx : x ∈ erasables s.rules
    · exact (hEach x hx).2
    · rw [probability_fit_of_notMem hx, ENNReal.ofReal_zero,
        Grammar.emptyWeight_eq_total s.alphabet hNonneg,
        total_nil_eq_zero hEmpty hx]
  · rintro ⟨hReported, hWeight⟩ x p hp
    have hx := mem_erasables_of_eq_some hp
    rw [Grammar.hasProbability_iff_weight hNonneg,
      weight_nil_of_mem_erasables hHead hEmpty hx, hWeight, ← hKnown hp]
    exact ⟨hReported x hx, rfl⟩

/-- If the chains of the shortened rules have finite sums, a fit without a
residual is right. -/
theorem isFitted_of_finiteChains (hShort : ∀ r ∈ s.rules, r.rhs.length ≤ 2)
    (hResidual : (Erasure.fit options s.rules).residual = 0)
    (hFitted : ∀ x ∈ erasables s.rules,
      0 ≤ (Erasure.fit options s.rules).probability x)
    (hFinite : FiniteChains (.fit options s.rules)
      (withShortened (.fit options s.rules) s.rules)) :
    IsFitted options s :=
  (isFitted_iff_emptyWeight hHead hEmpty hNonneg).2
    ⟨hFitted, emptyWeight_eq_probability s.alphabet hShort hEmpty hNonneg
      hResidual hFitted hFinite⟩

end Stage

/-- If the fit of a conversion solves the equations of erasure, what it reports is
right exactly if it is nonnegative and the chains of unit rules between erasable
symbols have finite sums.  Nonnegative numbers are never below the weights of the
empty word. -/
theorem isFitted_iff_of_result {options : Options ℝ} {g c : Grammar ℝ}
    (hg : g.WellFormed) (hNonneg : ∀ r ∈ g.rules, 0 ≤ r.probability)
    (hExact : IsExact options.solveUnits)
    (hResult : result options g = .ok c)
    (hResidual : (erasure options g).residual = 0) :
    ∃ s e, split g = .ok s ∧ emptied options g = .ok e ∧
      (IsFitted options s ↔
        (∀ x ∈ (erasure options g).symbols,
          0 ≤ (erasure options g).probability x) ∧
        FiniteChains (erasure options g) e.rules) ∧
      ((∀ x ∈ (erasure options g).symbols,
          0 ≤ (erasure options g).probability x) →
        ∀ x ∈ (erasure options g).symbols,
          (⟨s.alphabet, s.rules⟩ : Grammar ℝ).weight x [] ≤
            ENNReal.ofReal ((erasure options g).probability x)) := by
  obtain ⟨s, chains, h⟩ := exists_converted hResult
  have hPrepared := h.prepared hg
  have hSplit : ∀ r ∈ s.rules, 0 ≤ r.probability :=
    good_of_mem_split hg h.split zero_le_one hNonneg
  have hHead := hPrepared.plain.lhs_ne_emptyId hPrepared.wellFormed
  have hErasure : erasure options g = .fit options s.rules := by
    rw [erasure, h.split]
  rw [hErasure] at hResidual ⊢
  refine ⟨s, _, h.split, h.emptied, ?_, fun hReported x hx => ?_⟩
  · rw [symbols_fit]
    constructor
    · intro hRight
      obtain ⟨hReported, hWeight⟩ := (isFitted_iff_emptyWeight hHead
        hPrepared.plain.noEmpty hSplit).1 hRight
      exact ⟨hReported, finiteChains_of_emptyWeight s.alphabet hPrepared.length
        hPrepared.plain.noEmpty hSplit hReported hPrepared.wellFormed
        (h.tidy hg).toPlain
        (closed_of_plain hPrepared.wellFormed hPrepared.plain).lhs hExact
        h.solve hWeight⟩
    · rintro ⟨hReported, hFinite⟩
      exact isFitted_of_finiteChains hHead hPrepared.plain.noEmpty hSplit
        hPrepared.length hResidual hReported hFinite
  · rw [symbols_fit] at hReported hx
    rw [weight_nil_of_mem_erasables hHead hPrepared.plain.noEmpty hx]
    exact emptyWeight_le_probability s.alphabet hPrepared.length
      hPrepared.plain.noEmpty hSplit hResidual hReported x

/-! ## A fit that ends where it starts -/

/-- The fit does not move if there is nothing left of the equations. -/
theorem solve_eq_start {n : Nat} (solver : StepSolver ℝ)
    {limits : FitLimits ℝ} {s : ErasureSystem ℝ n}
    (hTolerance : 0 ≤ limits.tolerance)
    (hZero : ∀ i, (s.residual (fitStart n)).entry i = 0) :
    Fit.solve solver limits s = Fit.start s := by
  have hSmall : largestMagnitude (Fit.start s).r ≤ limits.tolerance :=
    (largestMagnitude_eq_zero_iff.2 hZero).trans_le hTolerance
  rw [Fit.solve]
  cases limits.maxIterations.toNat with
  | zero => rfl
  | succ left =>
      rw [iterate, if_pos hSmall, ite_self]

/-- If one half solves the equations for all erasable symbols, one half is
reported for all of them. -/
theorem fit_eq_half {options : Options ℝ} (rules : List (Rule ℝ))
    (hShort : ∀ r ∈ rules, r.rhs.length ≤ 2)
    (hTolerance : 0 ≤ options.limits.tolerance)
    (hHalf : ∀ x ∈ erasables rules, nilStep rules
      (fun t => if t ∈ erasables rules then 1 / 2 else 0) x = 1 / 2) :
    (Erasure.fit options rules).residual = 0 ∧
      ∀ x ∈ erasables rules,
        (Erasure.fit options rules).probability x = 1 / 2 := by
  have hNodup := nodup_erasables rules
  have hStart : ∀ i, (fitStart (α := ℝ) (erasables rules).length).entry i =
      1 / 2 := by
    intro i
    rw [fitStart, Vec.entry_ofFn]
    norm_num
  have hValue : (fun t => (((erasables rules).zip
      (fitStart (α := ℝ) (erasables rules).length).toList).lookup t).getD 0) =
        fun t => if t ∈ erasables rules then 1 / 2 else 0 := by
    funext t
    by_cases ht : t ∈ erasables rules
    · obtain ⟨i, rfl⟩ := List.get_of_mem ht
      rw [if_pos ht, ← hStart i, List.get_eq_getElem,
        lookup_zip_getElem hNodup i.isLt (by simp), Option.getD_some]
      exact Vector.getElem_toList _
    · rw [if_neg ht, (lookup_zip_eq_none_iff (by simp)).2 ht, Option.getD_none]
  have hSolve := solve_eq_start options.solveStep hTolerance
    (s := erasureSystem rules (erasables rules)) fun i => by
      rw [residual_erasureSystem hNodup hShort, hValue, hStart,
        hHalf _ (List.get_mem _ i), sub_self]
  have hReported : ∀ x ∈ erasables rules,
      (Erasure.fit options rules).probability x = 1 / 2 := by
    intro x hx
    obtain ⟨i, rfl⟩ := List.get_of_mem hx
    rw [← entry_fit, hSolve]
    exact hStart i
  refine ⟨(residual_fit_eq_zero_iff hShort).2 fun x hx => ?_, hReported⟩
  have hSame : (Erasure.fit options rules).probability =
      fun t => if t ∈ erasables rules then 1 / 2 else 0 := by
    funext t
    by_cases ht : t ∈ erasables rules
    · rw [if_pos ht, hReported t ht]
    · rw [if_neg ht, probability_fit_of_notMem ht]
  rw [hSame, hHalf x hx]
  exact (if_pos hx).symm

/-! ## A group of letters before a letter -/

/-- A letter after a group of letters, which has parts in all ways and may be
left out: `S -> A a`, `A -> A A`, `A -> a` and `A -> e`. -/
def groups (p q r : ℝ) : Grammar ℝ where
  alphabet := Grammar.twoSymbols
  rules := [⟨startId, [3, 2], 1⟩, ⟨3, [3, 3], p⟩, ⟨3, [2], q⟩,
    ⟨3, [emptyId], r⟩]

/-- The rules of the second stage. -/
def groupRules (p q r : ℝ) : List (Rule ℝ) :=
  [⟨startId, [3, 2], 1⟩, ⟨3, [3, 3], p⟩, ⟨3, [2], q⟩, ⟨3, [], r⟩]

/-- The rules of the third stage, if `x` is reported for the group. -/
def shortGroupRules (p q x : ℝ) : List (Rule ℝ) :=
  [⟨startId, [3, 2], 1⟩, ⟨3, [3, 3], p⟩, ⟨3, [2], q⟩,
    ⟨startId, [2], 1 * x⟩, ⟨3, [3], p * x⟩, ⟨3, [3], p * x⟩]

theorem wellFormed_groups (p q r : ℝ) : (groups p q r).WellFormed := by
  refine ⟨Grammar.wellFormed_twoSymbols, fun s hs => ?_⟩
  simp only [groups, List.mem_cons, List.not_mem_nil, or_false] at hs
  rcases hs with rfl | rfl | rfl | rfl <;> rfl

theorem split_groups (p q r : ℝ) :
    split (groups p q r) = .ok ⟨Grammar.twoSymbols, groupRules p q r⟩ := rfl

theorem erasables_groupRules (p q r : ℝ) :
    erasables (groupRules p q r) = [3] := by
  simp [erasables, eraseRounds, eraseRound, eraseStep, erasesNow, groupRules,
    startId]

section Groups

variable {options : Options ℝ} {p q r : ℝ}
  (hTolerance : 0 ≤ options.limits.tolerance) (hHalf : p / 4 + r = 1 / 2)

include hTolerance hHalf

/-- One half solves the equation of the group. -/
theorem fit_groupRules :
    (Erasure.fit options (groupRules p q r)).residual = 0 ∧
      (Erasure.fit options (groupRules p q r)).probability 3 = 1 / 2 := by
  have hFit := fit_eq_half (groupRules p q r) (by simp [groupRules])
    hTolerance
  rw [erasables_groupRules] at hFit
  obtain ⟨hResidual, hReported⟩ := hFit fun x hx => by
    rw [List.mem_singleton.1 hx]
    simp [nilStep, nilTerm, groupRules, startId]
    linarith
  exact ⟨hResidual, hReported 3 (by simp)⟩

theorem probability?_fit_groupRules (x : SymbolId) :
    (Erasure.fit options (groupRules p q r)).probability? x =
      if x = 3 then some (1 / 2) else none := by
  by_cases hx : x = 3
  · rw [if_pos hx, hx]
    have hReported := (fit_groupRules (q := q) hTolerance hHalf).2
    rw [Erasure.probability] at hReported
    cases hKnown : (Erasure.fit options (groupRules p q r)).probability? 3 with
    | some y =>
        rw [hKnown] at hReported
        exact congrArg some hReported
    | none =>
        rw [probability?_fit_eq_none_iff, erasables_groupRules] at hKnown
        simp at hKnown
  · rw [if_neg hx, probability?_fit_eq_none_iff, erasables_groupRules,
      List.mem_singleton]
    exact hx

theorem withShortened_groupRules :
    withShortened (.fit options (groupRules p q r)) (groupRules p q r) =
      shortGroupRules p q (1 / 2) := by
  have hKnown := probability?_fit_groupRules (q := q) hTolerance hHalf
  generalize Erasure.fit options (groupRules p q r) = e at hKnown ⊢
  simp [withShortened, groupRules, shortened, hKnown, shortGroupRules]

theorem emptied_groups (hStrict : options.strict = false) :
    emptied options (groups p q r) =
      .ok ⟨Grammar.twoSymbols, shortGroupRules p q (1 / 2), 0⟩ := by
  have hNone := probability?_fit_groupRules (q := q) hTolerance hHalf startId
  have hStart :
      (Erasure.fit options (groupRules p q r)).probability startId = 0 := by
    rw [Erasure.probability, hNone]
    rfl
  show removeEmpty options ⟨Grammar.twoSymbols, groupRules p q r⟩ = _
  simp only [removeEmpty, hStrict, Bool.false_and, hStart,
    withShortened_groupRules hTolerance hHalf]
  rfl

end Groups

theorem exists_chains_groups {p : ℝ} (q : ℝ) (hp : p ≠ 1) : ∃ chains,
    Chains.solve testedOptions Grammar.twoSymbols
      (shortGroupRules p q (1 / 2)) = .ok chains := by
  refine exists_chains_tested (isUnit_pair ?_)
  simp [unitTotal, shortGroupRules, startId]
  ring_nf
  exact sub_ne_zero.2 hp.symm

theorem exists_result_groups {p q r : ℝ} (hHalf : p / 4 + r = 1 / 2)
    (hp : p ≠ 1) : ∃ c, result testedOptions (groups p q r) = .ok c := by
  obtain ⟨chains, hSolve⟩ := exists_chains_groups q hp
  exact exists_result (wellFormed_groups p q r)
    (emptied_groups le_rfl hHalf rfl) hSolve

theorem summable_chainWeight_groups (x y : SymbolId) :
    Summable fun n =>
      chainWeight (shortGroupRules (1 / 2) (1 / 8) (1 / 2)) n x y := by
  refine summable_chainWeight ?_ (q := 5 / 8) (fun x => ?_) (by norm_num) x y
  · simp [shortGroupRules]
  · simp only [unitStep, unitTerm, shortGroupRules, List.map_cons,
      List.map_nil, List.sum_cons, List.sum_nil]
    by_cases hStart : startId = x
    · rw [← hStart]
      norm_num [startId]
    · by_cases hGroup : 3 = x
      · norm_num [← hGroup, startId]
      · norm_num [hStart, hGroup]

theorem groups_nonneg {p q r : ℝ} (hp : 0 ≤ p) (hq : 0 ≤ q) (hr : 0 ≤ r) :
    ∀ s ∈ (groups p q r).rules, 0 ≤ s.probability := by
  simp [groups, hp, hq, hr]

/-- One half is reported for the group, and the fit is good enough. -/
theorem erasure_groups {p q r : ℝ} (hHalf : p / 4 + r = 1 / 2) :
    (erasure testedOptions (groups p q r)).symbols = [3] ∧
      (erasure testedOptions (groups p q r)).probability 3 = 1 / 2 ∧
        (erasure testedOptions (groups p q r)).residual = 0 ∧
          (erasure testedOptions (groups p q r)).converged = true := by
  have hErasure : erasure testedOptions (groups p q r) =
      .fit testedOptions (groupRules p q r) := rfl
  have hShort : ∀ s ∈ groupRules p q r, s.rhs.length ≤ 2 := by
    simp [groupRules]
  have hTolerance : 0 ≤ testedOptions.limits.tolerance := le_rfl
  obtain ⟨hResidual, hReported⟩ := fit_groupRules (q := q) hTolerance hHalf
  rw [hErasure, symbols_fit]
  refine ⟨erasables_groupRules p q r, hReported, hResidual, converged_fit hShort
    le_rfl ((residual_fit_eq_zero_iff hShort).1 hResidual) fun x hx => ?_⟩
  rw [erasables_groupRules, List.mem_singleton] at hx
  rw [hx, hReported]
  norm_num

/-- Where the group is a single letter with probability `1 / 8`, it is left out
with the probability that is reported. -/
theorem isFitted_iff_of_result_groups : ∃ s,
    split (groups (1 / 2) (1 / 8) (3 / 8)) = .ok s ∧
      IsFitted testedOptions s := by
  have hHalf : (1 / 2 : ℝ) / 4 + 3 / 8 = 1 / 2 := by norm_num
  obtain ⟨c, hResult⟩ := exists_result_groups (q := 1 / 8) hHalf (by norm_num)
  obtain ⟨hSymbols, hReported, hResidual, _⟩ :=
    erasure_groups (q := 1 / 8) hHalf
  obtain ⟨s, e, hSplit, hEmptied, hIff, _⟩ := isFitted_iff_of_result
    (wellFormed_groups _ _ _) (groups_nonneg (by norm_num) (by norm_num)
      (by norm_num)) isExact_solveByInverse hResult hResidual
  refine ⟨s, hSplit, hIff.2 ⟨fun x hx => ?_, fun x _ y _ _ => ?_⟩⟩
  · rw [hSymbols, List.mem_singleton] at hx
    rw [hx, hReported]
    norm_num
  · cases (emptied_groups le_rfl hHalf rfl).symm.trans hEmptied
    exact summable_chainWeight_groups x y

/-! ## A wrong root -/

/-- The equation `x = 1 / 8 + 3 / 2 x ^ 2` of a group has the solutions `1 / 6`
and `1 / 2`.  The group is left out with a weight of at most `1 / 6`. -/
theorem weight_groupRules_le :
    (⟨Grammar.twoSymbols, groupRules (3 / 2) 1 (1 / 8)⟩ :
      Grammar ℝ).weight 3 [] ≤ ENNReal.ofReal (1 / 6) := by
  have hNonneg : ∀ r ∈ groupRules (3 / 2) 1 (1 / 8), 0 ≤ r.probability := by
    norm_num [groupRules]
  have hEmpty : ∀ r ∈ groupRules (3 / 2) 1 (1 / 8), emptyId ∉ r.rhs := by
    simp [groupRules, emptyId]
  let f : SymbolId → ℝ := fun t => if t = 3 then 1 / 6 else 0
  have hf : ∀ t, 0 ≤ f t := by
    intro t
    simp only [f]
    split <;> norm_num
  have hStep : ∀ t, nilStep (groupRules (3 / 2) 1 (1 / 8)) f t = f t := by
    intro t
    by_cases ht : 3 = t
    · rw [← ht]
      norm_num [nilStep, nilTerm, groupRules, f, startId]
    · simp [nilStep, nilTerm, groupRules, f, ht, Ne.symm ht]
  rw [Grammar.weight_nil hEmpty (by decide),
    Grammar.emptyWeight_eq_total _ hNonneg]
  refine (total_nil_le _ (f := fun t => ENNReal.ofReal (f t)) ?_ (fun t => ?_)
    3).trans_eq rfl
  · intro r hr
    obtain ⟨s, hs, rfl⟩ := List.mem_map.1 hr
    exact hEmpty s hs
  · rw [(nilStep_ofReal hNonneg hf t).2, hStep t]

/-- A conversion may succeed with a fit that has converged, has no residual and
reports `1 / 2` where the weight of the empty word is at most `1 / 6`. -/
theorem exists_false_root : ∃ g : Grammar ℝ, g.WellFormed ∧
    (∀ r ∈ g.rules, 0 ≤ r.probability) ∧
    IsExact testedOptions.solveUnits ∧
    (∃ c, result testedOptions g = .ok c) ∧
    (erasure testedOptions g).converged = true ∧
    (erasure testedOptions g).residual = 0 ∧
    ∃ s, split g = .ok s ∧
      ¬ ∀ x ∈ (erasure testedOptions g).symbols,
        (⟨s.alphabet, s.rules⟩ : Grammar ℝ).weight x [] =
          ENNReal.ofReal ((erasure testedOptions g).probability x) := by
  have hHalf : (3 / 2 : ℝ) / 4 + 1 / 8 = 1 / 2 := by norm_num
  obtain ⟨hSymbols, hReported, hResidual, hConverged⟩ :=
    erasure_groups (q := 1) hHalf
  refine ⟨groups (3 / 2) 1 (1 / 8), wellFormed_groups _ _ _,
    groups_nonneg (by norm_num) (by norm_num) (by norm_num),
    isExact_solveByInverse, exists_result_groups hHalf (by norm_num),
    hConverged, hResidual, _, split_groups _ _ _, fun hAll => ?_⟩
  have hMem : 3 ∈ (erasure testedOptions (groups (3 / 2) 1 (1 / 8))).symbols := by
    rw [hSymbols]
    exact List.mem_singleton_self _
  have hWeight := hAll 3 hMem
  rw [hReported] at hWeight
  have hLe := hWeight.symm.trans_le weight_groupRules_le
  rw [ENNReal.ofReal_le_ofReal_iff (by norm_num)] at hLe
  norm_num at hLe

end

end StochasticGrammar.NormalForm
