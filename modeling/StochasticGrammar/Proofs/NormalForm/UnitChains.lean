import Mathlib.Algebra.BigOperators.Fin
import Mathlib.Topology.Algebra.InfiniteSum.ENNReal
import StochasticGrammar.Proofs.NormalForm.UnitClosure
import StochasticGrammar.Proofs.Weight.Basic

/-!
# Weights of chains of unit rules

The chains of `n` unit rules from one symbol to another have a total weight,
and so have the chains of any number of them.  A weighting is spread over the
chains when every symbol gets what the symbols that it can be renamed to have,
each as often as the chains say.

Main results: the spread weighting solves the equations of the unit rules
(`spread_eq`), it is the least to do so (`spread_le`), and it is a sum over
what the search for renamings finds (`spread_eq_sum`).
-/

namespace StochasticGrammar.NormalForm

open Weighting
open scoped ENNReal

section Chains

variable {β : Type} [Semiring β]

/-- What a unit rule of a symbol makes of the values of symbols. -/
def unitTerm (f : SymbolId → β) (x : SymbolId) (r : Rule β) : β :=
  match r.rhs with
  | [t] => if r.lhs = x then r.probability * f t else 0
  | _ => 0

/-- What the unit rules of a symbol make of the values of symbols. -/
def unitStep (rules : List (Rule β)) (f : SymbolId → β) (x : SymbolId) : β :=
  (rules.map (unitTerm f x)).sum

theorem unitStep_cons (r : Rule β) (rules : List (Rule β))
    (f : SymbolId → β) (x : SymbolId) :
    unitStep (r :: rules) f x = unitTerm f x r + unitStep rules f x := by
  rw [unitStep, List.map_cons, List.sum_cons, unitStep]

theorem unitStep_congr {rules : List (Rule β)} {f f' : SymbolId → β}
    {x : SymbolId} (h : ∀ r ∈ rules, r.lhs = x → ∀ t, r.rhs = [t] →
      f t = f' t) : unitStep rules f x = unitStep rules f' x := by
  refine congrArg List.sum (List.map_congr_left fun r hr => ?_)
  unfold unitTerm
  split
  · rename_i t hRhs
    by_cases hLhs : r.lhs = x
    · rw [if_pos hLhs, if_pos hLhs, h r hr hLhs t hRhs]
    · rw [if_neg hLhs, if_neg hLhs]
  · rfl

theorem unitStep_eq_zero {rules : List (Rule β)} {x : SymbolId}
    (h : ∀ r ∈ rules, r.lhs ≠ x) (f : SymbolId → β) :
    unitStep rules f x = 0 := by
  refine List.sum_eq_zero fun y hy => ?_
  obtain ⟨r, hr, rfl⟩ := List.mem_map.1 hy
  unfold unitTerm
  split
  · exact if_neg (h r hr)
  · rfl

theorem unitStep_mul (rules : List (Rule β)) (f : SymbolId → β) (c : β)
    (x : SymbolId) :
    unitStep rules f x * c = unitStep rules (fun t => f t * c) x := by
  have hTerm : ∀ r : Rule β, unitTerm f x r * c =
      unitTerm (fun t => f t * c) x r := by
    intro r
    unfold unitTerm
    split
    · split
      · rw [mul_assoc]
      · rw [zero_mul]
    · rw [zero_mul]
  unfold unitStep
  rw [← List.sum_map_mul_right]
  simp only [hTerm]

theorem unitStep_zero (rules : List (Rule β)) (x : SymbolId) :
    unitStep rules (fun _ => 0) x = 0 := by
  simpa using (unitStep_mul rules (fun _ => 0) 0 x).symm

theorem unitStep_add (rules : List (Rule β)) (f g : SymbolId → β)
    (x : SymbolId) :
    unitStep rules (fun t => f t + g t) x =
      unitStep rules f x + unitStep rules g x := by
  have hTerm : ∀ r : Rule β, unitTerm (fun t => f t + g t) x r =
      unitTerm f x r + unitTerm g x r := by
    intro r
    unfold unitTerm
    split
    · split
      · rw [mul_add]
      · rw [add_zero]
    · rw [add_zero]
  unfold unitStep
  rw [← List.sum_map_add]
  exact congrArg List.sum (List.map_congr_left fun r _ => hTerm r)

theorem unitStep_sum {ι : Type} (rules : List (Rule β)) (s : Finset ι)
    (f : ι → SymbolId → β) (x : SymbolId) :
    unitStep rules (fun t => ∑ i ∈ s, f i t) x =
      ∑ i ∈ s, unitStep rules (f i) x := by
  classical
  induction s using Finset.induction with
  | empty =>
      simp only [Finset.sum_empty]
      refine List.sum_eq_zero fun y hy => ?_
      obtain ⟨r, _, rfl⟩ := List.mem_map.1 hy
      unfold unitTerm
      split
      · rw [mul_zero, ite_self]
      · rfl
  | insert i s hi ih =>
      simp only [Finset.sum_insert hi]
      rw [unitStep_add, ih]

/-- The total weight of the chains of `n` unit rules from one symbol to
another. -/
def chainWeight (rules : List (Rule β)) : Nat → SymbolId → SymbolId → β
  | 0, x, y => if x = y then 1 else 0
  | n + 1, x, y => unitStep rules (fun t => chainWeight rules n t y) x

/-- Chains come to an end if unit rules lead to lower ranks. -/
theorem chainWeight_eq_zero_of_lt {rules : List (Rule β)}
    {rank : SymbolId → Nat}
    (hRank : ∀ r ∈ rules, ∀ t, r.rhs = [t] → rank t < rank r.lhs)
    (y : SymbolId) (n : Nat) :
    ∀ x, rank x < n → chainWeight rules n x y = 0 := by
  induction n with
  | zero => exact fun x hx => absurd hx (Nat.not_lt_zero _)
  | succ n ih =>
      intro x hx
      refine (unitStep_congr fun r hr hLhs t hRhs => ?_).trans
        (unitStep_zero rules x)
      have hLower := hRank r hr t hRhs
      rw [hLhs] at hLower
      exact ih t (by omega)

end Chains

noncomputable section

variable {rules : List (Rule ℝ≥0∞)}

/-- The total weight of all chains of unit rules from one symbol to
another. -/
def renameWeight (rules : List (Rule ℝ≥0∞)) (x y : SymbolId) : ℝ≥0∞ :=
  tsum fun n => chainWeight rules n x y

/-- A weighting spread over the chains of unit rules. -/
def spread (rules : List (Rule ℝ≥0∞)) (b : Weighting) : Weighting :=
  fun x w => tsum fun y => renameWeight rules x y * b y w

/-! ## One step -/

theorem unitStep_mono {f f' : SymbolId → ℝ≥0∞} (h : f ≤ f') :
    unitStep rules f ≤ unitStep rules f' := by
  intro x
  refine List.sum_le_sum fun r _ => ?_
  unfold unitTerm
  split
  · split
    · exact mul_le_mul' (le_refl _) (h _)
    · exact le_refl _
  · exact le_refl _

theorem tsum_unitTerm {ι : Type} (f : ι → SymbolId → ℝ≥0∞) (x : SymbolId)
    (r : Rule ℝ≥0∞) : (tsum fun i => unitTerm (f i) x r) =
      unitTerm (fun t => tsum fun i => f i t) x r := by
  unfold unitTerm
  split
  · split
    · rw [ENNReal.tsum_mul_left]
    · exact tsum_zero
  · exact tsum_zero

/-- A step is taken term by term. -/
theorem tsum_unitStep {ι : Type} (f : ι → SymbolId → ℝ≥0∞) (x : SymbolId) :
    (tsum fun i => unitStep rules (f i) x) =
      unitStep rules (fun t => tsum fun i => f i t) x := by
  unfold unitStep
  induction rules with
  | nil => simp
  | cons r rules ih =>
      simp only [List.map_cons, List.sum_cons]
      rw [ENNReal.tsum_add, ih, tsum_unitTerm]

theorem mul_le_unitStep {r : Rule ℝ≥0∞} (hr : r ∈ rules) {t : SymbolId}
    (hRhs : r.rhs = [t]) (f : SymbolId → ℝ≥0∞) :
    r.probability * f t ≤ unitStep rules f r.lhs := by
  have hTerm : unitTerm f r.lhs r = r.probability * f t := by
    simp [unitTerm, hRhs]
  rw [← hTerm]
  exact List.single_le_sum (fun _ _ => zero_le) _ (List.mem_map_of_mem hr)

/-! ## All chains -/

/-- A chain is empty, or it begins with a unit rule. -/
theorem renameWeight_eq (x y : SymbolId) :
    renameWeight rules x y =
      (if x = y then 1 else 0) +
        unitStep rules (fun t => renameWeight rules t y) x := by
  rw [renameWeight, tsum_eq_zero_add' ENNReal.summable]
  simp only [chainWeight]
  rw [tsum_unitStep]
  rfl

/-- A chain may be extended at its end. -/
theorem chainWeight_mul_le {r : Rule ℝ≥0∞} (hr : r ∈ rules) {t : SymbolId}
    (hRhs : r.rhs = [t]) (n : Nat) :
    ∀ x, chainWeight rules n x r.lhs * r.probability ≤
      chainWeight rules (n + 1) x t := by
  induction n with
  | zero =>
      intro x
      by_cases hx : x = r.lhs
      · have hStep := mul_le_unitStep hr hRhs fun u => chainWeight rules 0 u t
        rw [show chainWeight rules 0 t t = 1 from if_pos rfl, mul_one]
          at hStep
        rw [hx, show chainWeight rules 0 r.lhs r.lhs = 1 from if_pos rfl,
          one_mul]
        exact hStep
      · rw [show chainWeight rules 0 x r.lhs = 0 from if_neg hx, zero_mul]
        exact zero_le
  | succ n ih =>
      intro x
      show unitStep rules (fun u => chainWeight rules n u r.lhs) x *
        r.probability ≤
          unitStep rules (fun u => chainWeight rules (n + 1) u t) x
      rw [unitStep_mul]
      exact unitStep_mono ih x

theorem renameWeight_mul_le {r : Rule ℝ≥0∞} (hr : r ∈ rules) {t : SymbolId}
    (hRhs : r.rhs = [t]) (x : SymbolId) :
    renameWeight rules x r.lhs * r.probability ≤ renameWeight rules x t := by
  rw [renameWeight, ← ENNReal.tsum_mul_right]
  calc (tsum fun n => chainWeight rules n x r.lhs * r.probability)
      ≤ tsum fun n => chainWeight rules (n + 1) x t :=
        ENNReal.tsum_le_tsum fun n => chainWeight_mul_le hr hRhs n x
    _ ≤ renameWeight rules x t :=
        ENNReal.tsum_comp_le_tsum_of_injective (add_left_injective 1) _

/-- What the chains of `n` unit rules lead to. -/
def chainSum (rules : List (Rule ℝ≥0∞)) (b : SymbolId → ℝ≥0∞) (n : Nat)
    (x : SymbolId) : ℝ≥0∞ :=
  tsum fun y => chainWeight rules n x y * b y

theorem chainSum_zero (b : SymbolId → ℝ≥0∞) (x : SymbolId) :
    chainSum rules b 0 x = b x := by
  rw [chainSum, tsum_eq_single x]
  · simp [chainWeight]
  · intro y hNe
    simp [chainWeight, hNe.symm]

theorem chainSum_succ (b : SymbolId → ℝ≥0∞) (n : Nat) (x : SymbolId) :
    chainSum rules b (n + 1) x = unitStep rules (chainSum rules b n) x := by
  unfold chainSum
  simp only [chainWeight, unitStep_mul]
  rw [tsum_unitStep]

theorem spread_eq_tsum (b : Weighting) (x : SymbolId) (w : List SymbolId) :
    spread rules b x w = tsum fun n => chainSum rules (b · w) n x := by
  unfold spread renameWeight chainSum
  simp only [← ENNReal.tsum_mul_right]
  rw [ENNReal.tsum_comm]

/-- The spread weighting solves the equations of the unit rules. -/
theorem spread_eq (b : Weighting) (x : SymbolId) (w : List SymbolId) :
    spread rules b x w =
      b x w + unitStep rules (fun t => spread rules b t w) x := by
  rw [spread_eq_tsum, tsum_eq_zero_add' ENNReal.summable]
  simp only [chainSum_zero, chainSum_succ, spread_eq_tsum]
  rw [tsum_unitStep]

/-- The spread weighting is below everything else that solves them. -/
theorem spread_le {b v : Weighting}
    (h : ∀ x w, b x w + unitStep rules (fun t => v t w) x ≤ v x w) :
    spread rules b ≤ v := by
  intro x w
  have hPartial : ∀ n x, ∑ i ∈ Finset.range n,
      chainSum rules (b · w) i x ≤ v x w := by
    intro n
    induction n with
    | zero =>
        intro x
        simp
    | succ n ih =>
        intro x
        rw [Finset.sum_range_succ', add_comm, chainSum_zero]
        refine le_trans (add_le_add (le_refl _) ?_) (h x w)
        have hStep : ∑ i ∈ Finset.range n, chainSum rules (b · w) (i + 1) x =
            unitStep rules (fun t => ∑ i ∈ Finset.range n,
              chainSum rules (b · w) i t) x := by
          have hFinite : ∀ f : Fin n → ℝ≥0∞, ∑ i, f i = tsum f :=
            fun f => (tsum_fintype f).symm
          simp only [Finset.sum_range, hFinite, chainSum_succ]
          exact tsum_unitStep _ x
        rw [hStep]
        exact unitStep_mono ih x
  rw [spread_eq_tsum]
  exact ENNReal.tsum_le_of_sum_range_le fun n => hPartial n x

/-! ## The symbols of chains -/

section Closure

variable {α : Type} {φ : α → ℝ≥0∞} {rs : List (Rule α)}

/-- Chains lead to what the search for renamings finds. -/
theorem chainWeight_eq_zero {n : Nat} :
    ∀ {x y : SymbolId}, y ∉ unitClosure (renamings rs) x →
      chainWeight (valued φ rs) n x y = 0 := by
  induction n with
  | zero =>
      intro x y hy
      refine if_neg fun h => hy ?_
      rw [← h]
      exact self_mem_unitClosure _ x
  | succ n ih =>
      intro x y hy
      refine List.sum_eq_zero fun z hz => ?_
      obtain ⟨r, hr, rfl⟩ := List.mem_map.1 hz
      obtain ⟨s, hs, rfl⟩ := List.mem_map.1 hr
      unfold unitTerm
      split
      · rename_i t hRhs
        split
        · rename_i hLhs
          have hEdge : (x, t) ∈ renamings rs :=
            mem_renamings.2 ⟨s, hs, hLhs, hRhs⟩
          have ht := mem_unitClosure_of_edge hEdge
            (self_mem_unitClosure (renamings rs) x)
          exact mul_eq_zero_of_right _
            (ih fun h => hy (unitClosure_subset ht h))
        · rfl
      · rfl

theorem renameWeight_eq_zero {x y : SymbolId}
    (hy : y ∉ unitClosure (renamings rs) x) :
    renameWeight (valued φ rs) x y = 0 := by
  rw [renameWeight]
  simp only [chainWeight_eq_zero hy, tsum_zero]

/-- If no rule is without weight, there is weight on the chains to what the
search for renamings finds. -/
theorem renameWeight_ne_zero (hWeight : ∀ r ∈ rs, φ r.probability ≠ 0)
    (x : SymbolId) : ∀ y ∈ unitClosure (renamings rs) x,
      renameWeight (valued φ rs) x y ≠ 0 := by
  have hSelf : renameWeight (valued φ rs) x x ≠ 0 := by
    rw [renameWeight_eq, if_pos rfl]
    exact (add_pos_of_pos_of_nonneg one_pos zero_le).ne'
  refine unitClosure_induction hSelf fun {y z} hEdge hy => ?_
  obtain ⟨r, hr, rfl, hRhs⟩ := mem_renamings.1 hEdge
  have hMem : (⟨r.lhs, r.rhs, φ r.probability⟩ : Rule ℝ≥0∞) ∈ valued φ rs :=
    List.mem_map_of_mem hr
  have hLe := renameWeight_mul_le hMem hRhs x
  exact ne_of_gt (lt_of_lt_of_le
    (pos_iff_ne_zero.2 (mul_ne_zero hy (hWeight r hr))) hLe)

/-- Spreading is a sum over what the search for renamings finds. -/
theorem spread_eq_sum (b : Weighting) (x : SymbolId) (w : List SymbolId) :
    spread (valued φ rs) b x w =
      ((unitClosure (renamings rs) x).map fun y =>
        renameWeight (valued φ rs) x y * b y w).sum := by
  rw [← List.sum_toFinset _ (nodup_unitClosure (renamings rs) x), spread,
    tsum_eq_sum]
  intro y hy
  rw [renameWeight_eq_zero fun h => hy (List.mem_toFinset.2 h), zero_mul]

/-- Spreading reads the weights of what the search for renamings finds. -/
theorem spread_congr {b b' : Weighting} {x : SymbolId}
    (h : ∀ y ∈ unitClosure (renamings rs) x, b y = b' y) :
    spread (valued φ rs) b x = spread (valued φ rs) b' x := by
  funext w
  rw [spread_eq_sum, spread_eq_sum]
  refine congrArg List.sum (List.map_congr_left fun y hy => ?_)
  rw [h y hy]

end Closure

end

end StochasticGrammar.NormalForm
