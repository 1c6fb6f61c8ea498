import StochasticGrammar.Proofs.NormalForm.Decay
import StochasticGrammar.Proofs.NormalForm.ErasureSystem

/-!
# The slope of the equations of erasure

The equations are quadratic, so what they make of a difference of values is its
share of their slope at the larger values, less a product of differences.  The
slope at the reported probabilities is a step of the unit rules that the shortened
rules add (`unitStep_withShortened`).

The equations are approached from below by the values after any number of rounds
that begin with nothing (`nilApproach`).  If the reported probabilities are the
least solution, the differences to these values are carried on by the slope, and
the products in between become negligible (`dwindles_of_least`).
-/

namespace StochasticGrammar.NormalForm

open Weighting
open scoped ENNReal

noncomputable section

/-! ## Differences of solutions -/

section Difference

variable {rules : List (Rule ℝ)} {e : Erasure ℝ} {d m p : SymbolId → ℝ}
  {x : SymbolId}

/-- What a short rule makes of changes of values, where `p` are the values. -/
def slopeTerm (p d : SymbolId → ℝ) (x : SymbolId) (r : Rule ℝ) : ℝ :=
  if r.lhs = x then
    match r.rhs with
    | [t] => r.probability * d t
    | [t, u] => r.probability * (p t * d u + p u * d t)
    | _ => 0
  else 0

/-- The version of a rule that lacks a symbol has the probability of that symbol
as a factor, which is zero if there is no such version. -/
theorem unitStep_lacking (r : Rule ℝ) (t u : SymbolId) :
    unitStep (lacking e r t u) d x =
      if r.lhs = x then r.probability * (e.probability t * d u) else 0 := by
  unfold lacking Erasure.probability
  cases e.probability? t with
  | some q => simp [unitStep, unitTerm, mul_assoc]
  | none => simp [unitStep]

theorem unitStep_append (rules rules' : List (Rule ℝ)) :
    unitStep (rules ++ rules') d x =
      unitStep rules d x + unitStep rules' d x := by
  simp [unitStep]

/-- A rule and its shortened versions, taken as unit rules, make of changes what
the rule makes of them. -/
theorem unitStep_shortened {r : Rule ℝ} (hShort : r.rhs.length ≤ 2) :
    unitTerm d x r + unitStep (shortened e r) d x =
      slopeTerm e.probability d x r := by
  match hRhs : r.rhs, hShort with
  | [], _ => simp [unitTerm, shortened, slopeTerm, unitStep, hRhs]
  | [t], _ => simp [unitTerm, shortened, slopeTerm, unitStep, hRhs]
  | [t, u], _ =>
      rw [shortened_pair hRhs, unitStep_append, unitStep_lacking,
        unitStep_lacking]
      simp only [unitTerm, slopeTerm, hRhs]
      by_cases hLhs : r.lhs = x
      · simp only [if_pos hLhs]
        ring
      · simp [hLhs]
  | _ :: _ :: _ :: _, hShort => simp at hShort

theorem unitStep_withShortened
    (hShort : ∀ r ∈ rules, r.rhs.length ≤ 2) :
    unitStep (withShortened e rules) d x =
      (rules.map (slopeTerm e.probability d x)).sum := by
  induction rules with
  | nil => rfl
  | cons r rules ih =>
      have hRule := unitStep_shortened (e := e) (d := d) (x := x)
        (hShort r (by simp))
      rw [List.map_cons, List.sum_cons, ← hRule,
        ← ih fun s hs => hShort s (by simp [hs]), withShortened, withShortened]
      by_cases hEmpty : r.rhs = []
      · rw [List.filter_cons_of_neg (by simp [hEmpty])]
        simp [unitTerm, shortened, unitStep, hEmpty]
      · rw [List.filter_cons_of_pos (by simp [hEmpty])]
        simp only [List.cons_append, List.flatMap_cons, unitStep_cons,
          unitStep_append]
        ring

/-- What a short rule makes of a product of changes. -/
def bendTerm (d : SymbolId → ℝ) (x : SymbolId) (r : Rule ℝ) : ℝ :=
  if r.lhs = x then
    match r.rhs with
    | [t, u] => r.probability * (d t * d u)
    | _ => 0
  else 0

/-- What short rules make of products of changes. -/
def bend (rules : List (Rule ℝ)) (d : SymbolId → ℝ) (x : SymbolId) : ℝ :=
  (rules.map (bendTerm d x)).sum

/-- A short rule makes of a difference of values what it makes of the same change
at the larger ones, less a product. -/
theorem nilTerm_add_bendTerm {r : Rule ℝ} (hShort : r.rhs.length ≤ 2) :
    nilTerm p x r + bendTerm (fun t => p t - m t) x r =
      nilTerm m x r + slopeTerm p (fun t => p t - m t) x r := by
  unfold nilTerm bendTerm slopeTerm
  by_cases hLhs : r.lhs = x
  · simp only [if_pos hLhs]
    match r.rhs, hShort with
    | [], _ => simp
    | [t], _ => simp [mul_sub]
    | [t, u], _ =>
        simp only [List.map_cons, List.map_nil, List.prod_cons, List.prod_nil,
          mul_one]
        ring
    | _ :: _ :: _ :: _, hShort => simp at hShort
  · simp [hLhs]

/-- So what the rules make of a difference is a step of the shortened rules, less
products. -/
theorem nilStep_add_bend (hShort : ∀ r ∈ rules, r.rhs.length ≤ 2) :
    nilStep rules e.probability x +
        bend rules (fun t => e.probability t - m t) x =
      nilStep rules m x + unitStep (withShortened e rules)
        (fun t => e.probability t - m t) x := by
  rw [unitStep_withShortened hShort, nilStep, nilStep, bend,
    ← List.sum_map_add, ← List.sum_map_add]
  exact congrArg List.sum
    (List.map_congr_left fun r hr => nilTerm_add_bendTerm (hShort r hr))

variable (hNonneg : ∀ r ∈ rules, 0 ≤ r.probability) (hd : ∀ t, 0 ≤ d t)

include hNonneg hd

theorem bend_nonneg : 0 ≤ bend rules d x := by
  refine List.sum_nonneg fun y hy => ?_
  obtain ⟨r, hr, rfl⟩ := List.mem_map.1 hy
  unfold bendTerm
  split
  · split
    · exact mul_nonneg (hNonneg r hr) (mul_nonneg (hd _) (hd _))
    · exact le_rfl
  · exact le_rfl

/-- If the changes are small beside the values, so are the products. -/
theorem bend_le {c : ℝ} (hc : 0 ≤ c)
    (hShort : ∀ r ∈ rules, r.rhs.length ≤ 2)
    (hSmall : ∀ t, d t ≤ c * e.probability t) :
    bend rules d x ≤ c / 2 * unitStep (withShortened e rules) d x := by
  rw [unitStep_withShortened hShort, bend, ← List.sum_map_mul_left]
  refine List.sum_le_sum fun r hr => ?_
  have hr' := hNonneg r hr
  unfold bendTerm slopeTerm
  by_cases hLhs : r.lhs = x
  · simp only [if_pos hLhs]
    match r.rhs, hShort r hr with
    | [], _ => simp
    | [t], _ => exact mul_nonneg (by linarith) (mul_nonneg hr' (hd t))
    | [t, u], _ =>
        -- both factors are small beside the values of their symbols
        have hFirst := mul_le_mul_of_nonneg_right (hSmall t) (hd u)
        have hSecond := mul_le_mul_of_nonneg_left (hSmall u) (hd t)
        have hPair : d t * d u ≤ c / 2 *
            (e.probability t * d u + e.probability u * d t) := by
          linarith
        rw [mul_left_comm]
        exact mul_le_mul_of_nonneg_left hPair hr'
    | _ :: _ :: _ :: _, hLong => simp at hLong
  · simp [hLhs]

end Difference


/-! ## Approaching the least solution -/

/-- The values that the equations arrive at from nothing in a number of
rounds. -/
def nilApproach (rules : List (Rule ℝ)) : ℕ → SymbolId → ℝ
  | 0 => fun _ => 0
  | n + 1 => nilStep rules (nilApproach rules n)

theorem tendsto_nilStep {rules : List (Rule ℝ)} {f : ℕ → SymbolId → ℝ}
    {limit : SymbolId → ℝ}
    (h : ∀ t, Filter.Tendsto (f · t) Filter.atTop (nhds (limit t)))
    (x : SymbolId) :
    Filter.Tendsto (fun n => nilStep rules (f n) x) Filter.atTop
      (nhds (nilStep rules limit x)) := by
  refine tendsto_list_sum rules fun r _ => ?_
  unfold nilTerm
  split
  · exact (tendsto_list_prod r.rhs fun t _ => h t).const_mul _
  · exact tendsto_const_nhds

section Approach

variable {rules : List (Rule ℝ)} (hNonneg : ∀ r ∈ rules, 0 ≤ r.probability)

include hNonneg

theorem nilStep_nonneg {f : SymbolId → ℝ} (hf : ∀ t, 0 ≤ f t)
    (x : SymbolId) : 0 ≤ nilStep rules f x :=
  (nilStep_ofReal hNonneg hf x).1

theorem nilStep_le {f f' : SymbolId → ℝ} (hf : ∀ t, 0 ≤ f t)
    (hLe : ∀ t, f t ≤ f' t) (x : SymbolId) :
    nilStep rules f x ≤ nilStep rules f' x := by
  refine List.sum_le_sum fun r hr => ?_
  unfold nilTerm
  split
  · exact mul_le_mul_of_nonneg_left
      (List.prod_map_le_prod_map₀ _ _ (fun t _ => hf t) fun t _ => hLe t)
      (hNonneg r hr)
  · exact le_rfl

theorem nilApproach_nonneg (n : ℕ) : ∀ x, 0 ≤ nilApproach rules n x := by
  induction n with
  | zero => exact fun _ => le_rfl
  | succ n ih => exact nilStep_nonneg hNonneg ih

theorem nilApproach_le_succ (n : ℕ) :
    ∀ x, nilApproach rules n x ≤ nilApproach rules (n + 1) x := by
  induction n with
  | zero => exact nilApproach_nonneg hNonneg 1
  | succ n ih => exact nilStep_le hNonneg (nilApproach_nonneg hNonneg n) ih

/-- Solutions are not passed. -/
theorem nilApproach_le {f : SymbolId → ℝ} (hf : ∀ x, 0 ≤ f x)
    (hStep : ∀ x, nilStep rules f x = f x) (n : ℕ) :
    ∀ x, nilApproach rules n x ≤ f x := by
  induction n with
  | zero => exact hf
  | succ n ih =>
      intro x
      rw [← hStep x]
      exact nilStep_le hNonneg (nilApproach_nonneg hNonneg n) ih x

/-- The least solution is arrived at in the limit. -/
theorem tendsto_nilApproach {f : SymbolId → ℝ} (hf : ∀ x, 0 ≤ f x)
    (hStep : ∀ x, nilStep rules f x = f x)
    (hLeast : ∀ m : SymbolId → ℝ, (∀ x, 0 ≤ m x) →
      (∀ x, nilStep rules m x = m x) → ∀ x, f x ≤ m x) (x : SymbolId) :
    Filter.Tendsto (nilApproach rules · x) Filter.atTop (nhds (f x)) := by
  let limit : SymbolId → ℝ := fun t => ⨆ n, nilApproach rules n t
  have hBelow := nilApproach_le hNonneg hf hStep
  have hLimit : ∀ t, Filter.Tendsto (nilApproach rules · t) Filter.atTop
      (nhds (limit t)) := by
    intro t
    refine tendsto_atTop_ciSup
      (monotone_nat_of_le_succ fun n => nilApproach_le_succ hNonneg n t) ?_
    exact ⟨f t, by rintro _ ⟨n, rfl⟩; exact hBelow n t⟩
  have hSolves : ∀ t, nilStep rules limit t = limit t := fun t =>
    tendsto_nhds_unique (tendsto_nilStep hLimit t)
      ((hLimit t).comp (Filter.tendsto_add_atTop_nat 1))
  have hEq : limit x = f x := by
    refine le_antisymm (le_of_tendsto' (hLimit x) fun n => hBelow n x) ?_
    exact hLeast limit (fun t => ge_of_tendsto' (hLimit t) fun n =>
      nilApproach_nonneg hNonneg n t) hSolves x
  rw [← hEq]
  exact hLimit x

end Approach

/-! ## Differences to the least solution -/

section Least

variable {rules : List (Rule ℝ)} {e : Erasure ℝ} {s : Finset SymbolId}
  (hNonneg : ∀ r ∈ rules, 0 ≤ r.probability)
  (hShort : ∀ r ∈ rules, r.rhs.length ≤ 2)
  (hReported : ∀ x, 0 ≤ e.probability x)
  (hStep : ∀ x, nilStep rules e.probability x = e.probability x)

include hNonneg hShort hReported hStep

/-- Differences that are small beside the values are carried on by nearly a whole
step of the shortened rules. -/
theorem mul_unitStep_le {c : ℝ} (hc : 0 ≤ c) {n : ℕ}
    (hSmall : ∀ t, e.probability t - nilApproach rules n t ≤
      c * e.probability t) (x : SymbolId) :
    (1 - c / 2) * unitStep (withShortened e rules)
        (fun t => e.probability t - nilApproach rules n t) x ≤
      e.probability x - nilApproach rules (n + 1) x := by
  have hBelow := nilApproach_le hNonneg hReported hStep n
  have hBend := bend_le (x := x) hNonneg (fun t => sub_nonneg.2 (hBelow t)) hc
    hShort hSmall
  have hEqual := nilStep_add_bend (e := e) (m := nilApproach rules n) (x := x)
    hShort
  rw [hStep x] at hEqual
  show _ ≤ e.probability x - nilStep rules (nilApproach rules n) x
  linarith

/-- If the values are the least solution, the differences to what is arrived at
die out. -/
theorem dwindles_of_least
    (hOther : ∀ x, x ∉ s → e.probability x = 0)
    (hLeast : ∀ m : SymbolId → ℝ, (∀ x, 0 ≤ m x) →
      (∀ x, nilStep rules m x = m x) → ∀ x, e.probability x ≤ m x) :
    Dwindles (withShortened e rules) s
      fun n x => e.probability x - nilApproach rules n x where
  nonneg n x := sub_nonneg.2 (nilApproach_le hNonneg hReported hStep n x)
  other n x hx := by
    have hBelow := nilApproach_le hNonneg hReported hStep n x
    have hAbove := nilApproach_nonneg hNonneg n x
    rw [hOther x hx] at hBelow ⊢
    linarith
  anti n x := sub_le_sub_left (nilApproach_le_succ hNonneg n x) _
  le_step n x := by
    have hBelow := nilApproach_le hNonneg hReported hStep n
    have hBend := bend_nonneg (x := x) hNonneg
      fun t => sub_nonneg.2 (hBelow t)
    have hEqual := nilStep_add_bend (e := e) (m := nilApproach rules n)
      (x := x) hShort
    rw [hStep x] at hEqual
    show e.probability x - nilStep rules (nilApproach rules n) x ≤ _
    linarith
  step_le_two n x := by
    have hHalf := mul_unitStep_le hNonneg hShort hReported hStep zero_le_one
      (n := n) (fun t => by
        have := nilApproach_nonneg hNonneg n t
        linarith) x
    linarith
  step_le r hr := by
    -- the differences become small beside the values of all symbols at once
    have hc : 0 < 2 * (1 - 1 / r) := by
      have : 1 / r < 1 := by rwa [div_lt_one (by linarith)]
      linarith
    have hEach : ∀ x ∈ s, ∀ᶠ n in Filter.atTop,
        e.probability x - nilApproach rules n x ≤
          2 * (1 - 1 / r) * e.probability x := by
      intro x _
      rcases (hReported x).eq_or_lt with hZero | hPos
      · refine Filter.Eventually.of_forall fun n => ?_
        rw [← hZero, mul_zero, zero_sub, neg_nonpos]
        exact nilApproach_nonneg hNonneg n x
      · have hLimit := (tendsto_nilApproach hNonneg hReported hStep hLeast
          x).const_sub (e.probability x)
        rw [sub_self] at hLimit
        exact hLimit.eventually_le_const (mul_pos hc hPos)
    obtain ⟨m, hm⟩ := Filter.eventually_atTop.1
      ((Filter.eventually_all_finset s).2 hEach)
    refine ⟨m, fun n hn x => ?_⟩
    have hSmall : ∀ t, e.probability t - nilApproach rules n t ≤
        2 * (1 - 1 / r) * e.probability t := by
      intro t
      by_cases ht : t ∈ s
      · exact hm n hn t ht
      · rw [hOther t ht, mul_zero, zero_sub, neg_nonpos]
        exact nilApproach_nonneg hNonneg n t
    have hNear := mul_unitStep_le hNonneg hShort hReported hStep hc.le hSmall x
    have hFactor : 1 - 2 * (1 - 1 / r) / 2 = 1 / r := by ring
    rw [hFactor, one_div, inv_mul_le_iff₀ (by linarith)] at hNear
    exact hNear

end Least

end

end StochasticGrammar.NormalForm
