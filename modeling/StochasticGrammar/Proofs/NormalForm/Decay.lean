import StochasticGrammar.Proofs.NormalForm.Nonnegative

/-!
# Differences along chains of unit rules

A difference between values of symbols is carried along chains of unit rules.
If a step does not decrease it and the sums over the chains are finite, there is
no difference (`nonpos_of_le_unitStep`).

Conversely, a sequence of differences may die out by steps that fall short of
those of the unit rules, by less and less (`Dwindles`).  If the system of the unit
rules has a solution, then a difference is bounded by what one step leaves of it
(`exists_sum_abs_le`).  The differences then shrink by a fixed factor in the long
run, and since the steps come ever closer to those of the unit rules, what the
chains make of the first difference has finite sums (`Dwindles.summable`).
-/

namespace StochasticGrammar.NormalForm

noncomputable section

/-- What the chains of `n` unit rules make of values at the symbols of a
set. -/
def chainValue (rules : List (Rule ℝ)) (s : Finset SymbolId)
    (f : SymbolId → ℝ) (n : ℕ) (x : SymbolId) : ℝ :=
  ∑ y ∈ s, chainWeight rules n x y * f y

section Chains

variable {rules : List (Rule ℝ)} {s : Finset SymbolId} {f : SymbolId → ℝ}

theorem chainValue_zero (hOther : ∀ x, x ∉ s → f x = 0) :
    chainValue rules s f 0 = f := by
  funext x
  simp only [chainValue, chainWeight, ite_mul, one_mul, zero_mul,
    Finset.sum_ite_eq]
  split
  · rfl
  · rename_i hx
    exact (hOther x hx).symm

theorem chainValue_succ (n : ℕ) (x : SymbolId) :
    chainValue rules s f (n + 1) x =
      unitStep rules (chainValue rules s f n) x := by
  show _ = unitStep rules (fun t => ∑ y ∈ s, chainWeight rules n t y * f y) x
  rw [unitStep_sum]
  refine Finset.sum_congr rfl fun y _ => ?_
  rw [← unitStep_mul]
  rfl

theorem unitStep_eq_sum_chainWeight (hOther : ∀ x, x ∉ s → f x = 0)
    (x : SymbolId) :
    unitStep rules f x = ∑ y : s, chainWeight rules 1 x y * f y := by
  have hOne : chainValue rules s f 1 x = _ := chainValue_succ 0 x
  rw [chainValue_zero hOther] at hOne
  rw [← hOne, Finset.sum_coe_sort s fun y => chainWeight rules 1 x y * f y]
  rfl

variable (hNonneg : ∀ r ∈ rules, 0 ≤ r.probability)

include hNonneg

/-! ## Differences that one step does not decrease -/

/-- A difference that one step does not decrease is below what chains of any
length make of it. -/
theorem le_chainValue (hOther : ∀ x, x ∉ s → f x = 0)
    (hf : ∀ x, f x ≤ unitStep rules f x) (n : ℕ) :
    ∀ x, f x ≤ chainValue rules s f n x := by
  induction n with
  | zero => exact fun x => (congrFun (chainValue_zero hOther) x).ge
  | succ n ih =>
      intro x
      rw [chainValue_succ]
      exact (hf x).trans (unitStep_le hNonneg ih x)

/-- If the sums over the chains are finite, there is no such difference. -/
theorem nonpos_of_le_unitStep (hOther : ∀ x, x ∉ s → f x = 0)
    (hf : ∀ x, f x ≤ unitStep rules f x) {x : SymbolId}
    (hFinite : ∀ y ∈ s, Summable fun n => chainWeight rules n x y) :
    f x ≤ 0 := by
  have hZero : Filter.Tendsto (fun n => chainValue rules s f n x) Filter.atTop
      (nhds (∑ y ∈ s, 0 * f y)) :=
    tendsto_finsetSum s fun y hy =>
      (hFinite y hy).tendsto_atTop_zero.mul_const (f y)
  simp only [zero_mul, Finset.sum_const_zero] at hZero
  exact ge_of_tendsto' hZero fun n => le_chainValue hNonneg hOther hf n x

end Chains

/-! ## Values and what one step leaves of them -/

/-- If the equations of a first step have solutions, values are found again from
what one step leaves of them. -/
theorem eq_sum_mul_sub {rules : List (Rule ℝ)} {s : Finset SymbolId}
    {solution : SymbolId → SymbolId → ℝ}
    (hOut : ∀ y ∈ s, ∀ x, x ∉ s → solution x y = 0)
    (hStep : ∀ x ∈ s, ∀ y ∈ s, solution x y = (if x = y then 1 else 0) +
      unitStep rules (fun t => solution t y) x)
    {d : SymbolId → ℝ} (hOther : ∀ x, x ∉ s → d x = 0) {x : SymbolId}
    (hx : x ∈ s) :
    d x = ∑ y ∈ s, solution x y * (d y - unitStep rules d y) := by
  let left : Matrix s s ℝ :=
    1 - Matrix.of fun i j => chainWeight rules 1 i.1 j.1
  let right : Matrix s s ℝ := Matrix.of fun i j => solution i.1 j.1
  have hRight : left * right = 1 := by
    ext i j
    have hEntry := hStep i.1 i.2 j.1 j.2
    rw [unitStep_eq_sum_chainWeight (hOut j.1 j.2)] at hEntry
    have hDelta : (1 : Matrix s s ℝ) i j = if i.1 = j.1 then 1 else 0 := by
      rw [Matrix.one_apply]
      exact if_congr Subtype.ext_iff rfl rfl
    rw [sub_mul, one_mul, hDelta]
    exact sub_eq_of_eq_add hEntry
  have hLeft : right * left = 1 := mul_eq_one_comm.1 hRight
  have hRest : left.mulVec (fun i => d i.1) =
      fun i : s => d i.1 - unitStep rules d i.1 := by
    funext i
    rw [unitStep_eq_sum_chainWeight hOther, Matrix.sub_mulVec,
      Matrix.one_mulVec]
    rfl
  have hAll : (fun i : s => d i.1) =
      right.mulVec fun i : s => d i.1 - unitStep rules d i.1 := by
    rw [← hRest, Matrix.mulVec_mulVec, hLeft, Matrix.one_mulVec]
  rw [← Finset.sum_coe_sort s
    fun y => solution x y * (d y - unitStep rules d y)]
  exact congrFun hAll ⟨x, hx⟩

/-- Then the sizes of values are bounded by those of what one step leaves. -/
theorem exists_sum_abs_le {options : Options ℝ} {al : Alphabet}
    {rules : List (Rule ℝ)} {chains : Chains ℝ} (hal : al.WellFormed)
    (hPlain : Plain al rules) (hExact : IsExact options.solveUnits)
    (hSolve : Chains.solve options al rules = .ok chains) :
    ∃ K : ℝ, 1 ≤ K ∧ ∀ d : SymbolId → ℝ,
      (∀ x, x ∉ (al.ids .nonterminal).toFinset → d x = 0) →
      ∑ x ∈ (al.ids .nonterminal).toFinset, |d x| ≤
        K * ∑ x ∈ (al.ids .nonterminal).toFinset, |d x - unitStep rules d x| := by
  have hRows : chains.rows = al.ids .nonterminal := by
    obtain ⟨_, rfl, _⟩ := Chains.solve_eq_ok hSolve
    rfl
  have hStep := rename_eq_add_unitStep hal hPlain hExact hSolve
  have hOut : ∀ y ∈ (al.ids .nonterminal).toFinset, ∀ x,
      x ∉ (al.ids .nonterminal).toFinset → chains.rename x y = 0 := by
    intro y hy x hx
    have hNe : x ≠ y := by
      rintro rfl
      exact hx hy
    have hRow : x ∉ chains.rows := by
      rw [hRows]
      exact fun hMem => hx (List.mem_toFinset.2 hMem)
    rw [rename_of_notMem hRow, if_neg hNe]
  generalize (al.ids .nonterminal).toFinset = s at hOut ⊢
  let size : ℝ := ∑ x ∈ s, ∑ y ∈ s, |chains.rename x y|
  have hSize : 0 ≤ size := Finset.sum_nonneg fun x _ =>
    Finset.sum_nonneg fun y _ => abs_nonneg _
  refine ⟨1 + size, by linarith, fun d hOther => ?_⟩
  let rest : ℝ := ∑ y ∈ s, |d y - unitStep rules d y|
  have hRest : 0 ≤ rest := Finset.sum_nonneg fun y _ => abs_nonneg _
  calc ∑ x ∈ s, |d x|
      ≤ ∑ x ∈ s, (∑ y ∈ s, |chains.rename x y|) * rest := by
        refine Finset.sum_le_sum fun x hx => ?_
        rw [eq_sum_mul_sub hOut (fun x _ y _ => hStep x y) hOther hx,
          Finset.sum_mul]
        refine (Finset.abs_sum_le_sum_abs _ _).trans
          (Finset.sum_le_sum fun y hy => ?_)
        rw [abs_mul]
        gcongr
        exact Finset.single_le_sum
          (f := fun y => |d y - unitStep rules d y|)
          (fun z _ => abs_nonneg _) hy
    _ = size * rest := by rw [← Finset.sum_mul]
    _ ≤ (1 + size) * rest := by
        gcongr
        linarith

/-! ## Differences that die out -/

/-- Differences at some symbols, each of which falls short of what a step of the
unit rules makes of the one before it, by less and less. -/
structure Dwindles (rules : List (Rule ℝ)) (s : Finset SymbolId)
    (d : ℕ → SymbolId → ℝ) : Prop where
  nonneg : ∀ n x, 0 ≤ d n x
  other : ∀ n x, x ∉ s → d n x = 0
  anti : ∀ n x, d (n + 1) x ≤ d n x
  le_step : ∀ n x, d (n + 1) x ≤ unitStep rules (d n) x
  step_le_two : ∀ n x, unitStep rules (d n) x ≤ 2 * d (n + 1) x
  step_le : ∀ r > 1, ∃ m, ∀ n ≥ m, ∀ x,
    unitStep rules (d n) x ≤ r * d (n + 1) x

namespace Dwindles

variable {rules : List (Rule ℝ)} {s : Finset SymbolId}
  {d : ℕ → SymbolId → ℝ} (h : Dwindles rules s d) {K r : ℝ} {n : ℕ}

/-! ### What the chains make of the first one -/

theorem chainValue_succ_le (hNonneg : ∀ r ∈ rules, 0 ≤ r.probability)
    {f : SymbolId → ℝ} {c : ℝ} (hc : 0 ≤ c)
    (hValue : ∀ x, chainValue rules s f n x ≤ d n x * c)
    (hStep : ∀ x, unitStep rules (d n) x ≤ r * d (n + 1) x) (x : SymbolId) :
    chainValue rules s f (n + 1) x ≤ d (n + 1) x * (c * r) := by
  calc chainValue rules s f (n + 1) x
      = unitStep rules (chainValue rules s f n) x := chainValue_succ n x
    _ ≤ unitStep rules (fun t => d n t * c) x := unitStep_le hNonneg hValue x
    _ = unitStep rules (d n) x * c := (unitStep_mul rules (d n) c x).symm
    _ ≤ r * d (n + 1) x * c := mul_le_mul_of_nonneg_right (hStep x) hc
    _ = d (n + 1) x * (c * r) := by ring

include h

/-- From a number on, the chains exceed the differences by a factor for each
further step. -/
theorem chainValue_le (hNonneg : ∀ r ∈ rules, 0 ≤ r.probability) {m : ℕ}
    (hr : 0 ≤ r)
    (hStep : ∀ n ≥ m, ∀ x, unitStep rules (d n) x ≤ r * d (n + 1) x)
    (k : ℕ) :
    ∀ x, chainValue rules s (d 0) (m + k) x ≤
      d (m + k) x * (2 ^ m * r ^ k) := by
  have hFirst : ∀ n x, chainValue rules s (d 0) n x ≤ d n x * 2 ^ n := by
    intro n
    induction n with
    | zero =>
        intro x
        rw [chainValue_zero (h.other 0), pow_zero, mul_one]
    | succ n ih =>
        intro x
        rw [pow_succ]
        exact chainValue_succ_le hNonneg (pow_nonneg zero_le_two n) ih
          (h.step_le_two n) x
  induction k with
  | zero =>
      intro x
      simpa using hFirst m x
  | succ k ih =>
      intro x
      have hNext := chainValue_succ_le hNonneg (by positivity) ih
        (hStep (m + k) (by omega)) x
      rwa [mul_assoc, ← pow_succ] at hNext

/-! ### Their sum -/

/-- A difference that is bounded by what one step leaves of it shrinks. -/
theorem sum_succ_le (hK : 0 ≤ K)
    (hBound : ∀ f : SymbolId → ℝ, (∀ x, x ∉ s → f x = 0) →
      ∑ x ∈ s, |f x| ≤ K * ∑ x ∈ s, |f x - unitStep rules f x|)
    (hr : 1 ≤ r)
    (hStep : ∀ x, unitStep rules (d n) x ≤ r * d (n + 1) x) :
    K * (2 - r) * ∑ x ∈ s, d (n + 1) x ≤ (K - 1) * ∑ x ∈ s, d n x := by
  have hRest : ∑ x ∈ s, |d n x - unitStep rules (d n) x| ≤
      ∑ x ∈ s, (d n x - (2 - r) * d (n + 1) x) := by
    refine Finset.sum_le_sum fun x _ => ?_
    have hNext := h.nonneg (n + 1) x
    have hAnti := h.anti n x
    have hBelow := h.le_step n x
    have hMore : 0 ≤ (r - 1) * d (n + 1) x :=
      mul_nonneg (sub_nonneg.2 hr) hNext
    rw [abs_le]
    constructor
    · linarith [hStep x]
    · linarith
  have hSize : ∑ x ∈ s, |d n x| = ∑ x ∈ s, d n x :=
    Finset.sum_congr rfl fun x _ => abs_of_nonneg (h.nonneg n x)
  have hSum := (hBound (d n) (h.other n)).trans
    (mul_le_mul_of_nonneg_left hRest hK)
  rw [hSize, Finset.sum_sub_distrib, ← Finset.mul_sum] at hSum
  linarith

theorem le_sum (n : ℕ) (x : SymbolId) : d n x ≤ ∑ y ∈ s, d n y := by
  by_cases hx : x ∈ s
  · exact Finset.single_le_sum (f := d n) (fun y _ => h.nonneg n y) hx
  · rw [h.other n x hx]
    exact Finset.sum_nonneg fun y _ => h.nonneg n y

omit h in
/-- For a given bound, the chains may exceed the differences by a factor `r` in
each step, and the differences shrink by so much that a factor `q` remains. -/
theorem exists_rates (hK : 1 ≤ K) : ∃ r q : ℝ, 1 < r ∧ 0 ≤ q ∧ q < 1 ∧
    0 < K * (2 - r) ∧ r * (K - 1) = q * (K * (2 - r)) := by
  have hGap : 0 < 1 / (4 * K) := by positivity
  have hQuarter : 1 / (4 * K) ≤ 1 / 4 := by
    rw [div_le_div_iff₀ (by linarith) (by norm_num)]
    linarith
  have hProduct : K * (1 / (4 * K)) = 1 / 4 := by
    field_simp
  generalize 1 / (4 * K) = gap at hGap hQuarter hProduct
  have hDivisor : 0 < K * (2 - (1 + gap)) :=
    mul_pos (by linarith) (by linarith)
  refine ⟨1 + gap, (1 + gap) * (K - 1) / (K * (2 - (1 + gap))), by linarith,
    div_nonneg (mul_nonneg (by linarith) (by linarith)) hDivisor.le, ?_,
    hDivisor, (div_mul_cancel₀ _ hDivisor.ne').symm⟩
  rw [div_lt_one hDivisor]
  linarith

/-- The sums of the differences, enlarged by a factor in each step, still
shrink. -/
theorem pow_mul_sum_le {m : ℕ} {q : ℝ} (hr : 1 ≤ r) (hq : 0 ≤ q)
    (hDivisor : 0 < K * (2 - r)) (hRates : r * (K - 1) = q * (K * (2 - r)))
    (hK : 0 ≤ K)
    (hBound : ∀ f : SymbolId → ℝ, (∀ x, x ∉ s → f x = 0) →
      ∑ x ∈ s, |f x| ≤ K * ∑ x ∈ s, |f x - unitStep rules f x|)
    (hStep : ∀ n ≥ m, ∀ x, unitStep rules (d n) x ≤ r * d (n + 1) x)
    (k : ℕ) :
    r ^ k * ∑ y ∈ s, d (m + k) y ≤ q ^ k * ∑ y ∈ s, d m y := by
  induction k with
  | zero => simp
  | succ k ih =>
      have hShrink := h.sum_succ_le hK hBound hr (hStep (m + k) (by omega))
      have hOne : r * ∑ y ∈ s, d (m + (k + 1)) y ≤
          q * ∑ y ∈ s, d (m + k) y := by
        refine le_of_mul_le_mul_left ?_ hDivisor
        calc K * (2 - r) * (r * ∑ y ∈ s, d (m + (k + 1)) y)
            = r * (K * (2 - r) * ∑ y ∈ s, d (m + k + 1) y) := by
              rw [mul_left_comm, add_assoc]
          _ ≤ r * ((K - 1) * ∑ y ∈ s, d (m + k) y) :=
              mul_le_mul_of_nonneg_left hShrink (by linarith)
          _ = K * (2 - r) * (q * ∑ y ∈ s, d (m + k) y) := by
              rw [← mul_assoc, hRates]
              ring
      calc r ^ (k + 1) * ∑ y ∈ s, d (m + (k + 1)) y
          = r ^ k * (r * ∑ y ∈ s, d (m + (k + 1)) y) := by
            rw [pow_succ, mul_assoc]
        _ ≤ r ^ k * (q * ∑ y ∈ s, d (m + k) y) :=
            mul_le_mul_of_nonneg_left hOne (pow_nonneg (by linarith) k)
        _ = q * (r ^ k * ∑ y ∈ s, d (m + k) y) := mul_left_comm _ _ _
        _ ≤ q * (q ^ k * ∑ y ∈ s, d m y) := mul_le_mul_of_nonneg_left ih hq
        _ = q ^ (k + 1) * ∑ y ∈ s, d m y := by rw [pow_succ', mul_assoc]

/-- If differences are bounded by what one step leaves of them, what the chains
make of the first one has finite sums. -/
theorem summable (hNonneg : ∀ r ∈ rules, 0 ≤ r.probability) (hK : 1 ≤ K)
    (hBound : ∀ f : SymbolId → ℝ, (∀ x, x ∉ s → f x = 0) →
      ∑ x ∈ s, |f x| ≤ K * ∑ x ∈ s, |f x - unitStep rules f x|)
    (x : SymbolId) : Summable fun n => chainValue rules s (d 0) n x := by
  obtain ⟨r, q, hr, hq, hLt, hDivisor, hRates⟩ := exists_rates hK
  obtain ⟨m, hStep⟩ := h.step_le r hr
  rw [← summable_nat_add_iff m]
  refine Summable.of_nonneg_of_le (fun k => ?_) (fun k => ?_)
    ((summable_geometric_of_lt_one hq hLt).mul_right
      (2 ^ m * ∑ y ∈ s, d m y))
  · exact Finset.sum_nonneg fun y _ =>
      mul_nonneg (chainWeight_nonneg hNonneg _ y x) (h.nonneg 0 y)
  · have hShrink := h.pow_mul_sum_le hr.le hq hDivisor hRates (by linarith)
      hBound hStep k
    have hFactor : 0 ≤ (2 : ℝ) ^ m * r ^ k :=
      mul_nonneg (by positivity) (pow_nonneg (by linarith) k)
    calc chainValue rules s (d 0) (k + m) x
        ≤ d (m + k) x * (2 ^ m * r ^ k) := by
          rw [add_comm]
          exact h.chainValue_le hNonneg (by linarith) hStep k x
      _ ≤ (∑ y ∈ s, d (m + k) y) * (2 ^ m * r ^ k) :=
          mul_le_mul_of_nonneg_right (h.le_sum (m + k) x) hFactor
      _ = 2 ^ m * (r ^ k * ∑ y ∈ s, d (m + k) y) := by ring
      _ ≤ 2 ^ m * (q ^ k * ∑ y ∈ s, d m y) :=
          mul_le_mul_of_nonneg_left hShrink (by positivity)
      _ = q ^ k * (2 ^ m * ∑ y ∈ s, d m y) := mul_left_comm _ _ _

end Dwindles

end

end StochasticGrammar.NormalForm
