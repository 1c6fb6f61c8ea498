import Mathlib.Data.ENNReal.BigOperators
import Mathlib.Order.FixedPoints
import StochasticGrammar.Proofs.Tree.Derivation

/-!
# Total weights

The rules of a grammar give each symbol a total weight for each row of
terminals.  The total weights solve a system of equations, and where there are
several solutions they are the least one.  Weights are extended nonnegative
numbers, so there always is a least solution, and sums need no convergence.

Two grammars are compared without looking at their derivations: the total
weights of the one are below everything that the equations of the one do not
increase (`total_le`), so it is enough to guess what the weights of the other
say about the one, in both directions.

Main results: the total weights solve the equations (`expand_total`) and are
the least to do so (`total_le`).
-/

namespace StochasticGrammar

open scoped ENNReal

noncomputable section

/-- How much weight each symbol gives to each row of terminals. -/
abbrev Weighting := SymbolId → List SymbolId → ℝ≥0∞

namespace Weighting

/-! ## Rows of symbols -/

/-- The weight of having nothing to derive. -/
def silent (w : List SymbolId) : ℝ≥0∞ := if w = [] then 1 else 0

/-- The weight of deriving a first part in one way and the rest in another. -/
def splice (f g : List SymbolId → ℝ≥0∞) (w : List SymbolId) : ℝ≥0∞ :=
  ∑ i ∈ Finset.range (w.length + 1), f (w.take i) * g (w.drop i)

/-- The weight that a row of symbols gives to a row of terminals. -/
def row (h : Weighting) : List SymbolId → List SymbolId → ℝ≥0∞
  | [] => silent
  | x :: rest => splice (h x) (row h rest)

theorem splice_mono {f f' g g' : List SymbolId → ℝ≥0∞} (hf : f ≤ f')
    (hg : g ≤ g') : splice f g ≤ splice f' g' :=
  fun _ => Finset.sum_le_sum fun _ _ => mul_le_mul' (hf _) (hg _)

theorem row_mono {h h' : Weighting} (hLe : h ≤ h') (rhs : List SymbolId) :
    row h rhs ≤ row h' rhs := by
  induction rhs with
  | nil => exact le_refl _
  | cons x rest ih => exact splice_mono (hLe x) ih

theorem row_congr {h h' : Weighting} {rhs : List SymbolId}
    (hEq : ∀ x ∈ rhs, h x = h' x) : row h rhs = row h' rhs := by
  induction rhs with
  | nil => rfl
  | cons x rest ih =>
      rw [row, row, hEq x (by simp), ih fun y hy => hEq y (by simp [hy])]

theorem splice_silent (f : List SymbolId → ℝ≥0∞) : splice f silent = f := by
  funext w
  have hLast : ∀ i ∈ Finset.range (w.length + 1), i ≠ w.length →
      f (w.take i) * silent (w.drop i) = 0 := by
    intro i hi hNe
    have hLt := Finset.mem_range.1 hi
    have hDrop : w.drop i ≠ [] := by
      intro hNil
      have := List.drop_eq_nil_iff.1 hNil
      omega
    rw [silent, if_neg hDrop, mul_zero]
  rw [splice, Finset.sum_eq_single_of_mem w.length (by simp) hLast]
  simp [silent]

theorem silent_splice (f : List SymbolId → ℝ≥0∞) : splice silent f = f := by
  funext w
  have hFirst : ∀ i ∈ Finset.range (w.length + 1), i ≠ 0 →
      silent (w.take i) * f (w.drop i) = 0 := by
    intro i hi hNe
    have hLt := Finset.mem_range.1 hi
    have hTake : w.take i ≠ [] := by
      intro hNil
      have := congrArg List.length hNil
      simp only [List.length_take, List.length_nil] at this
      omega
    rw [silent, if_neg hTake, zero_mul]
  rw [splice, Finset.sum_eq_single_of_mem 0 (by simp) hFirst]
  simp [silent]

theorem splice_comm_mul (f g : List SymbolId → ℝ≥0∞) (c : ℝ≥0∞)
    (w : List SymbolId) :
    splice f (fun v => c * g v) w = c * splice f g w := by
  rw [splice, splice, Finset.mul_sum]
  refine Finset.sum_congr rfl fun i _ => ?_
  rw [mul_left_comm]

/-- A sum in the first place may be taken afterwards. -/
theorem sum_splice {ι : Type} (xs : List ι) (c : ι → ℝ≥0∞)
    (f : ι → List SymbolId → ℝ≥0∞) (g : List SymbolId → ℝ≥0∞)
    (w : List SymbolId) :
    splice (fun v => (xs.map fun i => c i * f i v).sum) g w =
      (xs.map fun i => c i * splice (f i) g w).sum := by
  induction xs with
  | nil => simp [splice]
  | cons i xs ih =>
      simp only [List.map_cons, List.sum_cons]
      rw [← ih, splice, splice, splice, Finset.mul_sum,
        ← Finset.sum_add_distrib]
      refine Finset.sum_congr rfl fun k _ => ?_
      rw [add_mul, mul_assoc]

/-- A sum in the second place may be taken afterwards. -/
theorem splice_sum {ι : Type} (xs : List ι) (c : ι → ℝ≥0∞)
    (f : List SymbolId → ℝ≥0∞) (g : ι → List SymbolId → ℝ≥0∞)
    (w : List SymbolId) :
    splice f (fun v => (xs.map fun i => c i * g i v).sum) w =
      (xs.map fun i => c i * splice f (g i) w).sum := by
  induction xs with
  | nil => simp [splice]
  | cons i xs ih =>
      simp only [List.map_cons, List.sum_cons]
      rw [← ih, splice, splice, splice, Finset.mul_sum,
        ← Finset.sum_add_distrib]
      refine Finset.sum_congr rfl fun k _ => ?_
      rw [mul_add, mul_left_comm]

@[simp] theorem row_nil (h : Weighting) : row h [] = silent := rfl

@[simp] theorem row_singleton (h : Weighting) (x : SymbolId) :
    row h [x] = h x := by
  rw [row, row_nil, splice_silent]

theorem row_pair (h : Weighting) (x y : SymbolId) :
    row h [x, y] = splice (h x) (h y) := by
  rw [row, row_singleton]

theorem splice_nil (f g : List SymbolId → ℝ≥0∞) :
    splice f g [] = f [] * g [] := by
  simp [splice]

/-- Only nothing can be split into nothing. -/
theorem row_apply_nil (h : Weighting) (rhs : List SymbolId) :
    row h rhs [] = (rhs.map (h · [])).prod := by
  induction rhs with
  | nil => simp [silent]
  | cons x rest ih =>
      rw [row, splice_nil, ih, List.map_cons, List.prod_cons]

/-! ## Terminals -/

/-- The weight that a terminal gives to what it stands for. -/
def leaf (x : SymbolId) (w : List SymbolId) : ℝ≥0∞ :=
  if w = (ParseTree.terminal x).word then 1 else 0

/-- The weighting with the terminals put in. -/
def withLeaves (isTerminal : SymbolId → Bool) (f : Weighting) : Weighting :=
  fun x => if isTerminal x then leaf x else f x

section Leaves

variable {isTerminal : SymbolId → Bool} {x : SymbolId}

theorem withLeaves_terminal (h : isTerminal x = true) (f : Weighting) :
    withLeaves isTerminal f x = leaf x :=
  if_pos h

theorem withLeaves_nonterminal (h : isTerminal x = false) (f : Weighting) :
    withLeaves isTerminal f x = f x := by
  rw [withLeaves, if_neg (by simp [h])]

theorem withLeaves_mono {f f' : Weighting} (h : f ≤ f') :
    withLeaves isTerminal f ≤ withLeaves isTerminal f' := by
  intro x
  unfold withLeaves
  split
  · exact le_refl _
  · exact h x

theorem leaf_emptyId : leaf emptyId = silent := by
  funext w
  rw [leaf, silent, ParseTree.word_terminal, if_pos rfl]

theorem leaf_nil (h : x ≠ emptyId) : leaf x [] = 0 := by
  rw [leaf, ParseTree.word_terminal, if_neg h, if_neg (by simp)]

end Leaves

/-! ## The equations -/

/-- A list of rules with their probabilities replaced by weights. -/
def valued {α : Type} (φ : α → ℝ≥0∞) (rules : List (Rule α)) :
    List (Rule ℝ≥0∞) :=
  rules.map fun r => ⟨r.lhs, r.rhs, φ r.probability⟩

@[simp] theorem valued_cons {α : Type} (φ : α → ℝ≥0∞) (r : Rule α)
    (rules : List (Rule α)) :
    valued φ (r :: rules) =
      ⟨r.lhs, r.rhs, φ r.probability⟩ :: valued φ rules := rfl

theorem valued_flatMap {α β : Type} (φ : α → ℝ≥0∞) (xs : List β)
    (f : β → List (Rule α)) :
    valued φ (xs.flatMap f) = xs.flatMap fun x => valued φ (f x) := by
  simp [valued, List.map_flatMap]

theorem valued_append {α : Type} (φ : α → ℝ≥0∞) (rules rules' : List (Rule α)) :
    valued φ (rules ++ rules') = valued φ rules ++ valued φ rules' := by
  simp [valued]

/-- What a rule contributes to the weight of a symbol. -/
def ruleWeight (h : Weighting) (a : SymbolId) (w : List SymbolId)
    (r : Rule ℝ≥0∞) : ℝ≥0∞ :=
  if r.lhs = a then r.probability * row h r.rhs w else 0

/-- The sum of what the rules contribute. -/
def expand (rules : List (Rule ℝ≥0∞)) (h : Weighting) : Weighting :=
  fun a w => (rules.map (ruleWeight h a w)).sum

section Expand

variable {rules rules' : List (Rule ℝ≥0∞)} {h h' : Weighting}
  {a : SymbolId} {w : List SymbolId}

@[simp] theorem expand_nil : expand [] h a w = 0 := rfl

@[simp] theorem expand_cons (r : Rule ℝ≥0∞) :
    expand (r :: rules) h a w = ruleWeight h a w r + expand rules h a w := by
  simp [expand]

theorem expand_append :
    expand (rules ++ rules') h a w =
      expand rules h a w + expand rules' h a w := by
  simp [expand]

theorem expand_perm (hPerm : rules.Perm rules') :
    expand rules h a w = expand rules' h a w :=
  (hPerm.map _).sum_eq

theorem expand_flatMap {β : Type} (xs : List β) (f : β → List (Rule ℝ≥0∞)) :
    expand (xs.flatMap f) h a w =
      (xs.map fun x => expand (f x) h a w).sum := by
  induction xs with
  | nil => rfl
  | cons x xs ih =>
      rw [List.flatMap_cons, expand_append, ih, List.map_cons, List.sum_cons]

theorem ruleWeight_of_ne {r : Rule ℝ≥0∞} (hNe : r.lhs ≠ a) :
    ruleWeight h a w r = 0 :=
  if_neg hNe

theorem ruleWeight_le_expand {r : Rule ℝ≥0∞} (hr : r ∈ rules) :
    ruleWeight h a w r ≤ expand rules h a w :=
  List.single_le_sum (fun _ _ => zero_le) _ (List.mem_map_of_mem hr)

theorem expand_mono (hLe : h ≤ h') : expand rules h ≤ expand rules h' := by
  intro a w
  refine List.sum_le_sum fun r _ => ?_
  unfold ruleWeight
  split
  · exact mul_le_mul' (le_refl _) (row_mono hLe _ _)
  · exact le_refl _

theorem expand_congr
    (hEq : ∀ r ∈ rules, r.lhs = a → row h r.rhs w = row h' r.rhs w) :
    expand rules h a w = expand rules h' a w := by
  refine congrArg List.sum (List.map_congr_left fun r hr => ?_)
  unfold ruleWeight
  split
  · rename_i hLhs
    rw [hEq r hr hLhs]
  · rfl

theorem expand_eq_zero (hNone : ∀ r ∈ rules, r.lhs = a →
    row h r.rhs w = 0) : expand rules h a w = 0 := by
  refine List.sum_eq_zero fun x hx => ?_
  obtain ⟨r, hr, rfl⟩ := List.mem_map.1 hx
  unfold ruleWeight
  split
  · rename_i hLhs
    rw [hNone r hr hLhs, mul_zero]
  · rfl

theorem expand_le_of_sublist (hSub : rules.Sublist rules') :
    expand rules h a w ≤ expand rules' h a w :=
  (hSub.map _).sum_le_sum fun _ _ => zero_le

/-- Some of the rules contribute as much as all rules would if the others did
not count. -/
theorem expand_filter {α : Type} {φ : α → ℝ≥0∞} (q : Rule α → Bool)
    (rs : List (Rule α)) :
    expand (valued φ (rs.filter q)) h a w = (rs.map fun r =>
      if q r then ruleWeight h a w ⟨r.lhs, r.rhs, φ r.probability⟩
      else 0).sum := by
  induction rs with
  | nil => rfl
  | cons r rs ih =>
      by_cases hq : q r = true
      · rw [List.filter_cons_of_pos hq, valued_cons, expand_cons, ih,
          List.map_cons, List.sum_cons, if_pos hq]
      · rw [List.filter_cons_of_neg hq, ih, List.map_cons, List.sum_cons,
          if_neg hq, zero_add]

/-- Without the rules of one symbol, that symbol has no weight, and the others
keep theirs. -/
theorem expand_filter_lhs_ne {α : Type} {φ : α → ℝ≥0∞} (b : SymbolId)
    (rs : List (Rule α)) : expand (valued φ (rs.filter (·.lhs != b))) h a w =
      if a = b then 0 else expand (valued φ rs) h a w := by
  rw [expand_filter]
  split
  case isTrue ha =>
    refine List.sum_eq_zero fun x hx => ?_
    obtain ⟨r, _, rfl⟩ := List.mem_map.1 hx
    split
    case isTrue hLhs => exact ruleWeight_of_ne (by simpa [ha] using hLhs)
    case isFalse => rfl
  case isFalse ha =>
    rw [expand, valued, List.map_map]
    refine congrArg List.sum (List.map_congr_left fun r _ => ?_)
    split
    case isTrue => rfl
    case isFalse hLhs =>
      have hLhs : r.lhs = b := by simpa using hLhs
      exact (ruleWeight_of_ne (hLhs.trans_ne (Ne.symm ha))).symm

end Expand

/-- One round of the equations. -/
def step (isTerminal : SymbolId → Bool) (rules : List (Rule ℝ≥0∞)) :
    Weighting →o Weighting where
  toFun f := expand rules (withLeaves isTerminal f)
  monotone' _ _ h := expand_mono (withLeaves_mono h)

/-- The total weights: the least solution of the equations. -/
def total (isTerminal : SymbolId → Bool) (rules : List (Rule ℝ≥0∞)) :
    Weighting :=
  (step isTerminal rules).lfp

/-- The total weights of all symbols. -/
abbrev totals (isTerminal : SymbolId → Bool) (rules : List (Rule ℝ≥0∞)) :
    Weighting :=
  withLeaves isTerminal (total isTerminal rules)

section Total

variable {isTerminal : SymbolId → Bool} {rules rules' : List (Rule ℝ≥0∞)}

theorem expand_total (isTerminal : SymbolId → Bool)
    (rules : List (Rule ℝ≥0∞)) :
    expand rules (totals isTerminal rules) = total isTerminal rules :=
  (step isTerminal rules).map_lfp

/-- What the equations do not increase is above the total weights. -/
theorem total_le {f : Weighting}
    (h : expand rules (withLeaves isTerminal f) ≤ f) :
    total isTerminal rules ≤ f :=
  (step isTerminal rules).lfp_le h

theorem total_congr (h : ∀ f, expand rules (withLeaves isTerminal f) =
    expand rules' (withLeaves isTerminal f)) :
    total isTerminal rules = total isTerminal rules' := by
  apply le_antisymm
  · refine total_le ?_
    rw [h, expand_total]
  · refine total_le ?_
    rw [← h, expand_total]

theorem total_perm (h : rules.Perm rules') :
    total isTerminal rules = total isTerminal rules' :=
  total_congr fun _ => funext fun _ => funext fun _ => expand_perm h

theorem total_mono (h : rules.Sublist rules') :
    total isTerminal rules ≤ total isTerminal rules' := by
  refine total_le fun a w => ?_
  refine (expand_le_of_sublist h).trans ?_
  rw [expand_total]

end Total

end Weighting

end

end StochasticGrammar
