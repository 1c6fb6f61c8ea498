import StochasticGrammar.Proofs.Alphabet.Lookup
import StochasticGrammar.Proofs.NormalForm.Probability

/-!
# Sums over chains of unit rules

A chain is a row of unit rules, by their numbers, each of which leads to the
left side of the next one.  So two rules with the same sides make two chains.
The chains of one length have a finite sum, which is the total weight of so many
steps, and the sum over all chains is taken length by length.

If the sums over the chains of one and more rules are finite, they solve the
linear system of the unit rules, and the matrix of the system is regular: the
sums over the chains between nonterminals, the empty ones included, are minus
its inverse.  So an exact solver finds these sums and nothing else.

Main results: `tsum_chains`, `hasSum_chains_iff`, `hasSum_of_solve`.
-/

namespace StochasticGrammar.NormalForm

open Weighting
open scoped ENNReal

/-! ## Chains -/

section Chains

variable {α : Type}

/-- The rows of unit rules, by their numbers, that lead from one symbol to
another. -/
inductive IsChain (rules : List (Rule α)) (y : SymbolId) :
    SymbolId → List ℕ → Prop
  | nil : IsChain rules y y []
  | cons {ix : ℕ} {r : Rule α} {t : SymbolId} {rest : List ℕ} :
      rules[ix]? = some r → r.rhs = [t] → IsChain rules y t rest →
        IsChain rules y r.lhs (ix :: rest)

/-- The chains of one and more unit rules from one symbol to another. -/
def properChains (rules : List (Rule α)) (x y : SymbolId) : Set (List ℕ) :=
  {chain | chain ≠ [] ∧ IsChain rules y x chain}

/-- The chains of `n` unit rules from one symbol to another. -/
def chainsOf (rules : List (Rule α)) (n : ℕ) (x y : SymbolId) :
    Set (List ℕ) :=
  {chain | chain.length = n ∧ IsChain rules y x chain}

variable {rules : List (Rule α)} {x y : SymbolId}

theorem isChain_nil_iff : IsChain rules y x [] ↔ x = y := by
  constructor
  · rintro ⟨⟩
    rfl
  · rintro rfl
    exact .nil

theorem isChain_cons_iff {ix : ℕ} {rest : List ℕ} :
    IsChain rules y x (ix :: rest) ↔ ∃ r t, rules[ix]? = some r ∧
      r.lhs = x ∧ r.rhs = [t] ∧ IsChain rules y t rest := by
  constructor
  · rintro (_ | ⟨hRule, hRhs, hRest⟩)
    exact ⟨_, _, hRule, rfl, hRhs, hRest⟩
  · rintro ⟨r, t, hRule, rfl, hRhs, hRest⟩
    exact .cons hRule hRhs hRest

theorem isChain_valued_iff {φ : α → ℝ≥0∞} {chain : List ℕ} :
    ∀ {x : SymbolId}, IsChain (valued φ rules) y x chain ↔
      IsChain rules y x chain := by
  induction chain with
  | nil => exact isChain_nil_iff.trans isChain_nil_iff.symm
  | cons ix rest ih =>
      intro x
      rw [isChain_cons_iff, isChain_cons_iff, valued, List.getElem?_map]
      cases rules[ix]? with
      | none => simp
      | some r =>
          simp only [Option.map_some, Option.some.injEq, exists_eq_left',
            exists_and_left]
          exact and_congr_right fun _ => exists_congr fun t =>
            and_congr_right fun _ => ih

theorem properChains_valued (φ : α → ℝ≥0∞) :
    properChains (valued φ rules) x y = properChains rules x y := by
  ext chain
  exact and_congr_right fun _ => isChain_valued_iff

/-- A chain of some length is a unit rule and a chain that is shorter by one. -/
theorem cons_mem_chainsOf_iff {n ix : ℕ} {rest : List ℕ} :
    ix :: rest ∈ chainsOf rules (n + 1) x y ↔ ∃ r t, rules[ix]? = some r ∧
      r.lhs = x ∧ r.rhs = [t] ∧ rest ∈ chainsOf rules n t y := by
  constructor
  · rintro ⟨hLength, hChain⟩
    obtain ⟨r, t, hRule, hLhs, hRhs, hRest⟩ := isChain_cons_iff.1 hChain
    exact ⟨r, t, hRule, hLhs, hRhs, Nat.succ.inj hLength, hRest⟩
  · rintro ⟨r, t, hRule, hLhs, hRhs, hLength, hRest⟩
    exact ⟨congrArg Nat.succ hLength,
      isChain_cons_iff.2 ⟨r, t, hRule, hLhs, hRhs, hRest⟩⟩

variable {β : Type} [Semiring β]

/-- The product of the probabilities of the rules of a chain. -/
def chainProduct (rules : List (Rule β)) (chain : List ℕ) : β :=
  (chain.map fun ix => (rules[ix]?.map (·.probability)).getD 0).prod

theorem chainProduct_cons {rules : List (Rule β)} {ix : ℕ} {r : Rule β}
    (hRule : rules[ix]? = some r) (rest : List ℕ) :
    chainProduct rules (ix :: rest) =
      r.probability * chainProduct rules rest := by
  simp [chainProduct, hRule]

/-- A symbol that no unit rule leads to is not at the end of a chain. -/
theorem chainWeight_succ_eq_zero {rules : List (Rule β)}
    (hy : ∀ r ∈ rules, r.rhs ≠ [y]) (n : ℕ) :
    ∀ x, chainWeight rules (n + 1) x y = 0 := by
  have hStep : ∀ n x, (∀ t, t ≠ y → chainWeight rules n t y = 0) →
      chainWeight rules (n + 1) x y = 0 := by
    intro n x hNone
    refine (unitStep_congr fun r hr _ t hRhs => ?_).trans
      (unitStep_zero rules x)
    exact hNone t fun hEq => hy r hr (hEq ▸ hRhs)
  induction n with
  | zero => exact fun x => hStep 0 x fun t hNe => if_neg hNe
  | succ n ih => exact fun x => hStep (n + 1) x fun t _ => ih t

end Chains

noncomputable section

/-! ## The chains of one length -/

section Length

variable {rules : List (Rule ℝ≥0∞)} {x y : SymbolId}

theorem indicator_chainsOf_cons (n ix : ℕ) (rest : List ℕ) :
    (chainsOf rules (n + 1) x y).indicator (chainProduct rules) (ix :: rest) =
      (rules[ix]?.map (unitTerm (fun t =>
        (chainsOf rules n t y).indicator (chainProduct rules) rest) x)).getD
          0 := by
  by_cases hIn : ix :: rest ∈ chainsOf rules (n + 1) x y
  · rw [Set.indicator_of_mem hIn]
    obtain ⟨r, t, hRule, hLhs, hRhs, hRest⟩ := cons_mem_chainsOf_iff.1 hIn
    simp [hRule, chainProduct_cons, unitTerm, hRhs, hLhs,
      Set.indicator_of_mem hRest]
  · rw [Set.indicator_of_notMem hIn]
    cases hRule : rules[ix]? with
    | none => rfl
    | some r =>
        rw [Option.map_some, Option.getD_some]
        unfold unitTerm
        split
        · rename_i t hRhs
          by_cases hLhs : r.lhs = x
          · have hRest : rest ∉ chainsOf rules n t y := fun hRest =>
              hIn (cons_mem_chainsOf_iff.2 ⟨r, t, hRule, hLhs, hRhs, hRest⟩)
            simp only [if_pos hLhs, Set.indicator_of_notMem hRest, mul_zero]
          · rw [if_neg hLhs]
        · rfl

/-- The products over the chains of one length add up to the total weight of so
many steps. -/
theorem tsum_chainsOf (n : ℕ) : ∀ x,
    tsum ((chainsOf rules n x y).indicator (chainProduct rules)) =
      chainWeight rules n x y := by
  induction n with
  | zero =>
      intro x
      have hNil : ∀ chain : List ℕ, chain ≠ [] →
          (chainsOf rules 0 x y).indicator (chainProduct rules) chain = 0 :=
        fun chain hNe => Set.indicator_of_notMem
          (fun hMem => hNe (List.length_eq_zero_iff.1 hMem.1)) _
      rw [tsum_eq_single [] hNil, chainWeight]
      by_cases hEq : x = y
      · have hMem : [] ∈ chainsOf rules 0 x y := ⟨rfl, isChain_nil_iff.2 hEq⟩
        rw [if_pos hEq, Set.indicator_of_mem hMem]
        simp [chainProduct]
      · rw [if_neg hEq, Set.indicator_of_notMem
          fun hMem => hEq (isChain_nil_iff.1 hMem.2)]
  | succ n ih =>
      intro x
      have hCons : Function.Injective fun q : ℕ × List ℕ => q.1 :: q.2 := by
        rintro ⟨ix, rest⟩ ⟨ix', rest'⟩ h
        simpa using h
      have hRange : Function.support
          ((chainsOf rules (n + 1) x y).indicator (chainProduct rules)) ⊆
            Set.range fun q : ℕ × List ℕ => q.1 :: q.2 := by
        intro chain hChain
        have hMem := Set.mem_of_indicator_ne_zero hChain
        cases chain with
        | nil => cases hMem.1
        | cons ix rest => exact ⟨(ix, rest), rfl⟩
      rw [← hCons.tsum_eq hRange]
      simp only [indicator_chainsOf_cons]
      rw [ENNReal.tsum_prod (f := fun (ix : ℕ) (rest : List ℕ) =>
        (rules[ix]?.map (unitTerm (fun t =>
          (chainsOf rules n t y).indicator (chainProduct rules) rest)
            x)).getD 0)]
      have hRule : ∀ ix : ℕ, (tsum fun rest => (rules[ix]?.map (unitTerm
          (fun t => (chainsOf rules n t y).indicator (chainProduct rules) rest)
            x)).getD 0) = (rules[ix]?.map (unitTerm (fun t =>
              chainWeight rules n t y) x)).getD 0 := by
        intro ix
        cases rules[ix]? with
        | none => simp
        | some r =>
            simp only [Option.map_some, Option.getD_some, tsum_unitTerm, ih]
      simp only [hRule]
      rw [ParseTree.tsum_getElem?]
      rfl

/-- The sum over all chains is taken length by length. -/
theorem tsum_chains (rules : List (Rule ℝ≥0∞)) (x y : SymbolId) :
    (tsum fun chain : properChains rules x y => chainProduct rules chain) =
      tsum fun n => chainWeight rules (n + 1) x y := by
  have hOnce : ∀ chain : List ℕ,
      (tsum fun n => (chainsOf rules (n + 1) x y).indicator
        (chainProduct rules) chain) =
      (properChains rules x y).indicator (chainProduct rules) chain := by
    intro chain
    cases chain with
    | nil =>
        have hNone : ∀ n, (chainsOf rules (n + 1) x y).indicator
            (chainProduct rules) [] = 0 := fun n =>
          Set.indicator_of_notMem (fun hMem => by cases hMem.1) _
        rw [Set.indicator_of_notMem fun hMem => hMem.1 rfl]
        simp only [hNone, tsum_zero]
    | cons ix rest =>
        rw [tsum_eq_single rest.length fun n hNe => Set.indicator_of_notMem
          (fun hMem => hNe (Nat.succ.inj hMem.1).symm) _]
        by_cases hChain : IsChain rules y x (ix :: rest)
        · have hOf : ix :: rest ∈ chainsOf rules (rest.length + 1) x y :=
            ⟨rfl, hChain⟩
          have hProper : ix :: rest ∈ properChains rules x y :=
            ⟨List.cons_ne_nil _ _, hChain⟩
          rw [Set.indicator_of_mem hOf, Set.indicator_of_mem hProper]
        · rw [Set.indicator_of_notMem fun hMem => hChain hMem.2,
            Set.indicator_of_notMem fun hMem => hChain hMem.2]
  simp only [← tsum_chainsOf]
  rw [ENNReal.tsum_comm]
  simp only [hOnce]
  exact tsum_subtype _ _

end Length

/-! ## Chains with real probabilities -/

section Real

variable {rules : List (Rule ℝ)} {x y : SymbolId}
  (hNonneg : ∀ r ∈ rules, 0 ≤ r.probability)

include hNonneg

theorem chainProduct_nonneg (chain : List ℕ) :
    0 ≤ chainProduct rules chain := by
  refine List.prod_nonneg fun p hp => ?_
  obtain ⟨ix, _, rfl⟩ := List.mem_map.1 hp
  cases hRule : rules[ix]? with
  | none => exact le_rfl
  | some r => exact hNonneg r (List.mem_of_getElem? hRule)

theorem chainProduct_ofReal (chain : List ℕ) :
    chainProduct (valued ENNReal.ofReal rules) chain =
      ENNReal.ofReal (chainProduct rules chain) := by
  induction chain with
  | nil => simp [chainProduct]
  | cons ix rest ih =>
      cases hRule : rules[ix]? with
      | none => simp [chainProduct, valued, hRule]
      | some r =>
          have hValued : (valued ENNReal.ofReal rules)[ix]? =
              some ⟨r.lhs, r.rhs, ENNReal.ofReal r.probability⟩ := by
            simp [valued, hRule]
          rw [chainProduct_cons hRule, chainProduct_cons hValued, ih,
            ENNReal.ofReal_mul (hNonneg r (List.mem_of_getElem? hRule))]

/-- The products over the chains add up to a number exactly if the total weights
of one and more steps do. -/
theorem hasSum_chains_iff {p : ℝ} :
    HasSum (fun chain : properChains rules x y => chainProduct rules chain) p ↔
      HasSum (fun n => chainWeight rules (n + 1) x y) p := by
  have hChains := tsum_chains (valued ENNReal.ofReal rules) x y
  rw [properChains_valued] at hChains
  simp only [chainProduct_ofReal hNonneg, chainWeight_ofReal hNonneg]
    at hChains
  rw [hasSum_iff_tsum_ofReal fun _ => chainProduct_nonneg hNonneg _,
    hasSum_iff_tsum_ofReal fun n => chainWeight_nonneg hNonneg (n + 1) y x,
    hChains]

theorem summable_chains_iff :
    (Summable fun chain : properChains rules x y => chainProduct rules chain) ↔
      Summable fun n => chainWeight rules n x y := by
  rw [← summable_nat_add_iff 1]
  exact exists_congr fun _ => hasSum_chains_iff hNonneg

end Real

/-! ## The linear system -/

section System

variable {al : Alphabet} {rules : List (Rule ℝ)}

/-- The sum over the chains of one and more unit rules. -/
def properTotal (rules : List (Rule ℝ)) (x y : SymbolId) : ℝ :=
  tsum fun n => chainWeight rules (n + 1) x y

theorem chainTotal_eq_add_properTotal
    (hFinite : ∀ x y, Summable fun n => chainWeight rules n x y)
    (x y : SymbolId) :
    chainTotal rules x y = (if x = y then 1 else 0) + properTotal rules x y :=
  (hFinite x y).tsum_eq_zero_add

/-- A chain is a single rule, or a rule and a chain. -/
theorem properTotal_eq
    (hFinite : ∀ x y, Summable fun n => chainWeight rules n x y)
    (x y : SymbolId) :
    properTotal rules x y = unitTotal rules x y +
      unitStep rules (fun t => properTotal rules t y) x := by
  have hFirst := chainTotal_eq hFinite x y
  simp only [chainTotal_eq_add_properTotal hFinite] at hFirst
  rw [unitStep_add, unitStep_ite] at hFirst
  exact add_left_cancel hFirst

/-- If terminals have the value zero, a step is a sum over the rows. -/
theorem unitStep_eq_sum_rows (hal : al.WellFormed)
    (hOver : ∀ r ∈ rules, Over al r) {f : SymbolId → ℝ}
    (hf : ∀ t, al.isTerminal t = true → f t = 0) (x : SymbolId) :
    unitStep rules f x = ∑ k : Fin (al.ids .nonterminal).length,
      unitTotal rules x ((al.ids .nonterminal).get k) *
        f ((al.ids .nonterminal).get k) := by
  have hTargets : ∀ r ∈ rules, ∀ t ∈ r.rhs, t ∈ columns al :=
    fun r hr t ht => mem_columns.2 (hOver r hr t (by simp [ht]))
  have hTerminals : ((al.ids .terminal).map fun t =>
      unitTotal rules x t * f t).sum = 0 := by
    refine List.sum_eq_zero fun p hp => ?_
    obtain ⟨t, ht, rfl⟩ := List.mem_map.1 hp
    rw [hf t ((Alphabet.isTerminal_iff al t).2 ht), mul_zero]
  rw [unitStep_eq_sum (nodup_columns hal) hTargets, columns, List.map_append,
    List.sum_append, hTerminals, add_zero, ← Fin.sum_univ_fun_getElem]
  rfl

/-- No chain begins where no rule does. -/
theorem chainWeight_succ_of_lhs_ne {x : SymbolId}
    (hx : ∀ r ∈ rules, r.lhs ≠ x) (n : ℕ) (y : SymbolId) :
    chainWeight rules (n + 1) x y = 0 :=
  unitStep_eq_zero hx _

theorem properTotal_of_isTerminal
    (hHead : ∀ r ∈ rules, al.isTerminal r.lhs = false) {t : SymbolId}
    (ht : al.isTerminal t = true) (y : SymbolId) :
    properTotal rules t y = 0 := by
  have hNone : ∀ r ∈ rules, r.lhs ≠ t := by
    rintro r hr rfl
    rw [hHead r hr] at ht
    cases ht
  simp only [properTotal, chainWeight_succ_of_lhs_ne hNone, tsum_zero]

/-- If the sums are finite for the rows and the columns, all are. -/
theorem summable_chainWeight_of_rows (hOver : ∀ r ∈ rules, Over al r)
    (hHead : ∀ r ∈ rules, al.isTerminal r.lhs = false)
    (hFinite : ∀ x ∈ al.ids .nonterminal, ∀ y, al.hasId y = true →
      Summable fun n => chainWeight rules n x y) (x y : SymbolId) :
    Summable fun n => chainWeight rules n x y := by
  have hNone : (∀ n, chainWeight rules (n + 1) x y = 0) →
      Summable fun n => chainWeight rules n x y := by
    intro hZero
    rw [← summable_nat_add_iff 1]
    simp only [hZero]
    exact summable_zero
  by_cases hx : x ∈ al.ids .nonterminal
  · by_cases hy : al.hasId y = true
    · exact hFinite x hx y hy
    · refine hNone fun n => chainWeight_succ_eq_zero (fun r hr hRhs => hy ?_) n x
      exact hOver r hr y (by simp [hRhs])
  · refine hNone fun n => chainWeight_succ_of_lhs_ne ?_ n y
    rintro r hr rfl
    rcases (Alphabet.hasId_iff_mem_ids al r.lhs).1 (hOver r hr r.lhs (by simp))
      with hMem | hMem
    · exact hx hMem
    · rw [← Alphabet.isTerminal_iff, hHead r hr] at hMem
      cases hMem

/-- What the matrix of the system makes of a column. -/
theorem mulVec_subOne (rows : List SymbolId) (v : Fin rows.length → ℝ)
    (i : Fin rows.length) :
    (toMatrix (unitMatrix rules rows rows).subOne).mulVec v i =
      (∑ k : Fin rows.length, unitTotal rules (rows.get i) (rows.get k) * v k) -
        v i := by
  simp only [Matrix.mulVec, dotProduct, toMatrix, Matrix.of_apply, Mat.subOne,
    Mat.entry_ofFn, entry_unitMatrix, List.get_eq_getElem, Mat.delta, sub_mul,
    ite_mul, one_mul, zero_mul, Finset.sum_sub_distrib, Finset.sum_ite_eq,
    Finset.mem_univ, if_true]

section Finite

variable (hal : al.WellFormed) (hOver : ∀ r ∈ rules, Over al r)
  (hHead : ∀ r ∈ rules, al.isTerminal r.lhs = false)
  (hFinite : ∀ x y, Summable fun n => chainWeight rules n x y)

include hal hOver hHead hFinite

/-- The sums over proper chains solve the equations that the solver is given. -/
theorem properTotal_eq_sum_rows (x y : SymbolId) :
    properTotal rules x y = unitTotal rules x y +
      ∑ k : Fin (al.ids .nonterminal).length,
        unitTotal rules x ((al.ids .nonterminal).get k) *
          properTotal rules ((al.ids .nonterminal).get k) y := by
  rw [← unitStep_eq_sum_rows hal hOver
    fun t ht => properTotal_of_isTerminal hHead ht y]
  exact properTotal_eq hFinite x y

/-- The sums over all chains between nonterminals, with the sign changed, are
an inverse of the matrix of the system. -/
theorem subOne_mul_chainTotal :
    toMatrix (unitMatrix rules (al.ids .nonterminal)
        (al.ids .nonterminal)).subOne *
      Matrix.of (fun i j => -chainTotal rules ((al.ids .nonterminal).get i)
        ((al.ids .nonterminal).get j)) = 1 := by
  have hNodup : (al.ids .nonterminal).Nodup :=
    (List.nodup_append.1 (nodup_columns hal)).1
  ext i j
  have hTerminal : ∀ t, al.isTerminal t = true →
      chainTotal rules t ((al.ids .nonterminal).get j) = 0 := by
    intro t ht
    rw [chainTotal_eq_add_properTotal hFinite,
      properTotal_of_isTerminal hHead ht, add_zero, if_neg]
    rintro rfl
    exact Bool.false_ne_true
      ((hal.not_isTerminal (List.get_mem _ j)).symm.trans ht)
  have hRow := chainTotal_eq hFinite ((al.ids .nonterminal).get i)
    ((al.ids .nonterminal).get j)
  rw [unitStep_eq_sum_rows hal hOver hTerminal] at hRow
  have hOne : (1 : Matrix (Fin (al.ids .nonterminal).length)
      (Fin (al.ids .nonterminal).length) ℝ) i j =
      if (al.ids .nonterminal).get i = (al.ids .nonterminal).get j then 1
        else 0 := by
    rw [Matrix.one_apply]
    exact if_congr hNodup.injective_get.eq_iff.symm rfl rfl
  show (toMatrix (unitMatrix rules (al.ids .nonterminal)
    (al.ids .nonterminal)).subOne).mulVec (fun k => -chainTotal rules
      ((al.ids .nonterminal).get k) ((al.ids .nonterminal).get j)) i = _
  rw [mulVec_subOne, hOne]
  simp only [mul_neg, Finset.sum_neg_distrib]
  linarith

/-- The matrix of the system is regular. -/
theorem isUnit_subOne :
    IsUnit (toMatrix (unitMatrix rules (al.ids .nonterminal)
      (al.ids .nonterminal)).subOne) :=
  IsUnit.of_mul_eq_one _ (subOne_mul_chainTotal hal hOver hHead hFinite)

/-- With exact arithmetic, a solution is found. -/
theorem exists_chains_exact :
    ∃ c, Chains.solve exactOptions al rules = .ok c :=
  exists_chains_of_isUnit ((Matrix.isUnit_iff_isUnit_det _).1
    (isUnit_subOne hal hOver hHead hFinite))

/-- What solves the equations that the solver is given is made of the sums over
proper chains. -/
theorem entry_eq_properTotal
    {x : Mat ℝ (al.ids .nonterminal).length (columns al).length}
    (hx : ∀ i j, x.entry i j = unitTotal rules ((al.ids .nonterminal).get i)
        ((columns al).get j) +
      ∑ k, unitTotal rules ((al.ids .nonterminal).get i)
        ((al.ids .nonterminal).get k) * x.entry k j)
    (i : Fin (al.ids .nonterminal).length) (j : Fin (columns al).length) :
    x.entry i j = properTotal rules ((al.ids .nonterminal).get i)
      ((columns al).get j) := by
  have hColumn : ∀ k : Fin (al.ids .nonterminal).length,
      unitTotal rules ((al.ids .nonterminal).get k) ((columns al).get j) =
      properTotal rules ((al.ids .nonterminal).get k) ((columns al).get j) -
        ∑ l : Fin (al.ids .nonterminal).length,
          unitTotal rules ((al.ids .nonterminal).get k)
            ((al.ids .nonterminal).get l) *
              properTotal rules ((al.ids .nonterminal).get l)
                ((columns al).get j) :=
    fun k => eq_sub_of_add_eq
      (properTotal_eq_sum_rows hal hOver hHead hFinite _ _).symm
  have hSame : (fun k => x.entry k j) = fun k =>
      properTotal rules ((al.ids .nonterminal).get k) ((columns al).get j) := by
    refine Matrix.mulVec_injective_of_isUnit
      (isUnit_subOne hal hOver hHead hFinite) (funext fun k => ?_)
    rw [mulVec_subOne, mulVec_subOne]
    linarith [hx k j, hColumn k]
  exact congrFun hSame i

end Finite

/-- If the sums over the chains of one and more unit rules are finite, the
matrix of the linear system is regular, and an exact solver finds the sums: for
a nonterminal in its row, for any symbol in its column. -/
theorem hasSum_of_solve {options : Options ℝ} (hal : al.WellFormed)
    (hOver : ∀ r ∈ rules, Over al r)
    (hHead : ∀ r ∈ rules, al.isTerminal r.lhs = false)
    (hNonneg : ∀ r ∈ rules, 0 ≤ r.probability)
    (hFinite : ∀ x ∈ al.ids .nonterminal, ∀ y, al.hasId y = true →
      Summable fun chain : properChains rules x y => chainProduct rules chain)
    (hExact : IsExact options.solveUnits) :
    IsUnit (toMatrix (unitMatrix rules (al.ids .nonterminal)
      (al.ids .nonterminal)).subOne) ∧
    ∀ c, Chains.solve options al rules = .ok c →
      ∀ x ∈ al.ids .nonterminal, ∀ y, al.hasId y = true →
        ∃ (i : Fin c.rows.length) (j : Fin c.targets.length),
          al.rank? x = some i.val ∧ (columns al)[j.val]? = some y ∧
          c.total? x y = some (c.totals.entry i j) ∧
          HasSum (fun chain : properChains rules x y =>
            chainProduct rules chain) (c.totals.entry i j) := by
  have hAll : ∀ x y, Summable fun n => chainWeight rules n x y :=
    summable_chainWeight_of_rows hOver hHead fun x hx y hy =>
      (summable_chains_iff hNonneg).1 (hFinite x hx y hy)
  refine ⟨isUnit_subOne hal hOver hHead hAll, ?_⟩
  intro c hSolve x hx y hy
  obtain ⟨totals, rfl, hTotals⟩ := totals_eq hExact hSolve
  obtain ⟨i, hi, rfl⟩ := List.getElem_of_mem hx
  obtain ⟨j, hj, rfl⟩ := List.getElem_of_mem (mem_columns.2 hy)
  have hNodup := nodup_columns hal
  refine ⟨⟨i, hi⟩, ⟨j, hj⟩, ?_, List.getElem?_eq_getElem hj,
    total?_of_mem (c := ⟨al.ids .nonterminal, columns al, totals⟩)
      (List.nodup_append.1 hNodup).1 hNodup ⟨i, hi⟩ ⟨j, hj⟩, ?_⟩
  · rw [hal.distinct.rank?_eq_some_iff]
    have hRow : i < al.nonterminals.length := by
      simpa [Alphabet.ids, Alphabet.row] using hi
    exact ⟨.nonterminal, al.nonterminals[i], List.getElem?_eq_getElem hRow,
      (List.getElem_map _).symm⟩
  · rw [hasSum_chains_iff hNonneg,
      entry_eq_properTotal hal hOver hHead hAll hTotals]
    exact ((summable_nat_add_iff 1).2 (hAll _ _)).hasSum

end System

/-! ## A small system -/

/-- A symbol with two equal rules to itself, which derives the empty symbol:
`S -> A`, `A -> A` twice, `A -> e` and `A -> S a`. -/
def loops (p q : ℝ) : List (Rule ℝ) :=
  [⟨startId, [3], p⟩, ⟨3, [3], q⟩, ⟨3, [3], q⟩, ⟨3, [emptyId], q⟩,
    ⟨3, [startId, 2], q⟩]

theorem loops_nonneg : ∀ r ∈ loops (1 / 2) (1 / 4), 0 ≤ r.probability := by
  intro r hr
  simp only [loops, List.mem_cons, List.not_mem_nil, or_false] at hr
  rcases hr with rfl | rfl | rfl | rfl | rfl <;> norm_num

theorem summable_loops (x y : SymbolId) :
    Summable fun n => chainWeight (loops (1 / 2) (1 / 4)) n x y := by
  refine summable_chainWeight loops_nonneg (q := 3 / 4) (fun x => ?_)
    (by norm_num) x y
  simp only [unitStep, unitTerm, loops, List.map_cons, List.map_nil,
    List.sum_cons, List.sum_nil]
  by_cases hStart : startId = x
  · rw [← hStart]
    norm_num [startId]
  · by_cases hOther : 3 = x
    · simp [← hOther, startId]
      norm_num
    · norm_num [hStart, hOther]

/-- The chains from the start symbol to the empty symbol. -/
theorem hasSum_of_solve_loops : ∃ c,
    Chains.solve exactOptions Grammar.twoSymbols (loops (1 / 2) (1 / 4)) =
      .ok c ∧
    ∃ p, c.total? startId emptyId = some p ∧
      HasSum (fun chain : properChains (loops (1 / 2) (1 / 4)) startId emptyId =>
        chainProduct (loops (1 / 2) (1 / 4)) chain) p := by
  have hOver : ∀ r ∈ loops (1 / 2) (1 / 4), Over Grammar.twoSymbols r := by
    intro r hr
    simp only [loops, List.mem_cons, List.not_mem_nil, or_false] at hr
    rcases hr with rfl | rfl | rfl | rfl | rfl <;> unfold Over <;> decide
  have hHead : ∀ r ∈ loops (1 / 2) (1 / 4),
      Grammar.twoSymbols.isTerminal r.lhs = false := by
    intro r hr
    simp only [loops, List.mem_cons, List.not_mem_nil, or_false] at hr
    rcases hr with rfl | rfl | rfl | rfl | rfl <;> rfl
  have hExact : IsExact exactOptions.solveUnits := isExact_solveByInverse
  obtain ⟨c, hSolve⟩ := exists_chains_exact Grammar.wellFormed_twoSymbols hOver
    hHead summable_loops
  obtain ⟨_, hSums⟩ := hasSum_of_solve Grammar.wellFormed_twoSymbols hOver hHead
    loops_nonneg (fun x _ y _ => (summable_chains_iff loops_nonneg).2
      (summable_loops x y)) hExact
  obtain ⟨i, j, _, _, hTotal, hSum⟩ := hSums c hSolve startId (by decide)
    emptyId (by decide)
  exact ⟨c, hSolve, _, hTotal, hSum⟩

end

end StochasticGrammar.NormalForm
