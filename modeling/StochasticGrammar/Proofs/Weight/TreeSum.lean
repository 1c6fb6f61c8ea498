import Mathlib.Topology.Algebra.InfiniteSum.ENNReal
import StochasticGrammar.Proofs.Tree.Repetition
import StochasticGrammar.Proofs.Weight.Basic

/-!
# Sums over derivation trees

A tree has the product of the values of its rules as its value.  The values of
all derivation trees of a symbol and a word add up to the total weight, which
is how total weights are related to parsing.

One direction is leastness, since the sums satisfy the equations.  For the
other one, trees of bounded size are summed up first, and their sums stay below
every solution.

Main results: `tsum_trees`, `tsum_branchesOf`.
-/

namespace StochasticGrammar

open scoped ENNReal

namespace ParseTree

variable {α : Type}

noncomputable section

/-- The value of the rule of a node. -/
def ruleValue (g : Grammar α) (φ : α → ℝ≥0∞) (rule : Option Int) : ℝ≥0∞ :=
  match rule with
  | none => 1
  | some ix => ((g.rule? ix).map fun r => φ r.probability).getD 0

mutual

/-- The product of the values of the rules in a tree. -/
def value (g : Grammar α) (φ : α → ℝ≥0∞) : ParseTree → ℝ≥0∞
  | node e ts => ruleValue g φ e.rule * valueList g φ ts

/-- The product of the values of the rules in a row of trees. -/
def valueList (g : Grammar α) (φ : α → ℝ≥0∞) : List ParseTree → ℝ≥0∞
  | [] => 1
  | t :: ts => value g φ t * valueList g φ ts

end

end

variable {g : Grammar α} {φ : α → ℝ≥0∞}

@[simp] theorem value_terminal (s : SymbolId) :
    (terminal s).value g φ = 1 := by
  simp [terminal, value, ruleValue, valueList]

theorem value_branch {ix : Nat} {r : Rule α} (h : g.rules[ix]? = some r)
    (s : SymbolId) (ts : List ParseTree) :
    (branch ix s ts).value g φ = φ r.probability * valueList g φ ts := by
  simp [branch, value, ruleValue, Grammar.rule?, h]

/-- If no rule is without value, a derivation tree is not without value. -/
theorem IsDerivation.value_ne_zero {t : ParseTree} (h : t.IsDerivation g)
    (hValue : ∀ r ∈ g.rules, φ r.probability ≠ 0) : t.value g φ ≠ 0 := by
  have hRow : ∀ ts : List ParseTree, (∀ t ∈ ts, t.value g φ ≠ 0) →
      valueList g φ ts ≠ 0 := by
    intro ts
    induction ts with
    | nil => simp [valueList]
    | cons t ts ih =>
        intro hTrees
        rw [valueList]
        exact mul_ne_zero (hTrees t (by simp))
          (ih fun u hu => hTrees u (by simp [hu]))
  induction h with
  | terminal _ => simp
  | branch hRule _ _ ih =>
      rw [value_branch hRule]
      exact mul_ne_zero (hValue _ (List.mem_of_getElem? hRule)) (hRow _ ih)

/-! ## Sets of trees -/

/-- The derivation trees of a symbol and a word that satisfy a condition. -/
def trees (g : Grammar α) (p : ParseTree → Prop) (x : SymbolId)
    (w : List SymbolId) : Set ParseTree :=
  {t | g.DerivesWord x w t ∧ p t}

/-- The rows of derivation trees of a row of symbols and a word. -/
def rows (g : Grammar α) (p : ParseTree → Prop) (rhs : List SymbolId)
    (w : List SymbolId) : Set (List ParseTree) :=
  {ts | ts.map symbol = rhs ∧ (∀ t ∈ ts, t.IsDerivation g ∧ p t) ∧
    wordList ts = w}

/-- The derivation trees that begin with a rule, over trees that satisfy a
condition. -/
def branches (g : Grammar α) (p : ParseTree → Prop) (x : SymbolId)
    (w : List SymbolId) : Set ParseTree :=
  {t | ∃ ix r ts, g.rules[ix]? = some r ∧ r.lhs = x ∧
    ts ∈ rows g p r.rhs w ∧ t = branch ix x ts}

/-- The sum over the derivation trees that satisfy a condition. -/
noncomputable def treeSum (g : Grammar α) (φ : α → ℝ≥0∞)
    (p : ParseTree → Prop) : Weighting :=
  fun x w => tsum ((trees g p x w).indicator (value g φ))

variable {p : ParseTree → Prop}

theorem cons_mem_rows_iff {x : SymbolId} {rest w : List SymbolId}
    {t : ParseTree} {ts : List ParseTree} :
    t :: ts ∈ rows g p (x :: rest) w ↔
      ∃ u v, w = u ++ v ∧ t ∈ trees g p x u ∧ ts ∈ rows g p rest v := by
  constructor
  · rintro ⟨hSymbols, hRows, hWord⟩
    rw [List.map_cons, List.cons.injEq] at hSymbols
    rw [wordList_cons] at hWord
    obtain ⟨hHead, hTail⟩ := List.forall_mem_cons.1 hRows
    exact ⟨t.word, wordList ts, hWord.symm,
      ⟨⟨hHead.1, hSymbols.1, rfl⟩, hHead.2⟩, hSymbols.2, hTail, rfl⟩
  · rintro ⟨u, v, rfl, ⟨ht, hp⟩, hSymbols, hRows, rfl⟩
    refine ⟨?_, List.forall_mem_cons.2 ⟨⟨ht.isDerivation, hp⟩, hRows⟩, ?_⟩
    · rw [List.map_cons, ht.symbol_eq, hSymbols]
    · rw [wordList_cons, ht.word_eq]

/-- Only the split at the word of the first tree counts. -/
theorem indicator_cons (x : SymbolId) (rest w : List SymbolId) (t : ParseTree)
    (ts : List ParseTree) :
    (rows g p (x :: rest) w).indicator (valueList g φ) (t :: ts) =
      ∑ i ∈ Finset.range (w.length + 1),
        (trees g p x (w.take i)).indicator (value g φ) t *
          (rows g p rest (w.drop i)).indicator (valueList g φ) ts := by
  by_cases hMem : t :: ts ∈ rows g p (x :: rest) w
  · rw [Set.indicator_of_mem hMem]
    obtain ⟨u, v, rfl, ht, hts⟩ := cons_mem_rows_iff.1 hMem
    have hOther : ∀ i ∈ Finset.range ((u ++ v).length + 1), i ≠ u.length →
        (trees g p x ((u ++ v).take i)).indicator (value g φ) t *
          (rows g p rest ((u ++ v).drop i)).indicator (valueList g φ) ts
            = 0 := by
      intro i hi hNe
      have hLt := Finset.mem_range.1 hi
      have hNot : t ∉ trees g p x ((u ++ v).take i) := by
        rintro ⟨hd, _⟩
        have hLength := congrArg List.length
          (hd.word_eq.symm.trans ht.1.word_eq)
        rw [List.length_take] at hLength
        omega
      rw [Set.indicator_of_notMem hNot, zero_mul]
    rw [Finset.sum_eq_single_of_mem u.length (by simp) hOther,
      List.take_left, List.drop_left, Set.indicator_of_mem ht,
      Set.indicator_of_mem hts, valueList]
  · rw [Set.indicator_of_notMem hMem]
    refine (Finset.sum_eq_zero fun i _ => ?_).symm
    by_cases ht : t ∈ trees g p x (w.take i)
    · have hts : ts ∉ rows g p rest (w.drop i) := by
        intro hts
        exact hMem (cons_mem_rows_iff.2
          ⟨_, _, (List.take_append_drop i w).symm, ht, hts⟩)
      rw [Set.indicator_of_notMem hts, mul_zero]
    · rw [Set.indicator_of_notMem ht, zero_mul]

/-- The sum over rows of trees is the weight of the row of symbols. -/
theorem tsum_rows (rhs w : List SymbolId) :
    tsum ((rows g p rhs w).indicator (valueList g φ)) =
      Weighting.row (treeSum g φ p) rhs w := by
  induction rhs generalizing w with
  | nil =>
      have hOther : ∀ ts : List ParseTree, ts ≠ [] →
          (rows g p [] w).indicator (valueList g φ) ts = 0 := by
        intro ts hNe
        refine Set.indicator_of_notMem (fun hMem => hNe ?_) _
        exact List.map_eq_nil_iff.1 hMem.1
      rw [tsum_eq_single [] hOther, Weighting.row_nil, Weighting.silent]
      by_cases hWord : w = []
      · rw [if_pos hWord, Set.indicator_of_mem, valueList]
        exact ⟨rfl, by simp, by rw [hWord, wordList_nil]⟩
      · rw [if_neg hWord, Set.indicator_of_notMem]
        rintro ⟨_, _, hEmpty⟩
        rw [wordList_nil] at hEmpty
        exact hWord hEmpty.symm
  | cons x rest ih =>
      have hCons : Function.Injective
          fun q : ParseTree × List ParseTree => q.1 :: q.2 := by
        rintro ⟨t, ts⟩ ⟨u, us⟩ h
        simpa using h
      have hRange : Function.support
          ((rows g p (x :: rest) w).indicator (valueList g φ)) ⊆
            Set.range fun q : ParseTree × List ParseTree => q.1 :: q.2 := by
        intro ts hts
        have hMem := Set.mem_of_indicator_ne_zero hts
        cases ts with
        | nil => simp [rows] at hMem
        | cons t ts => exact ⟨(t, ts), rfl⟩
      rw [← hCons.tsum_eq hRange]
      simp only [indicator_cons]
      rw [Summable.tsum_finsetSum fun _ _ => ENNReal.summable]
      refine Finset.sum_congr rfl fun i _ => ?_
      rw [ENNReal.tsum_prod (f := fun t ts =>
        (trees g p x (w.take i)).indicator (value g φ) t *
          (rows g p rest (w.drop i)).indicator (valueList g φ) ts)]
      simp only [ENNReal.tsum_mul_left, ENNReal.tsum_mul_right, ih]
      rfl

theorem tsum_getElem? {β : Type} (xs : List β) (f : β → ℝ≥0∞) :
    (tsum fun i : ℕ => (xs[i]?.map f).getD 0) = (xs.map f).sum := by
  induction xs with
  | nil => simp
  | cons x xs ih =>
      rw [tsum_eq_zero_add' ENNReal.summable]
      simp only [List.getElem?_cons_zero, List.getElem?_cons_succ, ih,
        Option.map_some, Option.getD_some, List.map_cons, List.sum_cons]

/-- The value of a rule over a row of trees. -/
noncomputable def rowValue (g : Grammar α) (φ : α → ℝ≥0∞)
    (p : ParseTree → Prop) (x : SymbolId) (w : List SymbolId)
    (ts : List ParseTree) (r : Rule α) : ℝ≥0∞ :=
  if r.lhs = x then
    φ r.probability * (rows g p r.rhs w).indicator (valueList g φ) ts
  else 0

/-- The derivation trees that begin with one of some rules, over trees that
satisfy a condition. -/
def branchesOf (g : Grammar α) (q : Rule α → Bool) (p : ParseTree → Prop)
    (x : SymbolId) (w : List SymbolId) : Set ParseTree :=
  {t | ∃ ix r ts, g.rules[ix]? = some r ∧ q r = true ∧ r.lhs = x ∧
    ts ∈ rows g p r.rhs w ∧ t = branch ix x ts}

theorem branch_mem_branchesOf_iff {q : Rule α → Bool} {x : SymbolId}
    {w : List SymbolId} {ix : Nat} {ts : List ParseTree} :
    branch ix x ts ∈ branchesOf g q p x w ↔ ∃ r, g.rules[ix]? = some r ∧
      q r = true ∧ r.lhs = x ∧ ts ∈ rows g p r.rhs w := by
  constructor
  · rintro ⟨ix', r, ts', hRule, hq, hLhs, hMem, hEq⟩
    simp only [branch, node.injEq, Entry.mk.injEq, Option.some.injEq,
      Int.natCast_inj, true_and, and_true] at hEq
    obtain ⟨rfl, rfl⟩ := hEq
    exact ⟨r, hRule, hq, hLhs, hMem⟩
  · rintro ⟨r, hRule, hq, hLhs, hMem⟩
    exact ⟨ix, r, ts, hRule, hq, hLhs, hMem, rfl⟩

theorem indicator_branch (q : Rule α → Bool) (x : SymbolId)
    (w : List SymbolId) (ix : Nat) (ts : List ParseTree) :
    (branchesOf g q p x w).indicator (value g φ) (branch ix x ts) =
      (g.rules[ix]?.map fun r =>
        if q r then rowValue g φ p x w ts r else 0).getD 0 := by
  by_cases hMem : branch ix x ts ∈ branchesOf g q p x w
  · obtain ⟨r, hRule, hq, hLhs, hRows⟩ := branch_mem_branchesOf_iff.1 hMem
    rw [Set.indicator_of_mem hMem, value_branch hRule, hRule,
      Option.map_some, Option.getD_some, if_pos hq, rowValue, if_pos hLhs,
      Set.indicator_of_mem hRows]
  · rw [Set.indicator_of_notMem hMem]
    cases hRule : g.rules[ix]? with
    | none => rfl
    | some r =>
        rw [Option.map_some, Option.getD_some]
        split
        · rename_i hq
          rw [rowValue]
          by_cases hLhs : r.lhs = x
          · have hRows : ts ∉ rows g p r.rhs w := fun hRows =>
              hMem (branch_mem_branchesOf_iff.2 ⟨r, hRule, hq, hLhs, hRows⟩)
            rw [if_pos hLhs, Set.indicator_of_notMem hRows, mul_zero]
          · rw [if_neg hLhs]
        · rfl

/-- The sum over the trees that begin with one of some rules is what these rules
make of the sums over the trees below. -/
theorem tsum_branchesOf (q : Rule α → Bool) (x : SymbolId)
    (w : List SymbolId) :
    tsum ((branchesOf g q p x w).indicator (value g φ)) =
      Weighting.expand (Weighting.valued φ (g.rules.filter q))
        (treeSum g φ p) x w := by
  have hBranch : Function.Injective
      fun b : ℕ × List ParseTree => branch b.1 x b.2 := by
    rintro ⟨ix, ts⟩ ⟨ix', ts'⟩ h
    simp only [branch, node.injEq, Entry.mk.injEq, Option.some.injEq,
      Int.natCast_inj, true_and, and_true] at h
    rw [h.1, h.2]
  have hRange : Function.support
      ((branchesOf g q p x w).indicator (value g φ)) ⊆
        Set.range fun b : ℕ × List ParseTree => branch b.1 x b.2 := by
    intro t ht
    obtain ⟨ix, r, ts, _, _, _, _, rfl⟩ := Set.mem_of_indicator_ne_zero ht
    exact ⟨(ix, ts), rfl⟩
  rw [← hBranch.tsum_eq hRange]
  simp only [indicator_branch]
  rw [ENNReal.tsum_prod (f := fun (ix : ℕ) (ts : List ParseTree) =>
    (g.rules[ix]?.map fun r =>
      if q r then rowValue g φ p x w ts r else 0).getD 0)]
  have hRow : ∀ r : Rule α, (tsum fun ts => rowValue g φ p x w ts r) =
      Weighting.ruleWeight (treeSum g φ p) x w
        ⟨r.lhs, r.rhs, φ r.probability⟩ := by
    intro r
    unfold rowValue Weighting.ruleWeight
    by_cases hLhs : r.lhs = x
    · simp only [if_pos hLhs, ENNReal.tsum_mul_left, tsum_rows]
    · simp only [if_neg hLhs, tsum_zero]
  have hRule : ∀ ix : ℕ, (tsum fun ts => (g.rules[ix]?.map fun r =>
      if q r then rowValue g φ p x w ts r else 0).getD 0) =
        (g.rules[ix]?.map fun r => if q r then
          Weighting.ruleWeight (treeSum g φ p) x w
            ⟨r.lhs, r.rhs, φ r.probability⟩ else 0).getD 0 := by
    intro ix
    cases g.rules[ix]? with
    | none => simp
    | some r =>
        simp only [Option.map_some, Option.getD_some]
        by_cases hq : q r = true
        · simp only [if_pos hq, hRow]
        · simp only [if_neg hq, tsum_zero]
  simp only [hRule]
  rw [tsum_getElem?, Weighting.expand_filter]

/-- The sum over the trees that begin with a rule is what the rules make of the
sums over the trees below. -/
theorem tsum_branches (x : SymbolId) (w : List SymbolId) :
    tsum ((branches g p x w).indicator (value g φ)) =
      Weighting.expand (Weighting.valued φ g.rules) (treeSum g φ p) x w := by
  have hAll : branches g p x w = branchesOf g (fun _ => true) p x w := by
    ext t
    simp only [branches, branchesOf, Set.mem_ofPred_eq, true_and]
  rw [hAll, tsum_branchesOf, List.filter_true]

/-! ## All derivation trees -/

/-- A tree of a symbol that is no terminal begins with a rule. -/
theorem mem_branches {q : ParseTree → Prop} {x : SymbolId} {w : List SymbolId}
    {t : ParseTree} (hx : g.alphabet.isTerminal x = false)
    (hq : ∀ ix s ts u, p (.branch ix s ts) → u ∈ ts → q u)
    (ht : t ∈ trees g p x w) : t ∈ branches g q x w := by
  obtain ⟨hDerives, hp⟩ := ht
  obtain ⟨ix, r, ts, hRule, hSymbols, hRows, rfl⟩ :=
    hDerives.isDerivation.exists_branch (hDerives.symbol_eq ▸ hx)
  have hLhs : r.lhs = x := hDerives.symbol_eq
  refine ⟨ix, r, ts, hRule, hLhs, ⟨hSymbols, fun u hu =>
    ⟨hRows u hu, hq ix r.lhs ts u hp hu⟩, ?_⟩, by rw [hLhs]⟩
  rw [← hDerives.word_eq, word_branch]

section Total

variable (hHead : ∀ r ∈ g.rules, g.alphabet.isTerminal r.lhs = false)

include hHead

/-- A terminal has its leaf as its only tree. -/
theorem treeSum_terminal {x : SymbolId} (hx : g.alphabet.isTerminal x = true)
    (w : List SymbolId) [Decidable (p (.terminal x))] :
    treeSum g φ p x w = if p (.terminal x) then Weighting.leaf x w else 0 := by
  have hOnly : ∀ t ∈ trees g p x w, t = .terminal x := by
    rintro t ⟨ht, _⟩
    have hLeaf := ht.isDerivation.eq_leaf hHead (ht.symbol_eq ▸ hx)
    rwa [ht.symbol_eq] at hLeaf
  have hMem : .terminal x ∈ trees g p x w ↔
      w = (terminal x).word ∧ p (.terminal x) :=
    ⟨fun h => ⟨h.1.word_eq.symm, h.2⟩,
      fun h => ⟨⟨.terminal hx, rfl, h.1.symm⟩, h.2⟩⟩
  rw [treeSum, tsum_eq_single (.terminal x) fun t hNe =>
    Set.indicator_of_notMem (fun h => hNe (hOnly t h)) _]
  unfold Weighting.leaf
  by_cases hp : p (.terminal x)
  · by_cases hWord : w = (terminal x).word
    · rw [Set.indicator_of_mem (hMem.2 ⟨hWord, hp⟩), if_pos hp, if_pos hWord,
        value_terminal]
    · rw [Set.indicator_of_notMem fun h => hWord (hMem.1 h).1, if_pos hp,
        if_neg hWord]
  · rw [Set.indicator_of_notMem fun h => hp (hMem.1 h).2, if_neg hp]

/-- The sums over all trees satisfy the equations. -/
theorem total_le_treeSum :
    Weighting.total g.alphabet.isTerminal (Weighting.valued φ g.rules) ≤
      treeSum g φ fun _ => True := by
  refine Weighting.total_le fun x w => ?_
  have hLeaves : Weighting.withLeaves g.alphabet.isTerminal
      (treeSum g φ fun _ => True) = treeSum g φ fun _ => True := by
    funext y v
    by_cases hy : g.alphabet.isTerminal y = true
    · rw [Weighting.withLeaves_terminal hy, treeSum_terminal hHead hy,
        if_pos trivial]
    · rw [Weighting.withLeaves_nonterminal (by simpa using hy)]
  rw [hLeaves, ← tsum_branches]
  refine ENNReal.tsum_le_tsum fun t => ?_
  refine Set.indicator_le_indicator_of_subset ?_ (fun _ => zero_le) t
  rintro _ ⟨ix, r, ts, hRule, rfl, ⟨hSymbols, hRows, hWord⟩, rfl⟩
  exact ⟨⟨.branch hRule hSymbols fun t ht => (hRows t ht).1, rfl, by
    rw [word_branch, hWord]⟩, trivial⟩

/-- The sums over trees of bounded size stay below every solution. -/
theorem treeSum_nodeCount_le (n : Nat) :
    (treeSum g φ fun t => t.nodeCount ≤ n) ≤
      Weighting.totals g.alphabet.isTerminal
        (Weighting.valued φ g.rules) := by
  induction n with
  | zero =>
      intro x w
      have hNone : trees g (fun t => t.nodeCount ≤ 0) x w = ∅ := by
        refine Set.eq_empty_of_forall_notMem ?_
        rintro ⟨e, ts⟩ ⟨_, hCount⟩
        rw [nodeCount] at hCount
        omega
      rw [treeSum, hNone]
      simp
  | succ n ih =>
      intro x w
      by_cases hx : g.alphabet.isTerminal x = true
      · rw [treeSum_terminal hHead hx, Weighting.totals,
          Weighting.withLeaves_terminal hx]
        split
        · exact le_refl _
        · exact zero_le
      · rw [Bool.not_eq_true] at hx
        rw [Weighting.totals, Weighting.withLeaves_nonterminal hx,
          ← Weighting.expand_total]
        refine le_trans ?_ (Weighting.expand_mono ih x w)
        rw [← tsum_branches]
        refine ENNReal.tsum_le_tsum fun t => ?_
        refine Set.indicator_le_indicator_of_subset (fun t ht => ?_)
          (fun _ => zero_le) t
        refine mem_branches hx (fun ix s ts u hCount hu => ?_) ht
        have hBelow := nodeCount_le_of_mem hu
        rw [nodeCount_branch] at hCount
        omega

/-- The values of the derivation trees of a symbol and a word add up to the
total weight. -/
theorem tsum_trees (x : SymbolId) (w : List SymbolId) :
    treeSum g φ (fun _ => True) x w =
      Weighting.totals g.alphabet.isTerminal (Weighting.valued φ g.rules)
        x w := by
  apply le_antisymm
  · rw [treeSum, ENNReal.tsum_eq_iSup_sum]
    refine iSup_le fun s => ?_
    refine le_trans ?_ (treeSum_nodeCount_le hHead (s.sup nodeCount) x w)
    refine le_trans (Finset.sum_le_sum fun t ht => ?_) (ENNReal.sum_le_tsum s)
    by_cases hMem : t ∈ trees g (fun _ => True) x w
    · have hBounded : t ∈ trees g (fun t => t.nodeCount ≤ s.sup nodeCount)
          x w := ⟨hMem.1, Finset.le_sup ht⟩
      rw [Set.indicator_of_mem hMem, Set.indicator_of_mem hBounded]
    · rw [Set.indicator_of_notMem hMem]
      exact zero_le
  · by_cases hx : g.alphabet.isTerminal x = true
    · rw [Weighting.totals, Weighting.withLeaves_terminal hx,
        treeSum_terminal hHead hx, if_pos trivial]
    · rw [Weighting.totals,
        Weighting.withLeaves_nonterminal (by simpa using hx)]
      exact total_le_treeSum hHead x w

omit hHead in
/-- If no rule is without value, weight means that there is a tree. -/
theorem totals_ne_zero_iff (hg : g.WellFormed)
    (hValue : ∀ r ∈ g.rules, φ r.probability ≠ 0)
    {x : SymbolId} {w : List SymbolId} :
    Weighting.totals g.alphabet.isTerminal (Weighting.valued φ g.rules) x w ≠
      0 ↔ ∃ t, g.DerivesWord x w t := by
  rw [← tsum_trees fun _ => hg.isTerminal_lhs, treeSum, Ne,
    ENNReal.tsum_eq_zero, not_forall]
  constructor
  · rintro ⟨t, ht⟩
    exact ⟨t, (Set.mem_of_indicator_ne_zero ht).1⟩
  · rintro ⟨t, ht⟩
    have hMem : t ∈ trees g (fun _ => True) x w := ⟨ht, trivial⟩
    refine ⟨t, ?_⟩
    rw [Set.indicator_of_mem hMem]
    exact ht.isDerivation.value_ne_zero hValue

end Total

end ParseTree

end StochasticGrammar
