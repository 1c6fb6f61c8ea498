import StochasticGrammar.Proofs.NormalForm.Split
import StochasticGrammar.Proofs.NormalForm.UnitChains

/-!
# Weights without unit rules

A symbol derives a word by a chain of unit rules that leads to a terminal, or
to a symbol that goes on with a rule of two symbols.  So its weights are those
of the rules of two symbols, spread over the chains.  Spreading them on the
right sides takes the place of the unit rules everywhere but at the start,
and there the start symbol takes over the rules of what it can be renamed to.

That the probabilities of the chains are right is a hypothesis (`Renames`).

Main results: the start symbol keeps its weights (`total_withoutUnits`), and
any other symbol those it has by its rules of two symbols
(`total_withoutUnits_of_ne`).
-/

namespace StochasticGrammar.NormalForm

open Weighting
open scoped ENNReal

/-- The rules with two symbols on the right. -/
def pairRules {β : Type} (rules : List (Rule β)) : List (Rule β) :=
  rules.filter (·.rhs.length == 2)

/-- Plain rules with one or two symbols on the right, none of them the start
symbol. -/
structure Tidy {β : Type} (al : Alphabet) (rules : List (Rule β)) : Prop
    extends Plain al rules where
  noStart : ∀ r ∈ rules, startId ∉ r.rhs
  length : ∀ r ∈ rules, r.rhs.length = 1 ∨ r.rhs.length = 2

section Pairs

variable {α : Type} {φ : α → ℝ≥0∞} {rules : List (Rule α)}

theorem pairRules_cons_unit {r : Rule α} (h : r.rhs.length = 1) :
    pairRules (r :: rules) = pairRules rules :=
  List.filter_cons_of_neg (by simp [h])

theorem pairRules_cons_pair {r : Rule α} (h : r.rhs.length = 2) :
    pairRules (r :: rules) = r :: pairRules rules :=
  List.filter_cons_of_pos (by simp [h])

/-- The rules are unit rules and rules of two symbols. -/
theorem expand_eq_unitStep_add
    (hLength : ∀ r ∈ rules, r.rhs.length = 1 ∨ r.rhs.length = 2)
    (h : Weighting) (a : SymbolId) (w : List SymbolId) :
    expand (valued φ rules) h a w =
      unitStep (valued φ rules) (fun t => h t w) a +
        expand (valued φ (pairRules rules)) h a w := by
  induction rules with
  | nil => simp [valued, unitStep, pairRules]
  | cons r rules ih =>
      have hTail := ih fun s hs => hLength s (by simp [hs])
      rw [valued_cons, expand_cons, hTail, unitStep_cons]
      rcases hLength r (by simp) with hOne | hTwo
      · obtain ⟨t, ht⟩ := List.length_eq_one_iff.1 hOne
        have hUnit : unitTerm (fun t => h t w) a
            ⟨r.lhs, r.rhs, φ r.probability⟩ =
              ruleWeight h a w ⟨r.lhs, r.rhs, φ r.probability⟩ := by
          simp [unitTerm, ruleWeight, ht]
        rw [hUnit, pairRules_cons_unit hOne, add_assoc]
      · obtain ⟨x, y, hxy⟩ := List.length_eq_two.1 hTwo
        have hUnit : unitTerm (fun t => h t w) a
            ⟨r.lhs, r.rhs, φ r.probability⟩ = 0 := by
          simp [unitTerm, hxy]
        rw [hUnit, zero_add, pairRules_cons_pair hTwo, valued_cons,
          expand_cons, add_left_comm]

/-- Unit rules lead to symbols of the alphabet only. -/
theorem Plain.hasId_of_mem_unitClosure {al : Alphabet} (hPlain : Plain al rules)
    {x : SymbolId} (hx : al.hasId x = true) :
    ∀ y ∈ unitClosure (renamings rules) x, al.hasId y = true := by
  refine unitClosure_induction hx fun {y z} hEdge _ => ?_
  obtain ⟨r, hr, _, hRhs⟩ := mem_renamings.1 hEdge
  exact hPlain.known r hr z (by simp [hRhs])

theorem ne_emptyId_of_mem_unitClosure {al : Alphabet} (hTidy : Tidy al rules)
    {x : SymbolId} (hx : x ≠ emptyId) :
    ∀ y ∈ unitClosure (renamings rules) x, y ≠ emptyId := by
  refine unitClosure_induction hx fun hEdge _ hEq => ?_
  obtain ⟨r, hr, _, hRhs⟩ := mem_renamings.1 hEdge
  exact hTidy.noEmpty r hr (by simp [hRhs, hEq])

/-- The rules of a symbol, taken over with a factor. -/
theorem expand_taken [Mul α] {good : α → Prop} {h : Weighting}
    {a : SymbolId} {w : List SymbolId} {p : α} {n : ℝ≥0∞} {x : SymbolId}
    (hFactor : ∀ {q : α}, good q → φ (q * p) = φ q * n) {rs : List (Rule α)}
    (hGood : ∀ r ∈ rs, good r.probability) :
    expand (valued φ ((rs.filter (·.lhs == x)).map fun r =>
      ⟨startId, r.rhs, r.probability * p⟩)) h a w =
        if a = startId then n * expand (valued φ rs) h x w else 0 := by
  induction rs with
  | nil => simp [valued]
  | cons r rs ih =>
      have hTail := ih fun s hs => hGood s (by simp [hs])
      rw [valued_cons, expand_cons]
      by_cases hLhs : r.lhs = x
      · rw [List.filter_cons_of_pos (by simp [hLhs]), List.map_cons,
          valued_cons, expand_cons, hTail, ruleWeight, ruleWeight,
          hFactor (hGood r (by simp)), if_pos hLhs]
        by_cases ha : a = startId
        · rw [if_pos ha, if_pos ha, if_pos ha.symm]
          ring
        · rw [if_neg ha, if_neg ha, if_neg (Ne.symm ha), add_zero]
      · have hZero : ruleWeight h x w ⟨r.lhs, r.rhs, φ r.probability⟩ = 0 :=
          ruleWeight_of_ne hLhs
        rw [List.filter_cons_of_neg (by simp [hLhs]), hTail, hZero, zero_add]

/-- A symbol other than the start symbol is renamed to others only. -/
theorem ne_startId_of_mem_unitClosure {al : Alphabet} (hTidy : Tidy al rules)
    {x : SymbolId} (hx : x ≠ startId) :
    ∀ y ∈ unitClosure (renamings rules) x, y ≠ startId := by
  refine unitClosure_induction hx fun hEdge _ hEq => ?_
  obtain ⟨r, hr, _, hRhs⟩ := mem_renamings.1 hEdge
  exact hTidy.noStart r hr (by simp [hRhs, hEq])

/-! ## Spread weights -/

section Spread

variable {al : Alphabet} (hTidy : Tidy al rules)

include hTidy

theorem unitStep_terminal {x : SymbolId} (hx : al.isTerminal x = true)
    (f : SymbolId → ℝ≥0∞) : unitStep (valued φ rules) f x = 0 := by
  refine unitStep_eq_zero (fun r hr hLhs => ?_) f
  obtain ⟨s, hs, rfl⟩ := List.mem_map.1 hr
  have hHead := hTidy.head s hs
  rw [show s.lhs = x from hLhs, hx] at hHead
  simp at hHead

/-- Nothing is spread to a terminal. -/
theorem withLeaves_spread (k : Weighting) :
    withLeaves al.isTerminal
      (spread (valued φ rules) (withLeaves al.isTerminal k)) =
        spread (valued φ rules) (withLeaves al.isTerminal k) := by
  funext x w
  by_cases hx : al.isTerminal x = true
  · rw [withLeaves_terminal hx, spread_eq, unitStep_terminal hTidy hx,
      add_zero, withLeaves_terminal hx]
  · rw [withLeaves_nonterminal (by simpa using hx)]

/-- What the rules of two symbols do not increase when it is spread is above
the total weights when it is spread. -/
theorem total_le_spread {k : Weighting}
    (hLe : ∀ a w, al.isTerminal a = false →
      expand (valued φ (pairRules rules))
        (spread (valued φ rules) (withLeaves al.isTerminal k)) a w ≤ k a w) :
    total al.isTerminal (valued φ rules) ≤
      spread (valued φ rules) (withLeaves al.isTerminal k) := by
  refine total_le fun a w => ?_
  rw [withLeaves_spread hTidy]
  by_cases ha : al.isTerminal a = true
  · refine le_trans (le_of_eq (expand_eq_zero fun r hr hLhs => ?_)) zero_le
    obtain ⟨s, hs, rfl⟩ := List.mem_map.1 hr
    have hHead := hTidy.head s hs
    rw [show s.lhs = a from hLhs, ha] at hHead
    simp at hHead
  · rw [Bool.not_eq_true] at ha
    rw [expand_eq_unitStep_add hTidy.length,
      spread_eq (withLeaves al.isTerminal k) a w, add_comm,
      withLeaves_nonterminal ha]
    exact add_le_add (hLe a w ha) (le_refl _)

/-- The total weights are those of the terminals and of the rules of two
symbols, spread over the chains. -/
theorem totals_eq_spread :
    totals al.isTerminal (valued φ rules) =
      spread (valued φ rules) (withLeaves al.isTerminal
        (expand (valued φ (pairRules rules))
          (totals al.isTerminal (valued φ rules)))) := by
  have hUpper : spread (valued φ rules) (withLeaves al.isTerminal
      (expand (valued φ (pairRules rules))
        (totals al.isTerminal (valued φ rules)))) ≤
          totals al.isTerminal (valued φ rules) := by
    refine spread_le fun x w => le_of_eq ?_
    by_cases hx : al.isTerminal x = true
    · rw [unitStep_terminal hTidy hx, add_zero, withLeaves_terminal hx,
        totals, withLeaves_terminal hx]
    · rw [Bool.not_eq_true] at hx
      rw [withLeaves_nonterminal hx, add_comm,
        ← expand_eq_unitStep_add hTidy.length, expand_total, totals,
        withLeaves_nonterminal hx]
  apply le_antisymm _ hUpper
  have hLower := total_le_spread hTidy fun a w _ =>
    expand_mono hUpper a w
  rw [← withLeaves_spread hTidy]
  exact withLeaves_mono hLower

end Spread

end Pairs

/-! ## Finding the probabilities of chains -/

theorem mem_columns {al : Alphabet} {x : SymbolId} :
    x ∈ columns al ↔ al.hasId x = true := by
  rw [Alphabet.hasId_iff_mem_ids, columns, List.mem_append]

/-- The table has a row for every nonterminal and a column for every symbol. -/
theorem Chains.solve_eq_ok {α : Type} [Zero α] [One α] [Add α] [Sub α] [Neg α]
    {options : Options α} {al : Alphabet} {rules : List (Rule α)} {c : Chains α}
    (h : Chains.solve options al rules = .ok c) :
    ∃ x : Mat α (al.ids .nonterminal).length (columns al).length,
      c = ⟨al.ids .nonterminal, columns al, x⟩ ∧
        options.solveUnits _ _
          (unitMatrix rules (al.ids .nonterminal) (al.ids .nonterminal)).subOne
          (unitMatrix rules (al.ids .nonterminal) (columns al)).neg = some x := by
  unfold Chains.solve at h
  simp only at h
  split at h
  · simp at h
  · simp at h
  split at h
  · simp at h
  rename_i x hUnits
  split at h
  · simp at h
  simp only [Except.ok.injEq] at h
  exact ⟨x, h.symm, hUnits⟩

/-- Only a system that is regular is solved. -/
theorem Chains.verdict_of_solve {α : Type} [Zero α] [One α] [Add α] [Sub α]
    [Neg α] {options : Options α} {al : Alphabet} {rules : List (Rule α)}
    {c : Chains α} (h : Chains.solve options al rules = .ok c) :
    options.verdict _ (unitMatrix rules (al.ids .nonterminal)
      (al.ids .nonterminal)).subOne = .regular := by
  unfold Chains.solve at h
  simp only at h
  split at h
  · cases h
  · cases h
  · assumption

/-- A solution is accepted if the system is regular and all numbers are
finite. -/
theorem exists_chains_of_regular {α : Type} [Zero α] [One α] [Add α] [Sub α]
    [Neg α] {options : Options α} (al : Alphabet) (rules : List (Rule α))
    (hVerdict : options.verdict _ (unitMatrix rules (al.ids .nonterminal)
      (al.ids .nonterminal)).subOne = .regular)
    (hNumbers : ∀ p, options.isFinite p = true)
    (hSolve : (options.solveUnits _ _
      (unitMatrix rules (al.ids .nonterminal) (al.ids .nonterminal)).subOne
      (unitMatrix rules (al.ids .nonterminal) (columns al)).neg).isSome) :
    ∃ chains, Chains.solve options al rules = .ok chains := by
  obtain ⟨x, hx⟩ := Option.isSome_iff_exists.1 hSolve
  refine ⟨⟨al.ids .nonterminal, columns al, x⟩, ?_⟩
  have hFinite : anyEntry (!options.isFinite ·) x = false := by
    rw [anyEntry, Vector.any_eq_false]
    intro i _
    simp only [hNumbers, Bool.not_true, Bool.not_eq_true, Vector.any_eq_false]
    exact fun _ _ => trivial
  unfold Chains.solve
  simp [hVerdict, hx, hFinite]

theorem exists_chains {α : Type} [Zero α] [One α] [Add α] [Sub α] [Neg α]
    {options : Options α} (al : Alphabet) (rules : List (Rule α))
    (hVerdict : ∀ n a, options.verdict n a = .regular)
    (hNumbers : ∀ p, options.isFinite p = true)
    (hSolve : (options.solveUnits _ _
      (unitMatrix rules (al.ids .nonterminal) (al.ids .nonterminal)).subOne
      (unitMatrix rules (al.ids .nonterminal) (columns al)).neg).isSome) :
    ∃ chains, Chains.solve options al rules = .ok chains :=
  exists_chains_of_regular al rules (hVerdict _ _) hNumbers hSolve

section Renamed

variable {α : Type} [Zero α] [One α] [Add α] [Mul α] {φ : α → ℝ≥0∞}
  {good : α → Prop} {al : Alphabet} {c : Chains α} {rules : List (Rule α)}
  {h : Weighting} {a : SymbolId} {w : List SymbolId}

/-- Multiplying by the probability of renaming multiplies the weight by the
weight of renaming, for the numbers that come up. -/
structure Renames (φ : α → ℝ≥0∞) (good : α → Prop) (al : Alphabet)
    (c : Chains α) (rules : List (Rule α)) : Prop where
  good_mul : ∀ {q : α} {x s : SymbolId}, al.hasId x = true → good q →
    s ∈ unitClosure (renamings rules) x → good (q * c.rename x s)
  mul : ∀ {q : α} {x s : SymbolId}, al.hasId x = true → good q →
    s ∈ unitClosure (renamings rules) x →
    φ (q * c.rename x s) = φ q * renameWeight (valued φ rules) x s
  good_start : ∀ {x : SymbolId}, x ∈ unitClosure (renamings rules) startId →
    al.isTerminal x = true → good (c.rename startId x)
  start : ∀ {x : SymbolId}, x ∈ unitClosure (renamings rules) startId →
    al.isTerminal x = true →
    φ (c.rename startId x) = renameWeight (valued φ rules) startId x

/-! ## Spreading on the right sides -/

/-- The rules that a rule of two symbols is replaced by give it the weights
spread over the chains. -/
theorem expand_renamed (hNames : Renames φ good al c rules) {r : Rule α}
    (hOver : Over al r) (hGood : good r.probability) {x y : SymbolId}
    (hRhs : r.rhs = [x, y]) :
    expand (valued φ (renamed c (renamings rules) r)) h a w =
      ruleWeight (spread (valued φ rules) h) a w
        ⟨r.lhs, r.rhs, φ r.probability⟩ := by
  have hx : al.hasId x = true := hOver x (by simp [hRhs])
  have hy : al.hasId y = true := hOver y (by simp [hRhs])
  have hSpread : ∀ z, spread (valued φ rules) h z = fun v =>
      ((unitClosure (renamings rules) z).map fun s =>
        renameWeight (valued φ rules) z s * h s v).sum :=
    fun z => funext fun v => spread_eq_sum h z v
  have hPair : ∀ s ∈ unitClosure (renamings rules) x,
      expand (valued φ ((unitClosure (renamings rules) y).map fun t =>
        ⟨r.lhs, [s, t], r.probability * c.rename x s * c.rename y t⟩)) h a w =
      if r.lhs = a then φ r.probability *
        (renameWeight (valued φ rules) x s *
          splice (h s) (spread (valued φ rules) h y) w) else 0 := by
    intro s hs
    rw [expand, valued, List.map_map, List.map_map]
    by_cases hLhs : r.lhs = a
    · rw [if_pos hLhs, hSpread y, splice_sum, ← mul_assoc,
        ← List.sum_map_mul_left]
      refine congrArg List.sum (List.map_congr_left fun t ht => ?_)
      show (if r.lhs = a then
        φ (r.probability * c.rename x s * c.rename y t) * row h [s, t] w
          else 0) = _
      rw [if_pos hLhs, hNames.mul hy (hNames.good_mul hx hGood hs) ht,
        hNames.mul hx hGood hs, row_pair, mul_assoc _ (renameWeight _ y t)]
    · rw [if_neg hLhs]
      refine List.sum_eq_zero fun z hz => ?_
      obtain ⟨t, _, rfl⟩ := List.mem_map.1 hz
      exact if_neg hLhs
  have hRenamed : renamed c (renamings rules) r =
      (unitClosure (renamings rules) x).flatMap fun s =>
        (unitClosure (renamings rules) y).map fun t =>
          ⟨r.lhs, [s, t], r.probability * c.rename x s * c.rename y t⟩ := by
    rw [renamed, hRhs]
    simp only [List.map_map]
    rfl
  rw [hRenamed, valued_flatMap, expand_flatMap, List.map_congr_left hPair,
    ruleWeight]
  by_cases hLhs : r.lhs = a
  · simp only [if_pos hLhs]
    rw [List.sum_map_mul_left, hRhs, row_pair, hSpread x, sum_splice]
  · simp [if_neg hLhs]

/-- The rules of two symbols, with every way of renaming the two. -/
def spreadRules (c : Chains α) (rules : List (Rule α)) : List (Rule α) :=
  rules.flatMap (renamed c (renamings rules))

theorem expand_spreadRules (hNames : Renames φ good al c rules)
    (hTidy : Tidy al rules) (hGood : ∀ r ∈ rules, good r.probability) :
    expand (valued φ (spreadRules c rules)) h a w =
      expand (valued φ (pairRules rules)) (spread (valued φ rules) h)
        a w := by
  have hRules : ∀ rs : List (Rule α), rs ⊆ rules →
      expand (valued φ (rs.flatMap (renamed c (renamings rules)))) h a w =
        expand (valued φ (pairRules rs)) (spread (valued φ rules) h)
          a w := by
    intro rs
    induction rs with
    | nil => exact fun _ => rfl
    | cons r rs ih =>
        intro hSub
        obtain ⟨hr, hSub⟩ := List.cons_subset.1 hSub
        rw [List.flatMap_cons, valued_append, expand_append, ih hSub]
        rcases hTidy.length r hr with hOne | hTwo
        · obtain ⟨t, ht⟩ := List.length_eq_one_iff.1 hOne
          have hNone : renamed c (renamings rules) r = [] := by
            rw [renamed, ht]
          rw [pairRules_cons_unit hOne, hNone]
          exact zero_add _
        · obtain ⟨x, y, hxy⟩ := List.length_eq_two.1 hTwo
          rw [pairRules_cons_pair hTwo, valued_cons, expand_cons,
            expand_renamed hNames (hTidy.known r hr) (hGood r hr) hxy]
  exact hRules rules (List.Subset.refl _)

/-- A rule with renamed symbols on the right. -/
theorem exists_of_mem_spreadRules {r : Rule α} (hr : r ∈ spreadRules c rules) :
    ∃ s ∈ rules, ∃ x y, s.rhs = [x, y] ∧
      ∃ x' ∈ unitClosure (renamings rules) x,
        ∃ y' ∈ unitClosure (renamings rules) y,
          r = ⟨s.lhs, [x', y'],
            s.probability * c.rename x x' * c.rename y y'⟩ := by
  obtain ⟨s, hs, hMem⟩ := List.mem_flatMap.1 hr
  unfold renamed at hMem
  split at hMem
  · rename_i x y hRhs
    obtain ⟨x', hx', hMem⟩ := List.mem_flatMap.1 hMem
    obtain ⟨_, hPair, rfl⟩ := List.mem_map.1 hMem
    obtain ⟨y', hy', hEq⟩ := List.mem_map.1 hPair
    cases hEq
    exact ⟨s, hs, x, y, hRhs, x', hx', y', hy', rfl⟩
  · simp at hMem

theorem good_of_mem_spreadRules (hNames : Renames φ good al c rules)
    (hTidy : Tidy al rules) (hGood : ∀ r ∈ rules, good r.probability) :
    ∀ r ∈ spreadRules c rules, good r.probability := by
  intro r hr
  obtain ⟨s, hs, x, y, hRhs, x', hx', y', hy', rfl⟩ :=
    exists_of_mem_spreadRules hr
  have hOver := hTidy.known s hs
  exact hNames.good_mul (hOver y (by simp [hRhs]))
    (hNames.good_mul (hOver x (by simp [hRhs])) (hGood s hs) hx') hy'

/-- Renamed pairs hold neither the start symbol nor the empty string symbol. -/
theorem rhs_of_mem_spreadRules (hTidy : Tidy al rules) {r : Rule α}
    (hr : r ∈ spreadRules c rules) :
    ∃ x y, r.rhs = [x, y] ∧ (x ≠ startId ∧ x ≠ emptyId) ∧
      y ≠ startId ∧ y ≠ emptyId := by
  obtain ⟨s, hs, x, y, hRhs, x', hx', y', hy', rfl⟩ :=
    exists_of_mem_spreadRules hr
  have hOld : ∀ z ∈ s.rhs, z ≠ startId ∧ z ≠ emptyId := fun z hz =>
    ⟨fun h => hTidy.noStart s hs (h ▸ hz),
      fun h => hTidy.noEmpty s hs (h ▸ hz)⟩
  have hNew : ∀ z ∈ s.rhs, ∀ z' ∈ unitClosure (renamings rules) z,
      z' ≠ startId ∧ z' ≠ emptyId := fun z hz z' hz' =>
    ⟨ne_startId_of_mem_unitClosure hTidy (hOld z hz).1 z' hz',
      ne_emptyId_of_mem_unitClosure hTidy (hOld z hz).2 z' hz'⟩
  exact ⟨x', y', rfl, hNew x (by simp [hRhs]) x' hx',
    hNew y (by simp [hRhs]) y' hy'⟩

/-! ## What the start symbol takes over -/

/-- The start symbol gets the weights of what it takes over, as often as the
chains say. -/
theorem expand_takenOver (hNames : Renames φ good al c rules)
    (hTidy : Tidy al rules) (hGood : ∀ r ∈ rules, good r.probability)
    (hStart : al.hasId startId = true)
    (hLeaf : ∀ x, al.isTerminal x = true → h x = leaf x) {x : SymbolId}
    (hx : x ∈ unitClosure (renamings rules) startId) :
    expand (valued φ (takenOver c al (spreadRules c rules) x)) h a w =
      if a = startId then renameWeight (valued φ rules) startId x *
        withLeaves al.isTerminal
          (expand (valued φ (spreadRules c rules)) h) x w
      else 0 := by
  unfold takenOver
  by_cases hTerminal : al.isTerminal x = true
  · simp only [if_pos hTerminal,
      if_neg (ne_emptyId_of_mem_unitClosure hTidy (by decide) x hx)]
    rw [withLeaves_terminal hTerminal, ← hNames.start hx hTerminal,
      ← hLeaf x hTerminal, ← row_singleton h x]
    simp [valued, ruleWeight, eq_comm]
  · rw [Bool.not_eq_true] at hTerminal
    simp only [hTerminal, Bool.false_eq_true, if_false]
    rw [withLeaves_nonterminal hTerminal]
    exact expand_taken (fun hq => hNames.mul hStart hq hx)
      (good_of_mem_spreadRules hNames hTidy hGood)

/-- What the rules without unit rules make of a weighting. -/
theorem expand_withoutUnits (hNames : Renames φ good al c rules)
    (hTidy : Tidy al rules) (hGood : ∀ r ∈ rules, good r.probability)
    (hStart : al.hasId startId = true)
    (hLeaf : ∀ x, al.isTerminal x = true → h x = leaf x) :
    expand (valued φ (withoutUnits c al rules)) h a w =
      if a = startId then spread (valued φ rules) (withLeaves al.isTerminal
        (expand (valued φ (spreadRules c rules)) h)) startId w
      else expand (valued φ (spreadRules c rules)) h a w := by
  show expand (valued φ ((spreadRules c rules).filter (·.lhs != startId) ++
    (unitClosure (renamings rules) startId).flatMap
      (takenOver c al (spreadRules c rules)))) h a w = _
  rw [valued_append, expand_append, expand_filter_lhs_ne, valued_flatMap,
    expand_flatMap,
    List.map_congr_left fun x hx =>
      expand_takenOver hNames hTidy hGood hStart hLeaf hx]
  by_cases ha : a = startId
  · simp only [if_pos ha]
    rw [zero_add, spread_eq_sum]
  · simp [if_neg ha]

/-- A rule that is left has renamed symbols, or the start symbol took it over:
as a rule to a terminal that it can be renamed to, or from a symbol that it can
be renamed to. -/
theorem mem_withoutUnits_cases (hTidy : Tidy al rules) {r : Rule α}
    (hr : r ∈ withoutUnits c al rules) :
    r ∈ spreadRules c rules ∨
      ∃ x ∈ unitClosure (renamings rules) startId,
        (al.isTerminal x = true ∧ x ≠ emptyId ∧
          r = ⟨startId, [x], c.rename startId x⟩) ∨
        ∃ s ∈ spreadRules c rules,
          r = ⟨startId, s.rhs, s.probability * c.rename startId x⟩ := by
  rcases List.mem_append.1 hr with hr | hr
  · exact .inl (List.mem_of_mem_filter hr)
  · obtain ⟨x, hx, hMem⟩ := List.mem_flatMap.1 hr
    refine .inr ⟨x, hx, ?_⟩
    unfold takenOver at hMem
    by_cases hTerminal : al.isTerminal x = true
    · have hNe : x ≠ emptyId :=
        ne_emptyId_of_mem_unitClosure hTidy (by decide) x hx
      simp only [if_pos hTerminal, if_neg hNe, List.mem_singleton] at hMem
      exact .inl ⟨hTerminal, hNe, hMem⟩
    · simp only [if_neg hTerminal] at hMem
      obtain ⟨s, hs, rfl⟩ := List.mem_map.1 hMem
      exact .inr ⟨s, List.mem_of_mem_filter hs, rfl⟩

/-- A rule that is left has two symbols, or it leads from the start symbol to a
terminal. -/
theorem rhs_of_mem_withoutUnits (hTidy : Tidy al rules) {r : Rule α}
    (hr : r ∈ withoutUnits c al rules) :
    (∃ x y, r.rhs = [x, y] ∧ (x ≠ startId ∧ x ≠ emptyId) ∧
      y ≠ startId ∧ y ≠ emptyId) ∨
    (r.lhs = startId ∧ ∃ x, r.rhs = [x] ∧ al.isTerminal x = true ∧
      x ≠ emptyId) := by
  rcases mem_withoutUnits_cases hTidy hr with
    hPair | ⟨x, _, ⟨hTerminal, hNe, rfl⟩ | ⟨s, hs, rfl⟩⟩
  · exact .inl (rhs_of_mem_spreadRules hTidy hPair)
  · exact .inr ⟨rfl, x, rfl, hTerminal, hNe⟩
  · have hRhs := rhs_of_mem_spreadRules hTidy hs
    exact .inl hRhs

theorem good_of_mem_withoutUnits (hNames : Renames φ good al c rules)
    (hTidy : Tidy al rules) (hGood : ∀ r ∈ rules, good r.probability)
    (hStart : al.hasId startId = true) :
    ∀ r ∈ withoutUnits c al rules, good r.probability := by
  have hPairs := good_of_mem_spreadRules hNames hTidy hGood
  intro r hr
  rcases mem_withoutUnits_cases hTidy hr with
    hPair | ⟨x, hx, ⟨hTerminal, _, rfl⟩ | ⟨s, hs, rfl⟩⟩
  · exact hPairs r hPair
  · exact hNames.good_start hx hTerminal
  · exact hNames.good_mul hStart (hPairs s hs) hx

/-! ## Totals -/

omit [Zero α] [One α] [Add α] [Mul α] in
/-- The right sides of the rules of two symbols do without the start symbol. -/
theorem expand_pairRules_congr (hTidy : Tidy al rules) {k k' : Weighting}
    (hEq : ∀ x, x ≠ startId → k x = k' x) :
    expand (valued φ (pairRules rules)) k =
      expand (valued φ (pairRules rules)) k' := by
  funext a w
  refine expand_congr fun r hr _ => congrFun (row_congr fun x hx => ?_) w
  obtain ⟨s, hs, rfl⟩ := List.mem_map.1 hr
  exact hEq x fun h => hTidy.noStart s (List.mem_of_mem_filter hs) (h ▸ hx)

omit [Zero α] [One α] [Add α] [Mul α] in
theorem expand_pairRules_mono (hTidy : Tidy al rules) {k k' : Weighting}
    (hLe : ∀ x, x ≠ startId → k x ≤ k' x) :
    expand (valued φ (pairRules rules)) k ≤
      expand (valued φ (pairRules rules)) k' := by
  have hZero : expand (valued φ (pairRules rules)) k =
      expand (valued φ (pairRules rules))
        fun x => if x = startId then 0 else k x :=
    expand_pairRules_congr hTidy fun x hx => (if_neg hx).symm
  rw [hZero]
  refine expand_mono fun x => ?_
  dsimp only
  split
  · exact fun _ => zero_le
  · exact hLe x ‹_›

/-- The weights of the renamed pairs, where no unit rules are left. -/
noncomputable def pairWeights (φ : α → ℝ≥0∞) (c : Chains α) (al : Alphabet)
    (rules : List (Rule α)) : Weighting :=
  expand (valued φ (spreadRules c rules))
    (totals al.isTerminal (valued φ (withoutUnits c al rules)))

section Total

variable (hNames : Renames φ good al c rules) (hTidy : Tidy al rules)
  (hGood : ∀ r ∈ rules, good r.probability) (hal : al.WellFormed)

include hNames hTidy hGood hal

/-- The weights without unit rules are at most those of the rules of two
symbols, if the start symbol keeps all that it has. -/
theorem total_withoutUnits_le (a : SymbolId) :
    total al.isTerminal (valued φ (withoutUnits c al rules)) a ≤
      if a = startId then totals al.isTerminal (valued φ rules) startId
      else expand (valued φ (pairRules rules))
        (totals al.isTerminal (valued φ rules)) a := by
  let old := totals al.isTerminal (valued φ rules)
  let f : Weighting := fun x =>
    if x = startId then old startId
    else expand (valued φ (pairRules rules)) old x
  have hTail : ∀ x, x ≠ startId → withLeaves al.isTerminal f x =
      withLeaves al.isTerminal
        (expand (valued φ (pairRules rules)) old) x := by
    intro x hx
    simp [withLeaves, f, hx]
  have hSpread : ∀ x, x ≠ startId →
      spread (valued φ rules) (withLeaves al.isTerminal f) x = old x := by
    intro x hx
    rw [spread_congr fun y hy =>
      hTail y (ne_startId_of_mem_unitClosure hTidy hx y hy),
      ← totals_eq_spread hTidy]
  have hNew : expand (valued φ (spreadRules c rules))
      (withLeaves al.isTerminal f) =
        expand (valued φ (pairRules rules)) old := by
    rw [← expand_pairRules_congr hTidy hSpread]
    exact funext fun a => funext fun w =>
      expand_spreadRules hNames hTidy hGood
  refine total_le (f := f) (fun a w => ?_) a
  rw [expand_withoutUnits hNames hTidy hGood hal.hasId_startId
    fun x hx => withLeaves_terminal hx f, hNew, ← totals_eq_spread hTidy]
  by_cases ha : a = startId
  · rw [if_pos ha]
    exact le_of_eq (by simp [f, ha, old])
  · rw [if_neg ha]
    exact le_of_eq (by simp [f, ha])

theorem total_withoutUnits_eq (a : SymbolId) :
    total al.isTerminal (valued φ (withoutUnits c al rules)) a =
      if a = startId then spread (valued φ rules)
        (withLeaves al.isTerminal (pairWeights φ c al rules)) startId
      else pairWeights φ c al rules a := by
  funext w
  rw [← expand_total, expand_withoutUnits hNames hTidy hGood hal.hasId_startId
    fun x hx => withLeaves_terminal hx _]
  unfold pairWeights
  split <;> rfl

/-- Below the start symbol, the renamed pairs have all the weight. -/
theorem spread_pairWeights {x : SymbolId} (hx : x ≠ startId) :
    spread (valued φ rules)
        (withLeaves al.isTerminal (pairWeights φ c al rules)) x =
      spread (valued φ rules)
        (totals al.isTerminal (valued φ (withoutUnits c al rules))) x := by
  refine spread_congr fun y hy => ?_
  have hNe := ne_startId_of_mem_unitClosure hTidy hx y hy
  have hOne := total_withoutUnits_eq hNames hTidy hGood hal y
  rw [if_neg hNe] at hOne
  unfold totals withLeaves
  rw [hOne]

/-- The weights of the renamed pairs, spread over the chains, are above those
with unit rules. -/
theorem totals_le_spread_pairWeights :
    totals al.isTerminal (valued φ rules) ≤ spread (valued φ rules)
      (withLeaves al.isTerminal (pairWeights φ c al rules)) := by
  have hLe := total_le_spread hTidy (k := pairWeights φ c al rules)
    fun a w _ => by
      rw [expand_pairRules_congr hTidy fun x hx =>
        spread_pairWeights hNames hTidy hGood hal hx]
      exact le_of_eq (expand_spreadRules hNames hTidy hGood).symm
  rw [← withLeaves_spread hTidy]
  exact withLeaves_mono hLe

/-- The start symbol keeps its weights. -/
theorem total_withoutUnits :
    total al.isTerminal (valued φ (withoutUnits c al rules)) startId =
      total al.isTerminal (valued φ rules) startId := by
  have hOld : totals al.isTerminal (valued φ rules) startId =
      total al.isTerminal (valued φ rules) startId :=
    withLeaves_nonterminal hal.isTerminal_startId _
  apply le_antisymm
  · refine (total_withoutUnits_le hNames hTidy hGood hal startId).trans_eq ?_
    rw [if_pos rfl, hOld]
  · rw [total_withoutUnits_eq hNames hTidy hGood hal, if_pos rfl, ← hOld]
    exact totals_le_spread_pairWeights hNames hTidy hGood hal startId

/-- Any other symbol keeps the weights that it gives by beginning with two
symbols. -/
theorem total_withoutUnits_of_ne {a : SymbolId} (ha : a ≠ startId) :
    total al.isTerminal (valued φ (withoutUnits c al rules)) a =
      expand (valued φ (pairRules rules))
        (totals al.isTerminal (valued φ rules)) a := by
  apply le_antisymm
  · refine (total_withoutUnits_le hNames hTidy hGood hal a).trans_eq ?_
    rw [if_neg ha]
  · intro w
    calc expand (valued φ (pairRules rules))
          (totals al.isTerminal (valued φ rules)) a w
        ≤ expand (valued φ (pairRules rules)) (spread (valued φ rules)
            (totals al.isTerminal (valued φ (withoutUnits c al rules)))) a w :=
          expand_pairRules_mono hTidy (fun x hx =>
            (totals_le_spread_pairWeights hNames hTidy hGood hal x).trans_eq
              (spread_pairWeights hNames hTidy hGood hal hx)) a w
      _ = pairWeights φ c al rules a w :=
          (expand_spreadRules hNames hTidy hGood).symm
      _ = total al.isTerminal (valued φ (withoutUnits c al rules)) a w := by
          rw [total_withoutUnits_eq hNames hTidy hGood hal, if_neg ha]

end Total

end Renamed

end StochasticGrammar.NormalForm
