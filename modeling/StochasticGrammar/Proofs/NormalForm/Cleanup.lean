import StochasticGrammar.NormalForm.Cleanup
import StochasticGrammar.Proofs.Weight.Basic

/-!
# Weights of the final rules

Merging duplicate rules changes no weight if the weight of the merged rule is
the sum of their weights.  Dropping rules whose left sides stand on no right
side keeps the weights of the start symbol.  A rule from the start symbol to
the empty string symbol gives its weight to the empty word.

Main results: `total_mergeDuplicates`, `total_collect`, `total_emptyRule`.
-/

namespace StochasticGrammar.NormalForm

open Weighting
open scoped ENNReal

variable {α : Type} {φ : α → ℝ≥0∞} {isTerminal : SymbolId → Bool}

/-! ## Duplicate rules -/

theorem sameSides_iff {r s : Rule α} :
    r.sameSides s = true ↔ r.lhs = s.lhs ∧ r.rhs = s.rhs := by
  simp [Rule.sameSides, Rule.sides]

section Merge

variable [Add α] {good : α → Prop} {merge : Bool} {rules : List (Rule α)}

/-- The probability of the merged rule has the sum of the weights. -/
structure Merges (φ : α → ℝ≥0∞) (good : α → Prop) (merge : Bool) : Prop where
  good_merge : ∀ {p q : α}, good p → good q → good (if merge then p + q else p)
  add : ∀ {p q : α}, good p → good q →
    φ (if merge then p + q else p) = φ p + φ q

theorem merged_eq (r first : Rule α) :
    (if merge then first.withProbability (first.probability + r.probability)
      else first) = ⟨first.lhs, first.rhs,
        if merge then first.probability + r.probability
        else first.probability⟩ := by
  cases merge <;> rfl

theorem good_of_mem_mergeInto (hMerges : Merges φ good merge) {r : Rule α}
    (hr : good r.probability) (hGood : ∀ s ∈ rules, good s.probability) :
    ∀ s ∈ mergeInto merge r rules, good s.probability := by
  induction rules with
  | nil => simpa [mergeInto] using hr
  | cons first rest ih =>
      unfold mergeInto
      split
      · rw [merged_eq]
        intro s hs
        rcases List.mem_cons.1 hs with rfl | hs
        · exact hMerges.good_merge (hGood first (by simp)) hr
        · exact hGood s (by simp [hs])
      · intro s hs
        rcases List.mem_cons.1 hs with rfl | hs
        · exact hGood s (by simp)
        · exact ih (fun t ht => hGood t (by simp [ht])) s hs

theorem good_of_mem_mergeDuplicates (hMerges : Merges φ good merge)
    (hGood : ∀ r ∈ rules, good r.probability) :
    ∀ r ∈ mergeDuplicates merge rules, good r.probability := by
  have hFold : ∀ rs merged : List (Rule α),
      (∀ r ∈ rs, good r.probability) → (∀ r ∈ merged, good r.probability) →
      ∀ r ∈ rs.foldl (fun merged r => mergeInto merge r merged) merged,
        good r.probability := by
    intro rs
    induction rs with
    | nil => exact fun merged _ hMerged => hMerged
    | cons r rs ih =>
        intro merged hrs hMerged
        exact ih _ (fun s hs => hrs s (by simp [hs]))
          (good_of_mem_mergeInto hMerges (hrs r (by simp)) hMerged)
  exact hFold rules [] hGood (by simp)

/-- Adding a rule to a list without duplicates adds what it contributes. -/
theorem expand_mergeInto (hMerges : Merges φ good merge) {r : Rule α}
    (hr : good r.probability) (hGood : ∀ s ∈ rules, good s.probability)
    (h : Weighting) (a : SymbolId) (w : List SymbolId) :
    expand (valued φ (mergeInto merge r rules)) h a w =
      ruleWeight h a w ⟨r.lhs, r.rhs, φ r.probability⟩ +
        expand (valued φ rules) h a w := by
  induction rules with
  | nil => simp [mergeInto, valued]
  | cons first rest ih =>
      unfold mergeInto
      by_cases hSame : first.sameSides r = true
      · obtain ⟨hLhs, hRhs⟩ := sameSides_iff.1 hSame
        rw [if_pos hSame, merged_eq, valued_cons, valued_cons, expand_cons,
          expand_cons, ← add_assoc]
        refine congrArg (· + expand (valued φ rest) h a w) ?_
        unfold ruleWeight
        simp only [hMerges.add (hGood first (by simp)) hr, hLhs, hRhs]
        split
        · rw [add_mul, add_comm]
        · rw [add_zero]
      · rw [if_neg hSame, valued_cons, valued_cons, expand_cons, expand_cons,
          ih fun s hs => hGood s (by simp [hs]), add_left_comm]

/-- Merging duplicate rules changes no weight. -/
theorem total_mergeDuplicates (hMerges : Merges φ good merge)
    (hGood : ∀ r ∈ rules, good r.probability) :
    total isTerminal (valued φ (mergeDuplicates merge rules)) =
      total isTerminal (valued φ rules) := by
  have hFold : ∀ (rs merged : List (Rule α)),
      (∀ r ∈ rs, good r.probability) → (∀ r ∈ merged, good r.probability) →
      ∀ h a w, expand (valued φ (rs.foldl
        (fun merged r => mergeInto merge r merged) merged)) h a w =
          expand (valued φ rs) h a w + expand (valued φ merged) h a w := by
    intro rs
    induction rs with
    | nil =>
        intro merged _ _ h a w
        exact (zero_add _).symm
    | cons r rs ih =>
        intro merged hrs hMerged h a w
        have hr := hrs r (by simp)
        rw [List.foldl_cons, ih _ (fun s hs => hrs s (by simp [hs]))
          (good_of_mem_mergeInto hMerges hr hMerged),
          expand_mergeInto hMerges hr hMerged, valued_cons, expand_cons]
        ring
  refine total_congr fun f => funext fun a => funext fun w => ?_
  rw [mergeDuplicates, hFold rules [] hGood (by simp)]
  exact add_zero _

theorem exists_sides_of_mem_mergeInto {r s : Rule α}
    (hr : r ∈ mergeInto merge s rules) :
    ∃ t ∈ s :: rules, r.lhs = t.lhs ∧ r.rhs = t.rhs := by
  induction rules with
  | nil => exact ⟨r, by simpa [mergeInto] using hr, rfl, rfl⟩
  | cons first rest ih =>
      unfold mergeInto at hr
      split at hr
      · rw [merged_eq] at hr
        rcases List.mem_cons.1 hr with rfl | hr
        · exact ⟨first, by simp, rfl, rfl⟩
        · exact ⟨r, by simp [hr], rfl, rfl⟩
      · rcases List.mem_cons.1 hr with rfl | hr
        · exact ⟨r, by simp, rfl, rfl⟩
        · obtain ⟨t, ht, hSides⟩ := ih hr
          refine ⟨t, ?_, hSides⟩
          rcases List.mem_cons.1 ht with rfl | ht
          · simp
          · simp [ht]

/-- The sides of the rules stay the same. -/
theorem exists_sides_of_mem_mergeDuplicates {r : Rule α}
    (hr : r ∈ mergeDuplicates merge rules) :
    ∃ s ∈ rules, r.lhs = s.lhs ∧ r.rhs = s.rhs := by
  have hFold : ∀ (rs merged : List (Rule α)) {r : Rule α},
      r ∈ rs.foldl (fun merged r => mergeInto merge r merged) merged →
        ∃ s ∈ rs ++ merged, r.lhs = s.lhs ∧ r.rhs = s.rhs := by
    intro rs
    induction rs with
    | nil => exact fun merged r hr => ⟨r, by simpa using hr, rfl, rfl⟩
    | cons s rs ih =>
        intro merged r hr
        obtain ⟨t, ht, hLhs, hRhs⟩ := ih _ hr
        rcases List.mem_append.1 ht with ht | ht
        · exact ⟨t, by simp [ht], hLhs, hRhs⟩
        · obtain ⟨u, hu, hLhs', hRhs'⟩ :=
            exists_sides_of_mem_mergeInto ht
          refine ⟨u, ?_, hLhs.trans hLhs', hRhs.trans hRhs'⟩
          rcases List.mem_cons.1 hu with rfl | hu
          · simp
          · simp [hu]
  simpa using hFold rules [] hr

/-- A rule with new sides is added at the end. -/
theorem mergeInto_of_notMem {r : Rule α}
    (h : r.sides ∉ rules.map Rule.sides) :
    mergeInto merge r rules = rules ++ [r] := by
  induction rules with
  | nil => rfl
  | cons first rest ih =>
      rw [List.map_cons, List.mem_cons, not_or] at h
      have hDiffer : first.sameSides r = false := by
        rw [Rule.sameSides, beq_eq_false_iff_ne]
        exact Ne.symm h.1
      rw [mergeInto, hDiffer, if_neg (by simp), ih h.2, List.cons_append]

/-- A rule with the sides of another one changes no sides. -/
theorem map_sides_mergeInto {r : Rule α} (h : r.sides ∈ rules.map Rule.sides) :
    (mergeInto merge r rules).map Rule.sides = rules.map Rule.sides := by
  induction rules with
  | nil => cases h
  | cons first rest ih =>
      unfold mergeInto
      split
      · rw [merged_eq]
        rfl
      · rename_i hDiffer
        rcases List.mem_cons.1 h with hSame | h
        · exact absurd (beq_iff_eq.2 hSame.symm) hDiffer
        · rw [List.map_cons, ih h, List.map_cons]

/-- The sides of a rule are added once. -/
theorem nodup_sides_mergeInto {r : Rule α}
    (h : (rules.map Rule.sides).Nodup) :
    ((mergeInto merge r rules).map Rule.sides).Nodup := by
  by_cases hMem : r.sides ∈ rules.map Rule.sides
  · rwa [map_sides_mergeInto hMem]
  · rw [mergeInto_of_notMem hMem, List.map_append, List.nodup_append]
    refine ⟨h, by simp, ?_⟩
    simp only [List.map_cons, List.map_nil, List.mem_singleton]
    rintro sides hSides _ rfl rfl
    exact hMem hSides

/-- No two rules have the same sides afterwards. -/
theorem nodup_sides_mergeDuplicates :
    ((mergeDuplicates merge rules).map Rule.sides).Nodup := by
  have hFold : ∀ (rest merged : List (Rule α)),
      (merged.map Rule.sides).Nodup →
      ((rest.foldl (fun merged r => mergeInto merge r merged) merged).map
        Rule.sides).Nodup := by
    intro rest
    induction rest with
    | nil => exact fun _ h => h
    | cons r rest ih => exact fun merged h => ih _ (nodup_sides_mergeInto h)
  exact hFold rules [] (by simp)

theorem mergeDuplicates_append_singleton (r : Rule α) :
    mergeDuplicates merge (rules ++ [r]) =
      mergeInto merge r (mergeDuplicates merge rules) := by
  rw [mergeDuplicates, List.foldl_append]
  rfl

/-- Rules with different sides stay as they are. -/
theorem mergeDuplicates_eq_self (h : (rules.map Rule.sides).Nodup) :
    mergeDuplicates merge rules = rules := by
  have hFold : ∀ (rest merged : List (Rule α)),
      ((merged ++ rest).map Rule.sides).Nodup →
      rest.foldl (fun merged r => mergeInto merge r merged) merged =
        merged ++ rest := by
    intro rest
    induction rest with
    | nil => simp
    | cons r rest ih =>
        intro merged hNodup
        have hNew : r.sides ∉ merged.map Rule.sides := by
          rw [List.map_append, List.map_cons, List.nodup_middle,
            List.nodup_cons] at hNodup
          exact fun hMem => hNodup.1 (List.mem_append_left _ hMem)
        rw [List.foldl_cons, mergeInto_of_notMem hNew,
          ih _ (by simpa using hNodup), List.append_assoc,
          List.singleton_append]
  exact hFold rules [] h

end Merge

/-! ## Unused rules -/

section Collect

variable {rules : List (Rule α)}

/-- The rules of a symbol on a right side, or of the start symbol, are all
referenced. -/
theorem expand_referenced {a : SymbolId}
    (ha : a = startId ∨ ∃ s ∈ rules, a ∈ s.rhs) (h : Weighting)
    (w : List SymbolId) :
    expand (valued φ (referenced rules)) h a w =
      expand (valued φ rules) h a w := by
  have hKept : ∀ rs : List (Rule α), rs ⊆ rules →
      expand (valued φ (rs.filter (isReferenced rules))) h a w =
        expand (valued φ rs) h a w := by
    intro rs
    induction rs with
    | nil => exact fun _ => rfl
    | cons r rs ih =>
        intro hSubset
        obtain ⟨hr, hSubset⟩ := List.cons_subset.1 hSubset
        rw [valued_cons, expand_cons, ← ih hSubset]
        by_cases hReferenced : isReferenced rules r = true
        · rw [List.filter_cons_of_pos hReferenced, valued_cons, expand_cons]
        · have hZero : ruleWeight h a w ⟨r.lhs, r.rhs, φ r.probability⟩ =
              0 := by
            refine ruleWeight_of_ne fun hLhs => hReferenced ?_
            have hLhs : r.lhs = a := hLhs
            rw [← hLhs] at ha
            simpa [isReferenced] using ha
          rw [List.filter_cons_of_neg hReferenced, hZero, zero_add]
  exact hKept rules (List.Subset.refl _)

/-- Dropping the rules that are not referenced keeps the weights of the start
symbol. -/
theorem total_referenced :
    total isTerminal (valued φ (referenced rules)) startId =
      total isTerminal (valued φ rules) startId := by
  have hSub : (valued φ (referenced rules)).Sublist (valued φ rules) :=
    List.filter_sublist.map _
  refine le_antisymm (total_mono hSub startId) ?_
  -- whatever is not referenced may have any weight
  let f : Weighting := fun a w =>
    if a = startId ∨ ∃ s ∈ rules, a ∈ s.rhs then
      total isTerminal (valued φ (referenced rules)) a w
    else ⊤
  have hLe : total isTerminal (valued φ rules) ≤ f := by
    refine total_le fun a w => ?_
    by_cases ha : a = startId ∨ ∃ s ∈ rules, a ∈ s.rhs
    · have hFa : f a w = total isTerminal (valued φ (referenced rules)) a w :=
        if_pos ha
      have hRows : expand (valued φ rules) (withLeaves isTerminal f) a w =
          expand (valued φ rules)
            (totals isTerminal (valued φ (referenced rules))) a w := by
        refine expand_congr fun r hr _ => congrFun (row_congr fun x hx => ?_) w
        obtain ⟨s, hs, rfl⟩ := List.mem_map.1 hr
        have hx : x = startId ∨ ∃ s ∈ rules, x ∈ s.rhs := .inr ⟨s, hs, hx⟩
        simp [totals, withLeaves, f, hx]
      rw [hRows, ← expand_referenced ha, expand_total, hFa]
    · exact le_top.trans_eq (if_neg ha).symm
  intro w
  exact (hLe startId w).trans_eq (if_pos (.inl rfl))

/-- Dropping unused rules keeps the weights of the start symbol. -/
theorem total_collect :
    total isTerminal (valued φ (collect rules)) startId =
      total isTerminal (valued φ rules) startId := by
  induction rules using collect.induct with
  | case1 rules h ih => rw [collect, if_pos h, ih, total_referenced]
  | case2 rules h => rw [collect, if_neg h]

/-- If all left sides are referenced, no rule is dropped. -/
theorem collect_eq_self (h : ∀ r ∈ rules, isReferenced rules r = true) :
    collect rules = rules := by
  have hAll : referenced rules = rules := List.filter_eq_self.2 h
  rw [collect, hAll, if_neg (Nat.lt_irrefl _)]

end Collect

/-! ## The rule for the empty string -/

section EmptyRule

variable {rules : List (Rule ℝ≥0∞)} {p : ℝ≥0∞}

theorem expand_emptyRule (hEmpty : isTerminal emptyId = true) (f : Weighting)
    (a : SymbolId) (w : List SymbolId) :
    expand (rules ++ [⟨startId, [emptyId], p⟩])
      (withLeaves isTerminal f) a w =
    expand rules (withLeaves isTerminal f) a w +
      if a = startId ∧ w = [] then p else 0 := by
  rw [expand_append, expand_cons, expand_nil, add_zero, ruleWeight,
    row_singleton, withLeaves_terminal hEmpty, leaf_emptyId, silent]
  by_cases ha : startId = a
  · by_cases hw : w = []
    · simp [ha.symm, hw]
    · simp [ha.symm, hw]
  · have hNe : a ≠ startId := Ne.symm ha
    simp [ha, hNe]

/-- The rule gives the empty word no more than its weight, and no other word
anything. -/
theorem total_emptyRule_le (hEmpty : isTerminal emptyId = true)
    (hNoStart : ∀ r ∈ rules, startId ∉ r.rhs) :
    total isTerminal (rules ++ [⟨startId, [emptyId], p⟩]) ≤ fun a w =>
      total isTerminal rules a w + if a = startId ∧ w = [] then p else 0 := by
  refine total_le fun a w => ?_
  rw [expand_emptyRule hEmpty]
  refine add_le_add_left (le_of_eq ?_) _
  rw [← expand_total isTerminal rules]
  refine expand_congr fun r hr _ => congrFun (row_congr fun x hx => ?_) w
  have hx : x ≠ startId := fun h => hNoStart r hr (h ▸ hx)
  rw [expand_total]
  unfold totals withLeaves
  split
  · rfl
  · simp [hx]

/-- A rule from the start symbol to the empty string symbol gives its weight to
the empty word. -/
theorem total_emptyRule (hEmpty : isTerminal emptyId = true)
    (hNoStart : ∀ r ∈ rules, startId ∉ r.rhs) (w : List SymbolId) :
    total isTerminal (rules ++ [⟨startId, [emptyId], p⟩]) startId w =
      total isTerminal rules startId w + if w = [] then p else 0 := by
  apply le_antisymm
  · simpa using total_emptyRule_le (p := p) hEmpty hNoStart startId w
  · calc total isTerminal rules startId w + (if w = [] then p else 0)
        = expand rules (totals isTerminal rules) startId w +
            if startId = startId ∧ w = [] then p else 0 := by
          rw [expand_total]
          simp
      _ ≤ expand rules (totals isTerminal
            (rules ++ [⟨startId, [emptyId], p⟩])) startId w +
            if startId = startId ∧ w = [] then p else 0 := by
          gcongr
          exact expand_mono (withLeaves_mono
            (total_mono (List.sublist_append_left _ _))) startId w
      _ = total isTerminal (rules ++ [⟨startId, [emptyId], p⟩]) startId w := by
          rw [← expand_emptyRule hEmpty, expand_total]

end EmptyRule

end StochasticGrammar.NormalForm
