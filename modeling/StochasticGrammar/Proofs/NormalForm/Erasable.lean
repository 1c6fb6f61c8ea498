import Mathlib.Data.List.Nodup
import StochasticGrammar.NormalForm.Erasable
import StochasticGrammar.Proofs.Weight.Basic

/-!
# The erasable symbols are those that derive nothing

Every round that changes the list of found symbols makes it longer, and all of
them are left sides of rules, so there are enough rounds for one that changes
nothing.  Such a round shows that the list is closed under the rules.

Main results: the list is closed (`eraseClosed_erasables`) and has nothing that
the rules do not call for (`erasables_induction`).  So the symbols that are not
in it give no weight to the empty word (`total_nil_eq_zero`).
-/

namespace StochasticGrammar.NormalForm

open Weighting
open scoped ENNReal

variable {α : Type} {rules : List (Rule α)} {found : List SymbolId}

/-- Rules over symbols of the list have their left sides in the list. -/
def EraseClosed (rules : List (Rule α)) (found : List SymbolId) : Prop :=
  ∀ r ∈ rules, (∀ t ∈ r.rhs, t ∈ found) → r.lhs ∈ found

theorem erasesNow_iff {r : Rule α} :
    erasesNow found r = true ↔ r.lhs ∉ found ∧ ∀ t ∈ r.rhs, t ∈ found := by
  simp [erasesNow]

/-! ## One round -/

theorem prefix_eraseStep (found : List SymbolId) (r : Rule α) :
    found <+: eraseStep found r := by
  unfold eraseStep
  split
  · exact List.prefix_append _ _
  · exact List.prefix_rfl

theorem prefix_eraseRound (rules : List (Rule α)) (found : List SymbolId) :
    found <+: eraseRound rules found := by
  unfold eraseRound
  induction rules generalizing found with
  | nil => exact List.prefix_rfl
  | cons r rules ih => exact (prefix_eraseStep found r).trans (ih _)

theorem lhs_mem_eraseStep {r : Rule α} (h : ∀ t ∈ r.rhs, t ∈ found) :
    r.lhs ∈ eraseStep found r := by
  by_cases hOld : r.lhs ∈ found
  · exact (prefix_eraseStep found r).subset hOld
  · rw [eraseStep, if_pos (erasesNow_iff.2 ⟨hOld, h⟩)]
    simp

theorem lhs_mem_eraseRound {r : Rule α} (hr : r ∈ rules)
    (h : ∀ t ∈ r.rhs, t ∈ found) : r.lhs ∈ eraseRound rules found := by
  unfold eraseRound
  induction rules generalizing found with
  | nil => simp at hr
  | cons s rules ih =>
      rcases List.mem_cons.1 hr with rfl | hr
      · exact (prefix_eraseRound rules _).subset (lhs_mem_eraseStep h)
      · exact ih hr fun t ht => (prefix_eraseStep found s).subset (h t ht)

/-- What a rule carries from the symbols on the right to the one on the left
holds of what it adds. -/
theorem forall_mem_eraseStep {p : SymbolId → Prop} {r : Rule α}
    (hRule : (∀ t ∈ r.rhs, p t) → p r.lhs) (hFound : ∀ t ∈ found, p t) :
    ∀ t ∈ eraseStep found r, p t := by
  unfold eraseStep
  split
  · rename_i hNow
    intro t ht
    rcases List.mem_append.1 ht with hOld | hNew
    · exact hFound t hOld
    · rw [List.mem_singleton.1 hNew]
      exact hRule fun u hu => hFound u ((erasesNow_iff.1 hNow).2 u hu)
  · exact hFound

/-- What every step keeps, a round keeps. -/
theorem eraseRound_invariant {p : List SymbolId → Prop}
    (hStep : ∀ found, ∀ r ∈ rules, p found → p (eraseStep found r))
    (hFound : p found) : p (eraseRound rules found) := by
  unfold eraseRound
  induction rules generalizing found with
  | nil => exact hFound
  | cons r rules ih =>
      exact ih (fun found s hs => hStep found s (by simp [hs]))
        (hStep found r (by simp) hFound)

/-! ## All rounds -/

/-- With enough rounds left, the search ends on a closed list. -/
theorem eraseClosed_eraseRounds (n : Nat) (hNodup : found.Nodup)
    (hHeads : found ⊆ rules.map (·.lhs))
    (hEnough : rules.length ≤ found.length + n) :
    EraseClosed rules (eraseRounds rules n found) := by
  induction n generalizing found with
  | zero =>
      -- there is no left side that has not been found
      have hPerm : found.Perm (rules.map (·.lhs)) :=
        (hNodup.subperm hHeads).perm_of_length_le
          (by rw [List.length_map]; exact hEnough)
      intro r hr _
      exact hPerm.mem_iff.2 (List.mem_map_of_mem hr)
  | succ n ih =>
      unfold eraseRounds
      have hPrefix := prefix_eraseRound rules found
      by_cases hSame : (eraseRound rules found).length = found.length
      · simp only [hSame, if_true]
        intro r hr h
        rw [hPrefix.eq_of_length hSame.symm]
        exact lhs_mem_eraseRound hr h
      · simp only [hSame, if_false]
        have hGrows := hPrefix.length_le
        refine ih (nodup_eraseRound rules hNodup) ?_ (by omega)
        exact eraseRound_invariant
          (p := fun found => found ⊆ rules.map Rule.lhs) (fun _ r hr hFound =>
            forall_mem_eraseStep (fun _ => List.mem_map_of_mem hr) hFound)
          hHeads

theorem eraseClosed_erasables (rules : List (Rule α)) :
    EraseClosed rules (erasables rules) :=
  eraseClosed_eraseRounds _ List.nodup_nil (by simp) (by simp)

/-- What every step keeps holds of the list that the search ends on. -/
theorem erasables_invariant {p : List SymbolId → Prop} (hNil : p [])
    (hStep : ∀ found, ∀ r ∈ rules, p found → p (eraseStep found r)) :
    p (erasables rules) := by
  have hRounds : ∀ (n : Nat) (found : List SymbolId), p found →
      p (eraseRounds rules n found) := by
    intro n
    induction n with
    | zero => exact fun _ hFound => hFound
    | succ n ih =>
        intro found hFound
        unfold eraseRounds
        simp only
        split
        · exact hFound
        · exact ih _ (eraseRound_invariant hStep hFound)
  exact hRounds _ [] hNil

theorem erasables_induction {p : SymbolId → Prop}
    (hRule : ∀ r ∈ rules, (∀ t ∈ r.rhs, p t) → p r.lhs) :
    ∀ t ∈ erasables rules, p t :=
  erasables_invariant (p := fun found => ∀ t ∈ found, p t) (by simp)
    fun _ r hr hFound => forall_mem_eraseStep (hRule r hr) hFound

/-! ## Weights of the empty word -/

section Nil

variable {isTerminal : SymbolId → Bool} {φ : α → ℝ≥0∞}
  (hEmpty : ∀ r ∈ rules, emptyId ∉ r.rhs)

include hEmpty

/-- Only erasable symbols give weight to the empty word. -/
theorem total_nil_eq_zero {x : SymbolId} (hx : x ∉ erasables rules) :
    total isTerminal (valued φ rules) x [] = 0 := by
  let f : Weighting := fun y w => if w = [] ∧ y ∉ erasables rules then 0 else ⊤
  have hLe : total isTerminal (valued φ rules) ≤ f := by
    refine total_le fun y w => ?_
    by_cases hy : w = [] ∧ y ∉ erasables rules
    · obtain ⟨rfl, hNot⟩ := hy
      refine le_trans (le_of_eq (expand_eq_zero fun r hr hLhs => ?_)) zero_le
      obtain ⟨s, hs, rfl⟩ := List.mem_map.1 hr
      have hLhs : s.lhs = y := hLhs
      -- some symbol on the right is not erasable
      obtain ⟨t, ht, htNot⟩ : ∃ t ∈ s.rhs, t ∉ erasables rules := by
        by_contra hAll
        push Not at hAll
        exact hNot (hLhs ▸ eraseClosed_erasables rules s hs hAll)
      rw [row_apply_nil]
      refine List.prod_eq_zero (List.mem_map.2 ⟨t, ht, ?_⟩)
      have htEmpty : t ≠ emptyId := fun h => hEmpty s hs (h ▸ ht)
      by_cases hTerminal : isTerminal t = true
      · rw [withLeaves_terminal hTerminal, leaf_nil htEmpty]
      · rw [withLeaves_nonterminal (by simpa using hTerminal)]
        exact if_pos ⟨rfl, htNot⟩
    · exact le_top.trans_eq (if_neg hy).symm
  have hZero : f x [] = 0 := if_pos ⟨rfl, hx⟩
  exact le_antisymm ((hLe x []).trans_eq hZero) zero_le

/-- On a right side, only erasable symbols give weight to the empty word. -/
theorem totals_nil_eq_zero {x : SymbolId} (hNe : x ≠ emptyId)
    (hx : x ∉ erasables rules) :
    totals isTerminal (valued φ rules) x [] = 0 := by
  by_cases hTerminal : isTerminal x = true
  · rw [totals, withLeaves_terminal hTerminal, leaf_nil hNe]
  · rw [totals, withLeaves_nonterminal (by simpa using hTerminal),
      total_nil_eq_zero hEmpty hx]

end Nil

/-- If no rule is without weight, erasable symbols give weight to the empty
word. -/
theorem totals_nil_ne_zero {isTerminal : SymbolId → Bool} {φ : α → ℝ≥0∞}
    (hHead : ∀ r ∈ rules, isTerminal r.lhs = false)
    (hWeight : ∀ r ∈ rules, φ r.probability ≠ 0) :
    ∀ x ∈ erasables rules,
      totals isTerminal (valued φ rules) x [] ≠ 0 := by
  refine erasables_induction fun r hr hBelow => ?_
  rw [totals, withLeaves_nonterminal (hHead r hr), ← expand_total]
  have hMem : (⟨r.lhs, r.rhs, φ r.probability⟩ : Rule ℝ≥0∞) ∈
      valued φ rules := List.mem_map_of_mem hr
  have hLe := ruleWeight_le_expand (a := r.lhs) (w := [])
    (h := totals isTerminal (valued φ rules)) hMem
  refine ne_of_gt (lt_of_lt_of_le ?_ hLe)
  rw [ruleWeight, if_pos rfl, row_apply_nil]
  refine pos_iff_ne_zero.2 (mul_ne_zero (hWeight r hr) ?_)
  refine List.prod_ne_zero fun hZero => ?_
  obtain ⟨x, hx, hEq⟩ := List.mem_map.1 hZero
  exact hBelow x hx hEq

end StochasticGrammar.NormalForm
