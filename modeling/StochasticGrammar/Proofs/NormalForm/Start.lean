import StochasticGrammar.NormalForm.Start
import StochasticGrammar.Proofs.Weight.Basic

/-!
# Weights when the start symbol is isolated

Leaving out the empty string symbol changes no weight, since it stands for
nothing.  A copy of the start symbol takes its weights over, and the weights of
all other symbols stay as they are.

Main results: `total_withoutEmpty`, `total_copyStart`.
-/

namespace StochasticGrammar.NormalForm

open Weighting
open scoped ENNReal

variable {isTerminal : SymbolId → Bool} {rules : List (Rule ℝ≥0∞)}

/-! ## The empty string symbol -/

theorem row_withoutEmpty {h : Weighting} (hEmpty : h emptyId = silent)
    (rhs : List SymbolId) : row h (rhs.filter (· != emptyId)) = row h rhs := by
  induction rhs with
  | nil => rfl
  | cons x rest ih =>
      by_cases hx : x = emptyId
      · rw [List.filter_cons_of_neg (by simp [hx]), ih, row, hx, hEmpty,
          silent_splice]
      · rw [List.filter_cons_of_pos (by simp [hx]), row, row, ih]

/-- Leaving out the empty string symbol changes no weight. -/
theorem total_withoutEmpty (hEmpty : isTerminal emptyId = true) :
    total isTerminal (rules.map Rule.withoutEmpty) =
      total isTerminal rules := by
  refine total_congr fun f => ?_
  funext a w
  have hSilent : withLeaves isTerminal f emptyId = silent := by
    rw [withLeaves_terminal hEmpty, leaf_emptyId]
  rw [expand, expand, List.map_map]
  refine congrArg List.sum (List.map_congr_left fun r _ => ?_)
  show (if r.lhs = a then r.probability *
    row (withLeaves isTerminal f) (r.rhs.filter (· != emptyId)) w else 0) = _
  rw [row_withoutEmpty hSilent, ruleWeight]

/-! ## The copy of the start symbol -/

section Copy

variable {copy : SymbolId}

/-- The rules with the copy on their right sides. -/
def substituted (copy : SymbolId) (rules : List (Rule ℝ≥0∞)) :
    List (Rule ℝ≥0∞) :=
  rules.map fun r => ⟨r.lhs, substituteStart copy r.rhs, r.probability⟩

/-- A weighting that treats the copy as the start symbol does not see the
substitution. -/
theorem row_substituteStart {h : Weighting} (hCopy : h copy = h startId)
    (rhs : List SymbolId) : row h (substituteStart copy rhs) = row h rhs := by
  induction rhs with
  | nil => rfl
  | cons x rest ih =>
      have hHead : h (if x = startId then copy else x) = h x := by
        by_cases hx : x = startId
        · rw [if_pos hx, hCopy, hx]
        · rw [if_neg hx]
      show splice (h (if x = startId then copy else x))
        (row h (substituteStart copy rest)) = _
      rw [hHead, ih, row]

theorem expand_substituted {h : Weighting} (hCopy : h copy = h startId)
    (a : SymbolId) (w : List SymbolId) :
    expand (substituted copy rules) h a w = expand rules h a w := by
  rw [expand, expand, substituted, List.map_map]
  refine congrArg List.sum (List.map_congr_left fun r _ => ?_)
  show (if r.lhs = a then r.probability *
    row h (substituteStart copy r.rhs) w else 0) = _
  rw [row_substituteStart hCopy, ruleWeight]

/-- The copy has the rules of the start symbol. -/
theorem expand_copyStart (h : Weighting)
    (hFresh : ∀ r ∈ rules, r.lhs ≠ copy) (a : SymbolId)
    (w : List SymbolId) :
    expand (copyStart copy rules) h a w =
      expand (substituted copy rules) h
        (if a = copy then startId else a) w := by
  have hNew : ∀ rs : List (Rule ℝ≥0∞),
      expand ((rs.filter (·.lhs == startId)).map fun r =>
        ⟨copy, substituteStart copy r.rhs, r.probability⟩) h a w =
          if a = copy then expand (substituted copy rs) h startId w
          else 0 := by
    intro rs
    induction rs with
    | nil => simp [substituted]
    | cons r rs ih =>
        rw [substituted, List.map_cons, ← substituted, expand_cons]
        by_cases hLhs : r.lhs = startId
        · rw [List.filter_cons_of_pos (by simp [hLhs]), List.map_cons,
            expand_cons, ih, ruleWeight, ruleWeight, if_pos hLhs]
          by_cases ha : a = copy
          · rw [if_pos ha, if_pos ha, if_pos ha.symm]
          · rw [if_neg ha, if_neg ha, if_neg (Ne.symm ha), zero_add]
        · have hZero : ruleWeight h startId w
              ⟨r.lhs, substituteStart copy r.rhs, r.probability⟩ = 0 :=
            ruleWeight_of_ne hLhs
          rw [List.filter_cons_of_neg (by simp [hLhs]), ih, hZero, zero_add]
  rw [copyStart, expand_append, hNew, ← substituted]
  by_cases ha : a = copy
  · have hNone : expand (substituted copy rules) h a w = 0 := by
      refine expand_eq_zero fun r hr hLhs => ?_
      obtain ⟨s, hs, rfl⟩ := List.mem_map.1 hr
      exact absurd (hLhs.trans ha) (hFresh s hs)
    rw [if_pos ha, if_pos ha, hNone, zero_add]
  · rw [if_neg ha, if_neg ha, add_zero]

/-- A fresh copy of the start symbol changes the weights of no other
symbol. -/
theorem total_copyStart (hStart : isTerminal startId = false)
    (hTerminal : isTerminal copy = false) (hNe : copy ≠ startId)
    (hFresh : ∀ r ∈ rules, r.lhs ≠ copy ∧ copy ∉ r.rhs) {a : SymbolId}
    (ha : a ≠ copy) :
    total isTerminal (copyStart copy rules) a = total isTerminal rules a := by
  have hLhs : ∀ r ∈ rules, r.lhs ≠ copy := fun r hr => (hFresh r hr).1
  apply le_antisymm
  · -- the old weights, with those of the start symbol for the copy
    let f : Weighting := fun x =>
      total isTerminal rules (if x = copy then startId else x)
    have hCopy : withLeaves isTerminal f copy =
        withLeaves isTerminal f startId := by
      rw [withLeaves_nonterminal hTerminal, withLeaves_nonterminal hStart]
      simp [f, hNe.symm]
    have hRow : ∀ r ∈ rules, row (withLeaves isTerminal f) r.rhs =
        row (totals isTerminal rules) r.rhs := by
      intro r hr
      refine row_congr fun x hx => ?_
      have hx : x ≠ copy := fun h => (hFresh r hr).2 (h ▸ hx)
      simp [totals, withLeaves, f, hx]
    have hLe : total isTerminal (copyStart copy rules) ≤ f := by
      refine total_le fun x w => ?_
      rw [expand_copyStart _ hLhs, expand_substituted hCopy,
        expand_congr fun r hr _ => congrFun (hRow r hr) w, expand_total]
    have hOne := hLe a
    simpa [f, ha] using hOne
  · -- the new weights give the copy what they give the start symbol
    have hSame : totals isTerminal (copyStart copy rules) copy =
        totals isTerminal (copyStart copy rules) startId := by
      funext w
      rw [totals, withLeaves_nonterminal hTerminal,
        withLeaves_nonterminal hStart, ← expand_total,
        expand_copyStart _ hLhs, expand_copyStart _ hLhs, if_pos rfl,
        if_neg hNe.symm]
    refine total_le (fun x w => ?_) a
    rw [← expand_total isTerminal (copyStart copy rules)]
    by_cases hx : x = copy
    · rw [expand_eq_zero fun r hr h => absurd (h.trans hx) (hLhs r hr)]
      exact zero_le
    · rw [expand_copyStart _ hLhs, if_neg hx, expand_substituted hSame,
        expand_total]

end Copy

end StochasticGrammar.NormalForm
