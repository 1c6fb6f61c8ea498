import Mathlib.Computability.StateTransition
import StochasticGrammar.NormalForm.Cleanup
import StochasticGrammar.Proofs.Tree.Nodes

/-!
# Dropping unused rules

Rules are dropped round by round, with no bound built into the definition
(`nextRules?`).

Rules refer to each other if every left side is the start symbol or stands on
one of their right sides.  Such a part of the rules loses nothing in a round,
so it is kept to the end, and what is kept to the end is such a part itself.
A derivation tree from the start symbol uses nothing else, because every node
below the root has a symbol from the right side of the rule above it.

Main results: `eval_nextRules?`, `SelfReferenced.sublist_collect` and
`exists_rule_mem_collect`, which make up `collect_exact`.
-/

namespace StochasticGrammar.NormalForm

open ParseTree

variable {α : Type} {rules kept : List (Rule α)}

/-- Every left side is the start symbol or stands on a right side. -/
def SelfReferenced (rules : List (Rule α)) : Prop :=
  ∀ r ∈ rules, r.lhs = startId ∨ ∃ s ∈ rules, r.lhs ∈ s.rhs

theorem isReferenced_iff {r : Rule α} :
    isReferenced rules r = true ↔
      r.lhs = startId ∨ ∃ s ∈ rules, r.lhs ∈ s.rhs := by
  simp [isReferenced]

/-- What a part of the rules refers to, all of them do. -/
theorem isReferenced_of_subset (hSub : kept ⊆ rules) {r : Rule α}
    (h : r.lhs = startId ∨ ∃ s ∈ kept, r.lhs ∈ s.rhs) :
    isReferenced rules r = true := by
  refine isReferenced_iff.2 (h.imp_right ?_)
  rintro ⟨s, hs, hMem⟩
  exact ⟨s, hSub hs, hMem⟩

theorem selfReferenced_collect (rules : List (Rule α)) :
    SelfReferenced (collect rules) :=
  fun _ hr => isReferenced_iff.1 (isReferenced_of_mem_collect rules hr)

/-! ## Rounds without a bound -/

/-- The rules after one more round; none if the round drops nothing. -/
def nextRules? (rules : List (Rule α)) : Option (List (Rule α)) :=
  if (referenced rules).length < rules.length then some (referenced rules)
  else none

theorem SelfReferenced.nextRules?_eq_none (h : SelfReferenced rules) :
    nextRules? rules = none := by
  have hAll : referenced rules = rules :=
    List.filter_eq_self.2 fun r hr => isReferenced_iff.2 (h r hr)
  exact if_neg (hAll.symm ▸ Nat.lt_irrefl _)

theorem reaches_collect (rules : List (Rule α)) :
    StateTransition.Reaches nextRules? rules (collect rules) := by
  induction rules using collect.induct with
  | case1 rules hLess ih =>
      rw [collect, if_pos hLess]
      exact .head (if_pos hLess) ih
  | case2 rules hSame =>
      rw [collect, if_neg hSame]
      exact .refl

/-- Without a bound on its rounds, the dropping of rules ends with the same
rules. -/
theorem eval_nextRules? (rules : List (Rule α)) :
    StateTransition.eval nextRules? rules = Part.some (collect rules) :=
  Part.eq_some_iff.2 (StateTransition.mem_eval.2
    ⟨reaches_collect rules,
      (selfReferenced_collect rules).nextRules?_eq_none⟩)

/-! ## The largest part -/

/-- Rules that refer to each other are kept. -/
theorem SelfReferenced.sublist_collect (h : SelfReferenced kept)
    (hSub : kept.Sublist rules) : kept.Sublist (collect rules) := by
  induction rules using collect.induct with
  | case1 rules hLess ih =>
      rw [collect, if_pos hLess]
      have hStays : kept.filter (isReferenced rules) = kept :=
        List.filter_eq_self.2 fun r hr =>
          isReferenced_of_subset hSub.subset (h r hr)
      exact ih (hStays ▸ hSub.filter (isReferenced rules))
  | case2 rules hSame => rwa [collect, if_neg hSame]

/-- A rule that what is kept refers to is kept. -/
theorem mem_collect_of_referenced {r : Rule α} (hr : r ∈ rules)
    (h : r.lhs = startId ∨ ∃ s ∈ collect rules, r.lhs ∈ s.rhs) :
    r ∈ collect rules := by
  induction rules using collect.induct with
  | case1 rules hLess ih =>
      rw [collect, if_pos hLess] at h ⊢
      have hSub : collect (referenced rules) ⊆ rules :=
        ((NormalForm.sublist_collect _).trans List.filter_sublist).subset
      exact ih (List.mem_filter.2 ⟨hr, isReferenced_of_subset hSub h⟩) h
  | case2 rules hSame => rwa [collect, if_neg hSame]

/-! ## Derivation trees -/

/-- A derivation tree of a symbol that is needed has only rules that are
kept. -/
theorem exists_rule_mem_collect {al : Alphabet} {t : ParseTree}
    (h : t.IsDerivation (⟨al, rules⟩ : Grammar α))
    (hRoot : t.symbol = startId ∨ ∃ s ∈ collect rules, t.symbol ∈ s.rhs) :
    ∀ u ∈ t.nodes, ∀ ix, u.entry.rule = some ix →
      ∃ r ∈ collect rules,
        (⟨al, rules⟩ : Grammar α).rule? ix = some r := by
  induction h with
  | @terminal s _ =>
      intro u hu ix hIx
      rw [terminal, nodes_node, List.flatMap_nil, List.mem_singleton] at hu
      rw [hu] at hIx
      cases hIx
  | @branch ix r ts hRule hSymbols _ ih =>
      have hKept : r ∈ collect rules :=
        mem_collect_of_referenced (List.mem_of_getElem? hRule) hRoot
      intro u hu jx hJx
      rw [branch, nodes_node, List.mem_cons, List.mem_flatMap] at hu
      rcases hu with rfl | ⟨child, hChild, hu⟩
      · cases hJx
        exact ⟨r, hKept, (atSigned?_ofNat _ _).trans hRule⟩
      · have hSymbol : child.symbol ∈ r.rhs :=
          hSymbols ▸ List.mem_map_of_mem hChild
        exact ih child hChild (.inr ⟨r, hKept, hSymbol⟩) u hu jx hJx

/-- The dropping of unused rules ends.  It keeps, in their order, the largest
part of the rules in which every left side is the start symbol or stands on a
right side, and derivation trees from the start symbol have no other rules. -/
theorem collect_exact (rules : List (Rule α)) :
    StateTransition.eval nextRules? rules = Part.some (collect rules) ∧
      (collect rules).Sublist rules ∧
      SelfReferenced (collect rules) ∧
      (∀ kept : List (Rule α), kept.Sublist rules → SelfReferenced kept →
        kept.Sublist (collect rules)) ∧
      ∀ (al : Alphabet) (t : ParseTree),
        t.IsDerivation (⟨al, rules⟩ : Grammar α) → t.symbol = startId →
        ∀ u ∈ t.nodes, ∀ ix, u.entry.rule = some ix →
          ∃ r ∈ collect rules,
            (⟨al, rules⟩ : Grammar α).rule? ix = some r :=
  ⟨eval_nextRules? rules, NormalForm.sublist_collect rules,
    selfReferenced_collect rules,
    fun _ hSub hKept => hKept.sublist_collect hSub,
    fun _ _ hTree hStart => exists_rule_mem_collect hTree (.inl hStart)⟩

-- a rule that only a dropped rule refers to is dropped, one that refers to
-- itself stays
example : (collect [⟨startId, [2], 1⟩, ⟨3, [4], 1⟩, ⟨4, [2], 1⟩,
    ⟨5, [2, 5], 1⟩] : List (Rule ℕ)) =
      [⟨startId, [2], 1⟩, ⟨5, [2, 5], 1⟩] := by
  cbv

end StochasticGrammar.NormalForm
