import StochasticGrammar.Grammar.Rule

/-!
# Duplicate and unused rules

Rules with the same two sides become one, at the place of the first of them.
Then rules whose left side stands on no right side are dropped, except those of
the start symbol, until there are none.

Main results: what is kept was there (`sublist_collect`), and all of it is
referenced by what is kept (`isReferenced_of_mem_collect`).
-/

namespace StochasticGrammar.NormalForm

variable {α : Type}

/-- Adds a rule to a list without duplicates. A rule with the same sides takes
the sum of the probabilities if `merge` says so, and stays as it is if not. -/
def mergeInto [Add α] (merge : Bool) (r : Rule α) :
    List (Rule α) → List (Rule α)
  | [] => [r]
  | first :: rest =>
    if first.sameSides r then
      (if merge then
        first.withProbability (first.probability + r.probability)
      else first) :: rest
    else first :: mergeInto merge r rest

/-- The rules without duplicates, in the order of first appearance. -/
def mergeDuplicates [Add α] (merge : Bool) (rules : List (Rule α)) :
    List (Rule α) :=
  rules.foldl (fun merged r => mergeInto merge r merged) []

/-- Whether the left side of a rule is the start symbol or stands on the right
side of some rule. -/
def isReferenced (rules : List (Rule α)) (r : Rule α) : Bool :=
  r.lhs == startId || rules.any fun s => s.rhs.contains r.lhs

/-- The rules whose left sides are referenced. -/
def referenced (rules : List (Rule α)) : List (Rule α) :=
  rules.filter (isReferenced rules)

/-- Drops rules whose left sides are not referenced until none is left. -/
def collect (rules : List (Rule α)) : List (Rule α) :=
  if (referenced rules).length < rules.length then collect (referenced rules)
  else rules
termination_by rules.length

/-- What is kept was there, in the same order. -/
theorem sublist_collect (rules : List (Rule α)) :
    (collect rules).Sublist rules := by
  induction rules using collect.induct with
  | case1 rules h ih =>
    rw [collect, if_pos h]
    exact ih.trans List.filter_sublist
  | case2 rules h =>
    have hSame : collect rules = rules := by rw [collect, if_neg h]
    simp only [hSame, List.Sublist.refl]

/-- Every rule that is kept is referenced by what is kept. -/
theorem isReferenced_of_mem_collect (rules : List (Rule α)) {r : Rule α}
    (hr : r ∈ collect rules) : isReferenced (collect rules) r = true := by
  induction rules using collect.induct with
  | case1 rules h ih =>
    rw [collect, if_pos h] at hr ⊢
    exact ih hr
  | case2 rules h =>
    rw [collect, if_neg h] at hr ⊢
    have hLength : (referenced rules).length = rules.length := by
      have := List.length_filter_le (isReferenced rules) rules
      unfold referenced at h ⊢
      omega
    exact List.length_filter_eq_length_iff.1 hLength r hr

end StochasticGrammar.NormalForm
