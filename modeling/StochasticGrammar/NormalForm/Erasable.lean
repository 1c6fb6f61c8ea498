import StochasticGrammar.Grammar.Rule

/-!
# Erasable symbols

A symbol is erasable if it derives the empty string. The erasable symbols are
found by going through the rules again and again: a rule whose right side holds
erasable symbols only makes its left side erasable, at once for the rules that
follow. A round that finds nothing ends the search.

Every round but the last finds a new left side, so as many rounds as there are
rules are enough.

Main results: every erasable symbol is found once (`nodup_erasables`).
-/

namespace StochasticGrammar.NormalForm

variable {α : Type}

/-- Whether a rule makes its left side a new erasable symbol. -/
def erasesNow (found : List SymbolId) (r : Rule α) : Bool :=
  !found.contains r.lhs && r.rhs.all found.contains

/-- The symbols found after a rule has been looked at. -/
def eraseStep (found : List SymbolId) (r : Rule α) : List SymbolId :=
  if erasesNow found r then found ++ [r.lhs] else found

/-- The symbols found after a round through the rules. -/
def eraseRound (rules : List (Rule α)) (found : List SymbolId) :
    List SymbolId :=
  rules.foldl eraseStep found

/-- The symbols found when a round finds nothing new, or after a number of
rounds. -/
def eraseRounds (rules : List (Rule α)) : Nat → List SymbolId → List SymbolId
  | 0, found => found
  | n + 1, found =>
    let next := eraseRound rules found
    if next.length = found.length then found else eraseRounds rules n next

/-- The symbols that derive the empty string, in the order in which they are
found. -/
def erasables (rules : List (Rule α)) : List SymbolId :=
  eraseRounds rules rules.length []

/-! ## What is found -/

theorem nodup_eraseStep {found : List SymbolId} (h : found.Nodup)
    (r : Rule α) : (eraseStep found r).Nodup := by
  unfold eraseStep
  split
  · rename_i hNew
    have hNotMem : r.lhs ∉ found := by
      simp [erasesNow] at hNew
      exact hNew.1
    rw [List.nodup_append]
    refine ⟨h, by simp, ?_⟩
    intro a ha b hb
    simp at hb
    subst hb
    intro hEq
    exact hNotMem (hEq ▸ ha)
  · exact h

theorem nodup_eraseRound (rules : List (Rule α)) {found : List SymbolId}
    (h : found.Nodup) : (eraseRound rules found).Nodup := by
  unfold eraseRound
  induction rules generalizing found with
  | nil => exact h
  | cons r rules ih => exact ih (nodup_eraseStep h r)

theorem nodup_eraseRounds (rules : List (Rule α)) (n : Nat)
    {found : List SymbolId} (h : found.Nodup) :
    (eraseRounds rules n found).Nodup := by
  induction n generalizing found with
  | zero => exact h
  | succ n ih =>
    unfold eraseRounds
    simp only
    split
    · exact h
    · exact ih (nodup_eraseRound rules h)

/-- Every erasable symbol is found once. -/
theorem nodup_erasables (rules : List (Rule α)) : (erasables rules).Nodup :=
  nodup_eraseRounds rules _ List.nodup_nil

end StochasticGrammar.NormalForm
