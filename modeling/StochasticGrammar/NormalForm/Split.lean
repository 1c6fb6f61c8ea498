import StochasticGrammar.NormalForm.Start

/-!
# Splitting long rules

A rule with more than two symbols on the right becomes a chain of rules with
two: the first of them has the probability of the rule, and each hands the rest
of the right side to a fresh nonterminal whose only rule is the next one, with
probability one. The chains follow the rules that were short already.

Main results: no rule is longer than two afterwards (`length_le_of_mem_chain`).
-/

namespace StochasticGrammar.NormalForm

variable {α : Type}

/-- Adds a number of fresh nonterminals with labels made from a base. -/
def addFresh (base : String) :
    Nat → Alphabet → Except SymbolError (List SymbolId × Alphabet)
  | 0, al => return ([], al)
  | n + 1, al => do
    let (id, al) ← al.add .nonterminal (al.freshLabel base) none
    let (ids, al) ← addFresh base n al
    return (id :: ids, al)

/-- The chain from a left side over a right side: each fresh symbol takes over
what is left after one symbol. -/
def chain [One α] (lhs : SymbolId) (p : α) :
    List SymbolId → List SymbolId → List (Rule α)
  | first :: rest, id :: ids => ⟨lhs, [first, id], p⟩ :: chain id 1 rest ids
  | rhs, _ => [⟨lhs, rhs, p⟩]

/-- The chain of a long rule, with the fresh symbols it needs. -/
def splitRule [One α] (al : Alphabet) (r : Rule α) :
    Except SymbolError (Alphabet × List (Rule α)) := do
  let base ← al.label r.lhs
  let (ids, al) ← addFresh base (r.rhs.length - 2) al
  return (al, chain r.lhs r.probability r.rhs ids)

/-- The chains of long rules, one after another. -/
def splitRules [One α] (al : Alphabet) :
    List (Rule α) → Except SymbolError (Alphabet × List (Rule α))
  | [] => return (al, [])
  | r :: rest => do
    let (al, first) ← splitRule al r
    let (al, chains) ← splitRules al rest
    return (al, first ++ chains)

/-- Whether a rule has more than two symbols on the right. -/
def isLong (r : Rule α) : Bool := 2 < r.rhs.length

/-- Splits the rules with more than two symbols on the right. -/
def splitLong [One α] (s : Stage α) : Except SymbolError (Stage α) := do
  let (al, chains) ← splitRules s.alphabet (s.rules.filter isLong)
  return ⟨al, s.rules.filter (!isLong ·) ++ chains⟩

/-- With enough fresh symbols, the rules of a chain are short. -/
theorem length_le_of_mem_chain [One α] {lhs : SymbolId} {p : α}
    {rhs ids : List SymbolId} (h : rhs.length ≤ ids.length + 2) {r : Rule α}
    (hr : r ∈ chain lhs p rhs ids) : r.rhs.length ≤ 2 := by
  induction rhs generalizing lhs p ids with
  | nil =>
    simp only [chain, List.mem_singleton] at hr
    simp [hr]
  | cons first rest ih =>
    cases ids with
    | nil =>
      simp only [chain, List.mem_singleton] at hr
      simpa [hr] using h
    | cons id ids =>
      simp only [chain, List.mem_cons] at hr
      rcases hr with rfl | hr
      · simp
      · exact ih (by simp at h; omega) hr

end StochasticGrammar.NormalForm
