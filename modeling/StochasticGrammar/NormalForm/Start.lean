import StochasticGrammar.Grammar.Basic

/-!
# Isolating the start symbol

In the normal form the start symbol stands on no right side. If it does stand
on one, a fresh copy of it takes those places over, and every rule of the start
symbol is repeated for the copy.

Main results: no right side holds the start symbol once a copy has taken its
places (`startId_notMem_of_mem_copyStart`).
-/

namespace StochasticGrammar.NormalForm

variable {α : Type}

/-- Rules together with the alphabet they have grown. -/
structure Stage (α : Type) where
  /-- The symbols, with the fresh ones. -/
  alphabet : Alphabet
  /-- The rules. -/
  rules : List (Rule α)

/-- The right side with the copy in all places of the start symbol. -/
def substituteStart (copy : SymbolId) (rhs : List SymbolId) : List SymbolId :=
  rhs.map fun t => if t = startId then copy else t

/-- The rules with the copy on their right sides, and the rules of the start
symbol once more for the copy. -/
def copyStart (copy : SymbolId) (rules : List (Rule α)) : List (Rule α) :=
  rules.map (fun r => ⟨r.lhs, substituteStart copy r.rhs, r.probability⟩) ++
    (rules.filter (·.lhs == startId)).map fun r =>
      ⟨copy, substituteStart copy r.rhs, r.probability⟩

/-- Makes sure that the start symbol stands on no right side. -/
def isolateStart (al : Alphabet) (rules : List (Rule α)) :
    Except SymbolError (Stage α) :=
  if rules.any fun r => r.rhs.contains startId then do
    let (copy, al) ← al.add .nonterminal (al.freshLabel startLabel) none
    return ⟨al, copyStart copy rules⟩
  else return ⟨al, rules⟩

theorem startId_notMem_substituteStart {copy : SymbolId} (h : copy ≠ startId)
    (rhs : List SymbolId) : startId ∉ substituteStart copy rhs := by
  intro hMem
  obtain ⟨t, _, hEq⟩ := List.mem_map.1 hMem
  split at hEq
  · exact h hEq
  · rename_i hNe
    exact hNe hEq

/-- No right side holds the start symbol once a copy has taken its places. -/
theorem startId_notMem_of_mem_copyStart {copy : SymbolId} (h : copy ≠ startId)
    {rules : List (Rule α)} {r : Rule α} (hr : r ∈ copyStart copy rules) :
    startId ∉ r.rhs := by
  rcases List.mem_append.1 hr with hr | hr
  · obtain ⟨_, _, rfl⟩ := List.mem_map.1 hr
    exact startId_notMem_substituteStart h _
  · obtain ⟨_, _, rfl⟩ := List.mem_map.1 hr
    exact startId_notMem_substituteStart h _

end StochasticGrammar.NormalForm
