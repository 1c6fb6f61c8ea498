import Mathlib.Computability.StateTransition
import StochasticGrammar.Proofs.NormalForm.Erasable
import StochasticGrammar.Proofs.Tree.Derivation

/-!
# The search for erasable symbols

The search is followed round by round, with no bound built into the definition
(`nextRound?`).  It ends on a closed list, because a round finds something in
every list that is not closed.

A symbol is found when all symbols on the right side of one of its rules have
been found.  So the list is an order in which derivation trees of the empty
string can be put together.  Every such tree has its root in the list, because
the list is closed.

Main results: `eval_nextRound?`, `grounded_erasables` and
`mem_erasables_iff_exists_derives`, which make up `erasables_exact`.
-/

namespace StochasticGrammar.NormalForm

open ParseTree

variable {α : Type} {rules : List (Rule α)} {found : List SymbolId}

/-! ## Rounds without a bound -/

/-- The symbols after one more round; none if the round finds nothing. -/
def nextRound? (rules : List (Rule α)) (found : List SymbolId) :
    Option (List SymbolId) :=
  if eraseRound rules found = found then none
  else some (eraseRound rules found)

/-- A round finds nothing that a closed list lacks. -/
theorem EraseClosed.eraseRound_eq (h : EraseClosed rules found) :
    eraseRound rules found = found := by
  unfold eraseRound
  induction rules with
  | nil => rfl
  | cons r rules ih =>
      have hSame : eraseStep found r = found := by
        refine if_neg fun hNow => ?_
        obtain ⟨hNew, hRhs⟩ := erasesNow_iff.1 hNow
        exact hNew (h r (by simp) hRhs)
      rw [List.foldl_cons, hSame]
      exact ih fun s hs => h s (by simp [hs])

/-- The rounds that are allowed for are rounds of the search. -/
theorem reaches_eraseRounds (n : ℕ) : ∀ found : List SymbolId,
    StateTransition.Reaches (nextRound? rules) found
      (eraseRounds rules n found) := by
  induction n with
  | zero => exact fun _ => .refl
  | succ n ih =>
      intro found
      unfold eraseRounds
      by_cases hLength : (eraseRound rules found).length = found.length
      · simp only [hLength, if_true]
        exact .refl
      · simp only [hLength, if_false]
        have hNext : nextRound? rules found = some (eraseRound rules found) :=
          if_neg fun hSame => hLength (congrArg List.length hSame)
        exact .head hNext (ih _)

/-- Without a bound on its rounds, the search ends with the same list. -/
theorem eval_nextRound? (rules : List (Rule α)) :
    StateTransition.eval (nextRound? rules) [] = Part.some (erasables rules) :=
  Part.eq_some_iff.2 (StateTransition.mem_eval.2
    ⟨reaches_eraseRounds _ [],
      if_pos (eraseClosed_erasables rules).eraseRound_eq⟩)

/-! ## The order of the symbols -/

/-- Every symbol of the list has a rule whose right side has only symbols that
come before it. -/
def Grounded (rules : List (Rule α)) (found : List SymbolId) : Prop :=
  ∀ before x after, found = before ++ x :: after →
    ∃ r ∈ rules, r.lhs = x ∧ ∀ t ∈ r.rhs, t ∈ before

theorem Grounded.append_lhs (h : Grounded rules found) {r : Rule α}
    (hr : r ∈ rules) (hRhs : ∀ t ∈ r.rhs, t ∈ found) :
    Grounded rules (found ++ [r.lhs]) := by
  intro before x after hEq
  rcases List.eq_nil_or_concat after with rfl | ⟨middle, last, rfl⟩
  · obtain ⟨rfl, hx⟩ := List.append_inj' hEq rfl
    exact ⟨r, hr, List.head_eq_of_cons_eq hx, hRhs⟩
  · rw [List.concat_eq_append, ← List.cons_append, ← List.append_assoc] at hEq
    exact h before x middle (List.append_inj' hEq rfl).1

theorem Grounded.eraseStep (h : Grounded rules found) {r : Rule α}
    (hr : r ∈ rules) : Grounded rules (eraseStep found r) := by
  unfold NormalForm.eraseStep
  split
  · rename_i hNow
    exact h.append_lhs hr (erasesNow_iff.1 hNow).2
  · exact h

theorem grounded_erasables (rules : List (Rule α)) :
    Grounded rules (erasables rules) := by
  refine erasables_invariant ?_ fun found r hr h => h.eraseStep hr
  intro before x after hEq
  cases before <;> cases hEq

/-! ## Derivation trees of the empty string -/

/-- An erasable symbol has a derivation tree without leaves. -/
theorem exists_derives_nil (al : Alphabet) : ∀ x ∈ erasables rules,
    ∃ t, (⟨al, rules⟩ : Grammar α).Derives x [] t := by
  refine erasables_induction fun r hr hBelow => ?_
  choose! tree hTree using hBelow
  obtain ⟨ix, hRule⟩ := List.mem_iff_getElem?.1 hr
  have hSymbols : (r.rhs.map tree).map symbol = r.rhs := by
    rw [List.map_map]
    exact (List.map_congr_left fun t ht => (hTree t ht).symbol_eq).trans
      (List.map_id _)
  refine ⟨branch ix r.lhs (r.rhs.map tree), ?_, rfl, ?_⟩
  · refine .branch hRule hSymbols ?_
    rw [List.forall_mem_map]
    exact fun t ht => (hTree t ht).isDerivation
  · rw [yield_branch, yieldList_eq_flatMap, List.flatMap_eq_nil_iff,
      List.forall_mem_map]
    exact fun t ht => (hTree t ht).yield_eq

/-- Trees of the empty string have erasable symbols at their roots. -/
theorem symbol_mem_erasables {g : Grammar α} {t : ParseTree}
    (h : t.IsDerivation g) (hYield : t.yield = []) :
    t.symbol ∈ erasables g.rules := by
  induction h with
  | terminal _ => simp at hYield
  | @branch ix r ts hRule hSymbols _ ih =>
      rw [yield_branch, yieldList_eq_flatMap, List.flatMap_eq_nil_iff]
        at hYield
      refine eraseClosed_erasables _ r (List.mem_of_getElem? hRule) ?_
      rw [← hSymbols]
      intro y hy
      obtain ⟨t, ht, rfl⟩ := List.mem_map.1 hy
      exact ih t ht (hYield t ht)

theorem mem_erasables_iff_exists_derives {al : Alphabet} {x : SymbolId} :
    x ∈ erasables rules ↔ ∃ t, (⟨al, rules⟩ : Grammar α).Derives x [] t := by
  refine ⟨exists_derives_nil al x, ?_⟩
  rintro ⟨t, hDerivation, rfl, hYield⟩
  exact symbol_mem_erasables hDerivation hYield

/-- If no rule leads to the empty string symbol, the trees without leaves are
those of the empty word that begin with a rule. -/
theorem derives_nil_iff {g : Grammar α}
    (hEmpty : ∀ r ∈ g.rules, emptyId ∉ r.rhs) {x : SymbolId}
    {t : ParseTree} :
    g.Derives x [] t ↔ g.DerivesWord x [] t ∧ t.entry.rule ≠ none := by
  constructor
  · rintro ⟨hDerivation, hSymbol, hYield⟩
    refine ⟨⟨hDerivation, hSymbol, by rw [word, hYield]; rfl⟩, ?_⟩
    cases hDerivation with
    | terminal _ => simp at hYield
    | branch _ _ _ => exact Option.some_ne_none _
  · rintro ⟨⟨hDerivation, hSymbol, hWord⟩, hRoot⟩
    have hNone : emptyId ∉ t.yield :=
      hDerivation.emptyId_notMem_yield_of_root hEmpty (.inr hRoot)
    exact ⟨hDerivation, hSymbol, word_eq_yield hNone ▸ hWord⟩

/-- The search for erasable symbols ends, whatever cycles the rules have.  It
lists each nonterminal that has a derivation tree of the empty string once, and
nothing else.  A tree with a nonterminal at its root is one that begins with a
rule.  Every symbol of the list has a rule with only symbols before it on the
right side. -/
theorem erasables_exact (al : Alphabet) (rules : List (Rule α))
    (hEmpty : ∀ r ∈ rules, emptyId ∉ r.rhs) :
    StateTransition.eval (nextRound? rules) [] = Part.some (erasables rules) ∧
      (erasables rules).Nodup ∧
      (∀ x, x ∈ erasables rules ↔ ∃ t,
        (⟨al, rules⟩ : Grammar α).DerivesWord x [] t ∧
          t.entry.rule ≠ none) ∧
      Grounded rules (erasables rules) :=
  ⟨eval_nextRound? rules, nodup_erasables rules,
    fun _ => mem_erasables_iff_exists_derives.trans
      (exists_congr fun _ => derives_nil_iff hEmpty),
    grounded_erasables rules⟩

/-- The rules `S -> A B`, `A -> ε`, `B -> A A`, `C -> C` and `C -> A C`. -/
def staircase : List (Rule ℚ) :=
  [⟨startId, [2, 3], 1⟩, ⟨2, [], 1⟩, ⟨3, [2, 2], 1⟩, ⟨4, [4], 1 / 2⟩,
    ⟨4, [2, 4], 1 / 2⟩]

/-- The start symbol is found in the second round, the symbol that only has
rules with itself on the right side is not. -/
theorem erasables_exact_staircase :
    (∀ r ∈ staircase, emptyId ∉ r.rhs) ∧
      erasables staircase = [2, 3, startId] ∧
      Grounded staircase [2, 3, startId] ∧
      ∃ t, (⟨.initial, staircase⟩ : Grammar ℚ).DerivesWord startId [] t := by
  have hEmpty : ∀ r ∈ staircase, emptyId ∉ r.rhs := by decide
  have hList : erasables staircase = [2, 3, startId] := by decide
  obtain ⟨-, -, hTrees, hOrder⟩ :=
    erasables_exact .initial staircase hEmpty
  obtain ⟨t, ht, -⟩ := (hTrees startId).1 (hList ▸ by simp)
  exact ⟨hEmpty, hList, hList ▸ hOrder, t, ht⟩

end StochasticGrammar.NormalForm
