import Mathlib.Algebra.Ring.Nat
import Mathlib.Logic.Relation
import StochasticGrammar.Proofs.Tree.Repetition

/-!
# Rewriting

A row of symbols is rewritten by replacing the left side of a rule by its right
side.  A derivation tree rewrites its symbol to its yield, and it can be stopped
on the way at any node below the root.

So a node that repeats makes its symbol derive itself.  In a grammar without
such cycles no node of a derivation tree repeats.

Main results: `IsDerivation.reaches_below`, `Acyclic.repetitionFree`.
-/

namespace StochasticGrammar

open Relation

variable {α : Type} {rules : List (Rule α)}

/-- A row of symbols is rewritten by a rule. -/
inductive Rewrites (rules : List (Rule α)) :
    List SymbolId → List SymbolId → Prop
  | intro {r : Rule α} (before after : List SymbolId) : r ∈ rules →
      Rewrites rules (before ++ r.lhs :: after) (before ++ r.rhs ++ after)

/-- A row of symbols is rewritten by any number of rules. -/
abbrev Reaches (rules : List (Rule α)) :
    List SymbolId → List SymbolId → Prop :=
  ReflTransGen (Rewrites rules)

/-- No symbol derives itself. -/
def Acyclic (rules : List (Rule α)) : Prop :=
  ∀ x, ¬ TransGen (Rewrites rules) [x] [x]

/-- No symbol derives itself where the empty string symbol stands for
nothing. -/
def Grammar.CycleFree (g : Grammar α) : Prop :=
  Acyclic (g.rules.map Rule.withoutEmpty)

/-! ## Rewriting in a context -/

theorem Rewrites.rule {r : Rule α} (hr : r ∈ rules) :
    Rewrites rules [r.lhs] r.rhs := by
  simpa using Rewrites.intro [] [] hr

theorem Rewrites.context {u v : List SymbolId} (h : Rewrites rules u v)
    (before after : List SymbolId) :
    Rewrites rules (before ++ u ++ after) (before ++ v ++ after) := by
  cases h with
  | intro first last hr =>
      simpa using Rewrites.intro (before ++ first) (last ++ after) hr

theorem Reaches.context {u v : List SymbolId} (h : Reaches rules u v)
    (before after : List SymbolId) :
    Reaches rules (before ++ u ++ after) (before ++ v ++ after) :=
  h.lift (fun w => before ++ w ++ after) fun _ _ hStep =>
    hStep.context before after

theorem transGen_context {u v : List SymbolId}
    (h : TransGen (Rewrites rules) u v) (before after : List SymbolId) :
    TransGen (Rewrites rules) (before ++ u ++ after)
      (before ++ v ++ after) :=
  h.lift (fun w => before ++ w ++ after) fun _ _ hStep =>
    hStep.context before after

theorem Reaches.append {u u' v v' : List SymbolId} (hu : Reaches rules u u')
    (hv : Reaches rules v v') : Reaches rules (u ++ v) (u' ++ v') := by
  have hFirst : Reaches rules (u ++ v) (u' ++ v) := by
    simpa using hu.context [] v
  have hSecond : Reaches rules (u' ++ v) (u' ++ v') := by
    simpa using hv.context u' []
  exact hFirst.trans hSecond

/-- The symbols of a row may be rewritten one by one. -/
theorem Reaches.row {β : Type} {bs : List β} {x : β → SymbolId}
    {w : β → List SymbolId} (h : ∀ b ∈ bs, Reaches rules [x b] (w b)) :
    Reaches rules (bs.map x) (bs.flatMap w) := by
  induction bs with
  | nil => exact .refl
  | cons b bs ih =>
      have hTail := ih fun c hc => h c (by simp [hc])
      simpa using (h b (by simp)).append hTail

/-- A row goes away if all of its symbols do. -/
theorem Reaches.nil {w : List SymbolId}
    (h : ∀ x ∈ w, Reaches rules [x] []) : Reaches rules w [] := by
  have hRow := Reaches.row (x := id) (w := fun _ => []) h
  rwa [List.map_id, List.flatMap_eq_nil_iff.2 fun _ _ => rfl] at hRow

/-! ## Derivation trees -/

namespace ParseTree

variable {g : Grammar α}

/-- A derivation tree rewrites its symbol to its yield. -/
theorem IsDerivation.reaches_yield {t : ParseTree} (h : t.IsDerivation g) :
    Reaches g.rules [t.symbol] t.yield := by
  induction h with
  | terminal _ =>
      rw [yield_terminal]
      exact .refl
  | branch hRule hSymbols _ ih =>
      have hRow := Reaches.row ih
      rw [hSymbols, ← yieldList_eq_flatMap] at hRow
      rw [symbol_branch, yield_branch]
      exact .head (.rule (List.mem_of_getElem? hRule)) hRow

/-- It may be stopped at a node below the root, with the yields of what is left
and right of that node beside it. -/
theorem IsDerivation.reaches_below {t d : ParseTree} {k : Nat}
    (h : t.IsDerivation g) (hBelow : Below t k d) :
    ∃ left right, left.length = k ∧ t.yield = left ++ d.yield ++ right ∧
      TransGen (Rewrites g.rules) [t.symbol]
        (left ++ [d.symbol] ++ right) := by
  induction h generalizing k with
  | terminal _ => exact absurd hBelow not_below_terminal
  | @branch ix r ts hRule hSymbols hRows ih =>
      obtain ⟨before, u, after, rfl, hCase⟩ := below_branch_iff.1 hBelow
      have hYields : ∀ ts : List ParseTree, (∀ t ∈ ts, t.IsDerivation g) →
          Reaches g.rules (ts.map symbol) (yieldList ts) := by
        intro ts hts
        rw [yieldList_eq_flatMap]
        exact Reaches.row fun t ht => (hts t ht).reaches_yield
      have hBefore := hYields before fun t ht => hRows t (by simp [ht])
      have hAfter := hYields after fun t ht => hRows t (by simp [ht])
      -- the rule of the root, then all of its children but one
      have hChild : TransGen (Rewrites g.rules) [r.lhs]
          (yieldList before ++ [u.symbol] ++ yieldList after) := by
        refine TransGen.head' (.rule (List.mem_of_getElem? hRule)) ?_
        have hRest : Reaches g.rules ([u.symbol] ++ after.map symbol)
            ([u.symbol] ++ yieldList after) := Reaches.append .refl hAfter
        rw [← hSymbols, List.map_append, List.map_cons]
        simpa using hBefore.append hRest
      rw [yield_branch, yieldList_append, yieldList_cons, symbol_branch]
      rcases hCase with ⟨rfl, hk⟩ | ⟨m, rfl, hDeep⟩
      · exact ⟨_, _, hk.symm, by simp, hChild⟩
      · obtain ⟨left, right, rfl, hYield, hReaches⟩ := ih u (by simp) hDeep
        refine ⟨yieldList before ++ left, right ++ yieldList after,
          by simp, by simp [hYield], hChild.trans ?_⟩
        simpa using
          transGen_context hReaches (yieldList before) (yieldList after)

end ParseTree

open ParseTree

/-! ## Grammars without cycles -/

/-- Where no symbol derives itself, no node of a derivation tree repeats. -/
theorem Acyclic.repetitionFree {g : Grammar α} (h : Acyclic g.rules)
    {t : ParseTree} (ht : t.IsDerivation g) : t.RepetitionFree := by
  have hNone : ∀ u : ParseTree, u.IsDerivation g → ¬ u.Repeats := by
    rintro u hu ⟨d, hBelow, hLength, hRule⟩
    obtain ⟨left, right, hLeft, hYield, hReaches⟩ := hu.reaches_below hBelow
    rw [hYield] at hLength
    simp only [List.length_append] at hLength
    have hLeft : left = [] := List.length_eq_zero_iff.1 hLeft
    have hRight : right = [] := List.length_eq_zero_iff.1 (by omega)
    rw [hLeft, hRight, hu.symbol_eq_of_below hBelow hRule] at hReaches
    exact h _ (by simpa using hReaches)
  exact ⟨hNone t ht, fun k d hBelow => hNone d (ht.of_below hBelow)⟩

/-- There are no cycles if every rule makes a row smaller. -/
theorem acyclic_of_lt (size : SymbolId → Nat)
    (h : ∀ r ∈ rules, (r.rhs.map size).sum < size r.lhs) :
    Acyclic rules := by
  intro x hCycle
  have hStep : ∀ u v, Rewrites rules u v →
      (v.map size).sum < (u.map size).sum := by
    rintro _ _ ⟨before, after, hr⟩
    have := h _ hr
    simp only [List.map_append, List.map_cons, List.sum_append, List.sum_cons]
    omega
  have hLess : ∀ v, TransGen (Rewrites rules) [x] v →
      (v.map size).sum < ([x].map size).sum := by
    intro v hReaches
    induction hReaches with
    | single hOne => exact hStep _ _ hOne
    | tail _ hOne ih => exact Nat.lt_trans (hStep _ _ hOne) ih
  exact Nat.lt_irrefl _ (hLess _ hCycle)

end StochasticGrammar
