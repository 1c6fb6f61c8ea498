import StochasticGrammar.Proofs.Except
import StochasticGrammar.Proofs.Tree.Derivation
import StochasticGrammar.Tree.Graph

/-!
# Trees that can be shown

The texts of a tree look up the labels of its symbols and the probabilities of
its rules, and fail where the grammar has none.  A tree is over a grammar if
each of its nodes refers to a symbol and, unless it is a leaf, to a rule of the
grammar (`ParseTree.Over`).  Derivation trees are over their grammar, the numbers
of the entries play no part in it, and a tree over a grammar has all texts.

Main results: `IsDerivation.over`, `Over.of_shape`, `Over.exists_labelText`,
`Over.exists_outline`, `Over.exists_graph`.
-/

namespace StochasticGrammar

/-! ## Labels -/

namespace Alphabet

variable {al : Alphabet}

theorem exists_symbol {id : SymbolId} (h : al.hasId id = true) :
    ∃ s, al.symbol id = .ok s := by
  obtain ⟨s, hs⟩ := Option.isSome_iff_exists.1 h
  exact ⟨s, by rw [symbol, hs]⟩

theorem exists_label {id : SymbolId} (h : al.hasId id = true) :
    ∃ label, al.label id = .ok label :=
  exists_map (·.label) (exists_symbol h)

theorem exists_formatString {ids : List SymbolId}
    (h : ∀ id ∈ ids, al.hasId id = true) :
    ∃ text, al.formatString ids = .ok text :=
  exists_bind (exists_mapM fun id hId => exists_label (h id hId))
    fun _ => ⟨_, rfl⟩

theorem hasId_of_isTerminal {id : SymbolId} (h : al.isTerminal id = true) :
    al.hasId id = true :=
  (hasId_iff_mem_ids al id).2 (.inr ((isTerminal_iff al id).1 h))

end Alphabet

variable {α : Type} {g : Grammar α}

/-- The rules of a well-formed grammar can be shown. -/
theorem Grammar.WellFormed.exists_rulesText [NumberText α]
    (hg : g.WellFormed) : ∃ text, g.rulesText = .ok text := by
  refine exists_bind (exists_mapM fun r hr => ?_) fun _ => ⟨_, rfl⟩
  refine exists_bind (Alphabet.exists_label (hg.hasId_lhs hr)) fun _ => ?_
  refine exists_bind ?_ fun _ => ⟨_, rfl⟩
  exact Alphabet.exists_formatString fun id => hg.hasId_of_mem_rhs hr

namespace ParseTree

/-! ## Trees over a grammar -/

/-- The trees whose nodes have symbols and rules of a grammar. -/
inductive Over (g : Grammar α) : ParseTree → Prop
  | node {e : Entry} {ts : List ParseTree} :
      g.alphabet.hasId e.symbol = true →
      (∀ ix ∈ e.rule, (g.rule? ix).isSome = true) →
      (∀ t ∈ ts, Over g t) → Over g (node e ts)

/-- Derivation trees are over their grammar. -/
theorem IsDerivation.over (hg : g.WellFormed) {t : ParseTree}
    (h : t.IsDerivation g) : t.Over g := by
  induction h with
  | terminal hTerminal =>
      exact .node (Alphabet.hasId_of_isTerminal hTerminal) (by simp) (by simp)
  | @branch ix r ts hRule _ _ ih =>
      refine .node (hg.hasId_lhs (List.mem_of_getElem? hRule)) ?_ ih
      intro number hNumber
      obtain rfl : (ix : Int) = number := by simpa using hNumber
      have hLt : ix < g.rules.length := (List.getElem?_eq_some_iff.1 hRule).1
      simp [Grammar.rule?, atSigned?, signedPosition?, hLt]

/-- Whether a tree is over a grammar depends on its shape only. -/
theorem Over.of_shape {t : ParseTree} (h : t.shape.Over g) : t.Over g := by
  generalize hShape : t.shape = s at h
  induction h generalizing t with
  | node hId hRule _ ih =>
      obtain ⟨e, ts⟩ := t
      rw [shape, shapeList_eq_map, node.injEq] at hShape
      obtain ⟨rfl, rfl⟩ := hShape
      exact .node hId hRule fun t ht => ih t.shape (List.mem_map_of_mem ht) rfl

/-! ## Texts -/

theorem Over.exists_labelText {t : ParseTree} (h : t.Over g) :
    ∃ text, t.labelText g.alphabet = .ok text := by
  induction h with
  | node hId _ _ ih =>
      rw [labelText]
      refine exists_bind (Alphabet.exists_label hId) fun _ => ?_
      refine exists_bind ?_ fun _ => ⟨_, rfl⟩
      exact exists_row ⟨[], by rw [labelTextList]; rfl⟩
        (fun t ts => by rw [labelTextList]) ih

theorem exists_labelOf {al : Alphabet} {id : SymbolId}
    (h : al.hasId id = true) : ∃ label, labelOf al id = .ok label := by
  obtain ⟨label, hLabel⟩ := Alphabet.exists_label h
  exact ⟨label, mapError_eq_ok.2 hLabel⟩

theorem exists_ruleSuffix [NumberText α] {e : Entry}
    (h : ∀ ix ∈ e.rule, (g.rule? ix).isSome = true) :
    ∃ text, ruleSuffix g e = .ok text := by
  unfold ruleSuffix
  split
  · exact ⟨_, rfl⟩
  · rename_i ix hRule
    obtain ⟨r, hr⟩ := Option.isSome_iff_exists.1 (h ix hRule)
    rw [hr]
    exact ⟨_, rfl⟩

theorem exists_outlineLine [NumberText α] {e : Entry} {ts : List ParseTree}
    (hId : g.alphabet.hasId e.symbol = true)
    (hRule : ∀ ix ∈ e.rule, (g.rule? ix).isSome = true)
    (style : OutlineStyle) (level : Nat) :
    ∃ line, outlineLine g style level (node e ts) = .ok line := by
  refine exists_bind (exists_labelOf hId) fun _ => ?_
  by_cases hShown : style.probabilities = true
  · simp only [hShown, if_true]
    exact exists_bind (exists_ruleSuffix hRule) fun _ => ⟨_, rfl⟩
  · simp only [hShown]
    exact ⟨_, rfl⟩

theorem Over.exists_outline [NumberText α] {t : ParseTree} (h : t.Over g)
    (style : OutlineStyle) (level : Nat) :
    ∃ text, t.outline g style level = .ok text := by
  induction h generalizing level with
  | @node e ts hId hRule _ ih =>
      rw [outline]
      refine exists_bind (exists_outlineLine hId hRule style level) fun _ => ?_
      refine exists_bind ?_ fun _ => ⟨_, rfl⟩
      exact exists_row ⟨"", by rw [outlineList]; rfl⟩
        (fun t ts => by rw [outlineList]) fun t ht => ih t ht (level + 1)

theorem exists_graphField {al : Alphabet} {e : Entry}
    (h : al.hasId e.symbol = true) : ∃ field, graphField al e = .ok field := by
  obtain ⟨s, hs⟩ := Alphabet.exists_symbol h
  exact exists_bind ⟨s, mapError_eq_ok.2 hs⟩ fun _ => ⟨_, rfl⟩

theorem Over.exists_graph [NumberText α] {t : ParseTree} (h : t.Over g) :
    ∃ graph, t.graph g = .ok graph := by
  induction h with
  | @node e ts hId hRule _ ih =>
      rw [graph]
      split
      · exact exists_bind (exists_graphField hId) fun _ => ⟨_, rfl⟩
      · refine exists_bind (exists_labelOf hId) fun _ => ?_
        refine exists_bind (exists_ruleSuffix hRule) fun _ => ?_
        refine exists_bind ?_ fun _ => ⟨_, rfl⟩
        exact exists_row ⟨.empty, by rw [graphList]; rfl⟩
          (fun t ts => by rw [graphList]) ih

end ParseTree

end StochasticGrammar
