import StochasticGrammar.Parse.Earley.Listing
import StochasticGrammar.Proofs.Parse.Cyk.Exact
import StochasticGrammar.Proofs.Parse.Earley.Exact
import StochasticGrammar.Proofs.Tree.Shown

/-!
# Parses that can be shown

A parser refuses an input or ends with derivations.  On a well-formed grammar
everything it ends with can be shown: the input has labels, each derivation can
be built as a tree over the grammar, whatever numbers were drawn before
(`Derivations.Showable`), and the chart has a text.

Main results: `Cyk.Parse.showable_derivations`,
`Earley.Parse.showable_derivations`, `Earley.Parse.exists_statesText`.
-/

namespace StochasticGrammar

variable {α : Type}

/-- Derivations of a known input that can all be built as trees over the
grammar. -/
structure Derivations.Showable (d : Derivations α) : Prop where
  input : ∀ id ∈ d.input, d.grammar.alphabet.hasId id = true
  build : ∀ ix < d.count, (d.build ix).Yields fun t => t.Over d.grammar

/-- Listed derivation trees of terminals can be shown. -/
theorem Derivations.Lists.showable {d : Derivations α}
    {shapes : List ParseTree} (h : d.Lists shapes)
    (hg : d.grammar.WellFormed)
    (hInput : ∀ id ∈ d.input, d.grammar.alphabet.isTerminal id = true)
    (hShapes : ∀ t ∈ shapes, t.IsDerivation d.grammar) : d.Showable where
  input id hId := Alphabet.hasId_of_isTerminal (hInput id hId)
  build ix hIx := by
    rw [← h.length_eq] at hIx
    refine (h.build (List.getElem?_eq_getElem hIx)).mono fun t hShape => ?_
    refine ParseTree.Over.of_shape ?_
    rw [hShape]
    exact (hShapes _ (List.getElem_mem hIx)).over hg

/-! ## Bottom-up parses -/

theorem Cyk.Parse.showable_derivations {g : Grammar α} (hg : g.WellFormed)
    {input : List SymbolId} {p : Cyk.Parse α}
    (h : Cyk.Parse.make g input = .ok p) : p.derivations.Showable := by
  unfold Cyk.Parse.make at h
  split at h
  · cases h
  · rename_i hFault
    cases h
    have hInput := (Parse.inputFault?_eq_none_iff _ 0 input).1 hFault
    obtain ⟨p, hMake, shapes, hLists, _, hLong, hLone, hEmpty⟩ :=
      make_lists hg hInput
    rw [Cyk.Parse.make, hFault] at hMake
    cases hMake
    have hGrammar : (ofChecked g input).derivations.grammar = g := by
      unfold derivations
      split <;> rfl
    refine hLists.showable (by rwa [hGrammar]) ?_ fun t ht => ?_
    · rw [hGrammar]
      unfold derivations
      split <;> exact fun id hId => (hInput id hId).2
    · rw [hGrammar]
      rcases input with _ | ⟨a, _ | ⟨b, rest⟩⟩
      · obtain ⟨ix, r, hRule, hLhs, hRhs, rfl⟩ := (hEmpty rfl t).1 ht
        exact hLhs ▸ .branch hRule (by simp [hRhs]) fun u hu =>
          List.mem_singleton.1 hu ▸ .terminal hg.alphabet.isTerminal_emptyId
      · obtain ⟨ix, r, hRule, hLhs, hRhs, rfl⟩ := (hLone a rfl t).1 ht
        exact hLhs ▸ .branch hRule (by simp [hRhs]) fun u hu =>
          List.mem_singleton.1 hu ▸ .terminal (hInput a (by simp)).2
      · exact ((hLong (by simp) t).1 ht).1.isDerivation

/-! ## Parses with an agenda -/

namespace Earley

theorem Parse.showable_derivations {task : Task α} (hp : task.Proper)
    (hInput : ∀ id ∈ task.input.toList,
      task.grammar.alphabet.isTerminal id = true) :
    (ofTask task).derivations.Showable :=
  (lists_ofTask hp).showable hp.wellFormed hInput fun _ ht =>
    (Task.derives_of_mem_acceptedTrees hp ht).1.isDerivation

namespace Task.Proper

variable {task : Task α} (hp : task.Proper)

include hp

/-- Rules are shown by symbols of the grammar; what stands for a rule that does
not exist is one too. -/
theorem hasId_lhs (rule : Nat) :
    task.grammar.alphabet.hasId (task.lhs rule) = true := by
  unfold Task.lhs
  rw [hp.getElem?_rules]
  split
  · rename_i hRule
    exact hp.wellFormed.hasId_lhs (List.mem_of_getElem? hRule)
  · exact hp.wellFormed.alphabet.hasId_startId

theorem hasId_of_mem_rhs {rule : Nat} {id : SymbolId}
    (hId : id ∈ task.rhs rule) : task.grammar.alphabet.hasId id = true := by
  unfold Task.rhs at hId
  rw [hp.getElem?_rules] at hId
  split at hId
  · rename_i hRule
    exact hp.wellFormed.hasId_of_mem_rhs (List.mem_of_getElem? hRule) hId
  · cases hId

end Task.Proper

theorem exists_spacedLabels {al : Alphabet} {ids : List SymbolId}
    (h : ∀ id ∈ ids, al.hasId id = true) :
    ∃ text, spacedLabels al ids = .ok text :=
  exists_bind (exists_mapM fun id hId => Alphabet.exists_label (h id hId))
    fun _ => ⟨_, rfl⟩

theorem Parse.exists_itemText {p : Parse α} (hp : p.task.Proper) (e : Item) :
    ∃ text, p.itemText e = .ok text := by
  refine exists_bind (Alphabet.exists_label (hp.hasId_lhs e.rule)) fun _ => ?_
  refine exists_bind ?_ fun _ => exists_bind ?_ fun _ => ⟨_, rfl⟩
  · exact exists_spacedLabels fun id hId =>
      hp.hasId_of_mem_rhs (List.mem_of_mem_take hId)
  · exact exists_spacedLabels fun id hId =>
      hp.hasId_of_mem_rhs (List.mem_of_mem_drop hId)

/-- The states of a chart can be shown. -/
theorem Parse.exists_statesText {p : Parse α} (hp : p.task.Proper)
    (onlyCompleted : Bool) : ∃ text, p.statesText onlyCompleted = .ok text := by
  refine exists_bind (exists_mapM fun state _ => ?_) fun _ => ⟨_, rfl⟩
  exact exists_bind (exists_mapM fun e _ => exists_itemText hp e)
    fun _ => ⟨_, rfl⟩

end Earley

end StochasticGrammar
