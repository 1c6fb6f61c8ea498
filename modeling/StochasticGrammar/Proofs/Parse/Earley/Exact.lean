import Mathlib.Data.List.Nodup
import StochasticGrammar.Proofs.Parse.Listing
import StochasticGrammar.Proofs.Parse.Earley.Closure

/-!
# Exactness of Earley parsing

The trees that are offered for an input are those of the accepted items.

Main results: they are pairwise different, and they are the derivation trees of
the input without repetitions (`Parse.make_exact`).  Since every derivation
tree can be pruned, an input has one exactly if it is derivable at all.
-/

namespace StochasticGrammar.Earley

variable {α : Type}

section Accepted

variable (task : Task α)

/-- The completed items of the start symbol over the whole input. -/
def Task.acceptedItems : List Item :=
  (task.chart.stateItems task.input.size).filter task.accepts

/-- The trees of the accepted items. -/
def Task.acceptedTrees : List ParseTree :=
  task.acceptedItems.map fun e => itemTree task task.chart.items e.id

variable {task}

theorem Task.mem_acceptedItems {e : Item} :
    e ∈ task.acceptedItems ↔ task.chart.items[e.id]? = some e ∧
      e.state = task.input.size ∧ e.head = startId ∧
      task.next? e = none ∧ e.start = 0 := by
  rw [acceptedItems, List.mem_filter,
    Sound.mem_stateItems_iff task.sound_chart, accepts]
  simp [and_assoc]

theorem Task.nodup_acceptedTrees (hp : task.Proper) :
    task.acceptedTrees.Nodup := by
  have hs := task.sound_chart
  have ht := task.tiled_chart hp
  have hItems : task.acceptedItems.Nodup := by
    refine List.Nodup.filter _ ((ht.nodup_ids _).filterMap ?_)
    intro i j e hi hj
    rw [← hs.id_eq hi, ← hs.id_eq hj]
  refine List.Nodup.map_on ?_ hItems
  intro d hd e he hTrees
  obtain ⟨hItem, _, _, hNext, hStart⟩ := Task.mem_acceptedItems.1 hd
  obtain ⟨hItem', _, _, hNext', hStart'⟩ := Task.mem_acceptedItems.1 he
  have hSame := itemTree_injective hs ht d.id e.id d e hItem hItem' hNext
    hNext' (hStart.trans hStart'.symm) hTrees
  rw [← hSame, hItem] at hItem'
  exact Option.some.inj hItem'

/-- The tree of an accepted item is a derivation tree of the input. -/
theorem Task.derives_of_mem_acceptedTrees (hp : task.Proper) {t : ParseTree}
    (h : t ∈ task.acceptedTrees) :
    task.grammar.Derives startId task.input.toList t ∧ t.RepetitionFree := by
  have hs := task.sound_chart
  have ht := task.tiled_chart hp
  obtain ⟨e, he, rfl⟩ := List.mem_map.1 h
  obtain ⟨hItem, hState, hHead, hNext, hStart⟩ := Task.mem_acceptedItems.1 he
  have hYield := drop_itemTree hs ht e.id e hItem hNext
  have hRest : task.input.toList.drop e.state = [] :=
    List.drop_eq_nil_of_le (by simp [hState])
  rw [hStart, List.drop_zero, hRest, List.append_nil] at hYield
  exact ⟨⟨isDerivation_itemTree hp hs ht e.id e hItem hNext,
    (symbol_itemTree hs hItem).trans hHead, hYield.symm⟩,
    repetitionFree_itemTree hp hs ht e.id e hItem hNext⟩

/-- A derivation tree of the input without repetitions has an accepted
item. -/
theorem Task.mem_acceptedTrees_of_derives (hp : task.Proper) {t : ParseTree}
    (h : task.grammar.Derives startId task.input.toList t)
    (hFree : t.RepetitionFree) : t ∈ task.acceptedTrees := by
  have hs := task.sound_chart
  have ht := task.tiled_chart hp
  have hc := task.closed_chart hp
  have hSymbol : task.grammar.alphabet.isTerminal t.symbol = false := by
    rw [h.symbol_eq]
    exact hp.wellFormed.alphabet.isTerminal_startId
  obtain ⟨d, hItem, hNext, hHead, hStart, hTree⟩ :=
    hc.exists_completed hp hs ht h.isDerivation 0 hSymbol hFree
      (h.symbol_eq ▸ hc.seeded) (by rw [h.yield_eq]; simp)
  refine List.mem_map.2 ⟨d, Task.mem_acceptedItems.2
    ⟨hItem, ?_, hHead.trans h.symbol_eq, hNext, hStart⟩, hTree⟩
  -- the yield is the whole input, so the span ends where the input does
  have hWide := length_yield_itemTree hs ht hItem hNext
  have hState : d.state ≤ task.input.size := (hs.key hItem).state_le
  rw [hTree, h.yield_eq, hStart, Array.length_toList] at hWide
  omega

end Accepted

/-- The parser offers the trees of the accepted items. -/
theorem Parse.lists_ofTask {task : Task α} (hp : task.Proper) :
    (ofTask task).derivations.Lists task.acceptedTrees := by
  refine Derivations.lists_of_build ?_ fun ix s hShape => ?_
  · simp [derivations, ofTask, Task.acceptedTrees, Task.acceptedItems]
  · rw [Task.acceptedTrees, List.getElem?_map, Option.map_eq_some_iff]
      at hShape
    obtain ⟨e, hGet, rfl⟩ := hShape
    obtain ⟨hItem, _, _, hNext, _⟩ :=
      Task.mem_acceptedItems.1 (List.mem_of_getElem? hGet)
    have hNumber : (ofTask task).accepted[ix]? = some e.id := by
      show (task.acceptedItems.map (·.id))[ix]? = some e.id
      rw [List.getElem?_map, hGet]
      rfl
    unfold derivations
    dsimp only
    rw [hNumber]
    exact yields_expand (p := ofTask task) task.sound_chart
      (task.tiled_chart hp) e.id e hItem hNext

/-- Parsing lists the derivation trees of the input in which no node repeats,
over the grammar without lone empty symbols. -/
theorem Parse.lists_make {g : Grammar α} (hg : g.WellFormed)
    {input : List SymbolId}
    (hInput : ∀ id ∈ input, id ≠ emptyId ∧ g.alphabet.isTerminal id = true) :
    ∃ p, Parse.make g input = .ok p ∧
      p.derivations.grammar = g.withoutEmptySymbol ∧
      ∃ shapes, p.derivations.Lists shapes ∧ shapes.Nodup ∧
        ∀ t, t ∈ shapes ↔ g.withoutEmptySymbol.Derives startId input t ∧
          t.RepetitionFree := by
  have hp := Task.proper_make hg input
  refine ⟨ofTask (.make g input), ?_, rfl, _, Parse.lists_ofTask hp,
    Task.nodup_acceptedTrees hp, fun t =>
      ⟨Task.derives_of_mem_acceptedTrees hp,
        fun h => Task.mem_acceptedTrees_of_derives hp h.1 h.2⟩⟩
  rw [Parse.make, (Parse.inputFault?_eq_none_iff _ 0 input).2 hInput]

/-- An input is generated exactly if it is derivable at all: a derivation tree
can be pruned until no node repeats. -/
theorem Parse.canGenerate_make {g : Grammar α} (hg : g.WellFormed)
    {input : List SymbolId}
    (hInput : ∀ id ∈ input, id ≠ emptyId ∧ g.alphabet.isTerminal id = true) :
    ∃ p, Parse.make g input = .ok p ∧ (p.derivations.canGenerate = true ↔
      ∃ t, g.withoutEmptySymbol.Derives startId input t) := by
  obtain ⟨p, hMake, _, shapes, hLists, _, hMem⟩ := Parse.lists_make hg hInput
  refine ⟨p, hMake, ?_⟩
  simp only [p.derivations.canGenerate_iff hLists, hMem]
  constructor
  · rintro ⟨t, ht, _⟩
    exact ⟨t, ht⟩
  · rintro ⟨t, ht⟩
    obtain ⟨u, hu, hSymbol, hYield, hFree⟩ :=
      ht.isDerivation.exists_repetitionFree
    exact ⟨u, ⟨hu, hSymbol.trans ht.symbol_eq, hYield.trans ht.yield_eq⟩,
      hFree⟩

/-- For terminals other than the empty string symbol, parsing succeeds.  Its
trees are pairwise different, they are the derivation trees of the input in
which no node repeats, and there is one whenever the input is derivable. -/
theorem Parse.make_exact {g : Grammar α} (hg : g.WellFormed)
    {input : List SymbolId}
    (hInput : ∀ id ∈ input, id ≠ emptyId ∧ g.alphabet.isTerminal id = true) :
    ∃ p, Parse.make g input = .ok p ∧
      (∃ shapes, p.derivations.Lists shapes ∧ shapes.Nodup ∧
        ∀ t, t ∈ shapes ↔ g.withoutEmptySymbol.Derives startId input t ∧
          t.RepetitionFree) ∧
      (p.derivations.canGenerate = true ↔
        ∃ t, g.withoutEmptySymbol.Derives startId input t) := by
  have hp := Task.proper_make hg input
  have hLists := Parse.lists_ofTask hp
  have hMem : ∀ t, t ∈ (Task.make g input).acceptedTrees ↔
      g.withoutEmptySymbol.Derives startId input t ∧ t.RepetitionFree :=
    fun t => ⟨Task.derives_of_mem_acceptedTrees hp,
      fun h => Task.mem_acceptedTrees_of_derives hp h.1 h.2⟩
  refine ⟨ofTask (.make g input), ?_,
    ⟨_, hLists, Task.nodup_acceptedTrees hp, hMem⟩, ?_⟩
  · rw [Parse.make, (Parse.inputFault?_eq_none_iff _ 0 input).2 hInput]
  · rw [Derivations.canGenerate_iff _ hLists]
    constructor
    · rintro ⟨t, ht⟩
      exact ⟨t, ((hMem t).1 ht).1⟩
    · rintro ⟨t, ht⟩
      obtain ⟨u, hu, hSymbol, hYield, hFree⟩ :=
        ht.isDerivation.exists_repetitionFree
      exact ⟨u, (hMem u).2 ⟨⟨hu, hSymbol.trans ht.symbol_eq,
        hYield.trans ht.yield_eq⟩, hFree⟩⟩

/-- The small grammar has a unit cycle and recursion on both sides. -/
theorem Parse.make_exact_chains :
    ∃ p, Parse.make (Grammar.chains 1 2 3) [2, 2, 2] = .ok p ∧
      (∃ shapes, p.derivations.Lists shapes ∧ shapes.Nodup ∧
        ∀ t, t ∈ shapes ↔ (Grammar.chains 1 2 3).withoutEmptySymbol.Derives
          startId [2, 2, 2] t ∧ t.RepetitionFree) ∧
      (p.derivations.canGenerate = true ↔
        ∃ t, (Grammar.chains 1 2 3).withoutEmptySymbol.Derives startId
          [2, 2, 2] t) :=
  Parse.make_exact (Grammar.wellFormed_chains 1 2 3) (by decide)

end StochasticGrammar.Earley
