import Mathlib
import StochasticGrammar.Proofs.Parse.Cyk.Numbers
import StochasticGrammar.Proofs.Parse.Earley.Numbers
import StochasticGrammar.Proofs.Parse.Showable

/-!
# Numbers as names of nodes

Trees are drawn with the numbers of their nodes as names.  The numbers of the
chart and those drawn from the counter never meet, however many trees were
asked for before.  A chart by spans gives each node of a tree a number of its
own.  The agenda does not: an item that derives nothing may be expanded twice
at the same place, and both nodes get its number.

Main results: when the numbers of a tree are pairwise different, and when its
graph is a tree (`Parse.nodup_ids_iff`).  The row of two empty parts is a
counterexample (`Parse.not_nodup_ids_twice`).
-/

namespace StochasticGrammar

variable {α : Type}

/-! ## The counter -/

namespace Derivations

/-- The counter, after any calls for trees of any numbers, some of which may
have failed. -/
inductive Reaches (d : Derivations α) : Nat → Prop
  | start : d.Reaches d.firstFresh
  | tree {n m : Nat} {number : Int} {result : Except TreeFault ParseTree} :
      d.Reaches n → (d.tree number).run.run n = (result, m) → d.Reaches m

/-- A tree that is built on some call. -/
def Gives (d : Derivations α) (t : ParseTree) : Prop :=
  ∃ (n m : Nat) (number : Int), d.Reaches n ∧
    (d.tree number).run.run n = (.ok t, m)

/-- A call for a tree builds a derivation or leaves the counter alone. -/
theorem run_tree {d : Derivations α} {number : Int} {n m : Nat}
    {result : Except TreeFault ParseTree}
    (h : (d.tree number).run.run n = (result, m)) :
    (∃ ix < d.count, (d.build ix).run.run n = (result, m)) ∨
      (m = n ∧ ∀ t, result ≠ .ok t) := by
  unfold Derivations.tree Parse.treePosition at h
  by_cases hRange : 0 ≤ number ∧ number < d.count
  · rw [if_pos hRange] at h
    exact .inl ⟨number.toNat, by omega, h⟩
  · rw [if_neg hRange] at h
    cases h
    exact .inr ⟨rfl, fun t => by simp⟩

theorem Gives.exists_build {d : Derivations α} {t : ParseTree}
    (h : d.Gives t) : ∃ n m ix, d.Reaches n ∧ ix < d.count ∧
      (d.build ix).run.run n = (.ok t, m) := by
  obtain ⟨n, m, number, hn, hRun⟩ := h
  rcases run_tree hRun with ⟨ix, hIx, hBuild⟩ | ⟨_, hNone⟩
  · exact ⟨n, m, ix, hn, hIx, hBuild⟩
  · exact absurd rfl (hNone t)

/-- If building derivations never sets the counter back, it stays above the
numbers of the chart. -/
theorem Reaches.le {d : Derivations α}
    (hBuild : ∀ ix < d.count, ∀ n result m,
      (d.build ix).run.run n = (result, m) → n ≤ m) {n : Nat}
    (h : d.Reaches n) : d.firstFresh ≤ n := by
  induction h with
  | start => exact Nat.le_refl _
  | tree _ hRun ih =>
      rcases run_tree hRun with ⟨ix, hIx, hRun⟩ | ⟨rfl, _⟩
      · exact Nat.le_trans ih (hBuild ix hIx _ _ _ hRun)
      · exact ih

/-- Trees of derivations that can be shown are over the grammar. -/
theorem Gives.over {d : Derivations α} {t : ParseTree} (h : d.Gives t)
    (hd : d.Showable) : t.Over d.grammar := by
  obtain ⟨n, m, ix, _, hIx, hRun⟩ := h.exists_build
  obtain ⟨u, _, hSame, hOver⟩ := hd.build ix hIx n
  rw [hRun] at hSame
  cases hSame
  exact hOver

/-- Trees of derivations that can be shown have graphs. -/
theorem Gives.exists_graph [NumberText α] {d : Derivations α} {t : ParseTree}
    (h : d.Gives t) (hd : d.Showable) :
    ∃ graph, t.graph d.grammar = .ok graph :=
  (h.over hd).exists_graph

end Derivations

/-! ## Derivations of the agenda -/

namespace Earley

variable {task : Task α}

/-- Every derivation is built, and numbered, whatever the counter is. -/
theorem Parse.exists_numbered_build (hp : task.Proper) {ix : Nat}
    (hIx : ix < (ofTask task).derivations.count) (n : Nat) :
    ∃ t m, ((ofTask task).derivations.build ix).run.run n = (.ok t, m) ∧
      Numbered (ofTask task) n m 0 [t] := by
  obtain ⟨e, hGet⟩ : ∃ e, task.acceptedItems[ix]? = some e := by
    have hLt : ix < (task.acceptedItems.map (·.id)).length := hIx
    rw [List.length_map] at hLt
    exact ⟨_, List.getElem?_eq_getElem hLt⟩
  obtain ⟨hItem, _, _, hNext, hStart⟩ :=
    Task.mem_acceptedItems.1 (List.mem_of_getElem? hGet)
  obtain ⟨t, m, hRun, hNumbered, _⟩ :=
    exists_numbered_expand (p := ofTask task) task.sound_chart
      (task.tiled_chart hp) e.id e hItem hNext n
  refine ⟨t, m, ?_, hStart ▸ hNumbered⟩
  have hAccepted : (ofTask task).accepted[ix]? = some e.id := by
    show (task.acceptedItems.map (·.id))[ix]? = some e.id
    rw [List.getElem?_map, hGet]
    rfl
  unfold derivations
  dsimp only
  rw [hAccepted]
  exact hRun

/-- The numbers drawn for a tree are not those of items. -/
theorem Parse.exists_numbered_of_gives (hp : task.Proper) {t : ParseTree}
    (h : (ofTask task).derivations.Gives t) :
    ∃ n m, (ofTask task).chart.items.size ≤ n ∧
      Numbered (ofTask task) n m 0 [t] := by
  obtain ⟨n, m, ix, hn, hIx, hRun⟩ := h.exists_build
  have hFresh := hn.le fun jx hJx k result l hOther => by
    obtain ⟨u, l', hRun, hNumbered⟩ := exists_numbered_build hp hJx k
    rw [hRun] at hOther
    cases hOther
    exact hNumbered.le
  obtain ⟨u, k, hSame, hNumbered⟩ := exists_numbered_build hp hIx n
  rw [hRun] at hSame
  cases hSame
  exact ⟨n, m, hFresh, hNumbered⟩

end Earley

/-! ## Names -/

/-- However many trees were asked for before, the nodes of a tree from the
chart of spans have pairwise different numbers, and its graph shows it as a
tree.  For a tree from the agenda this is so exactly if no two of its nodes are
the same derivation of nothing at the same place. -/
theorem Parse.nodup_ids_iff [NumberText α] {g : Grammar α} (hg : g.WellFormed)
    (input : List SymbolId) :
    (∀ p, Cyk.Parse.make g input = .ok p → ∀ t, p.derivations.Gives t →
      t.ids.Nodup ∧ ∃ graph, t.graph p.derivations.grammar = .ok graph ∧
        graph.ShowsTree t) ∧
    ∀ p, Earley.Parse.make g input = .ok p → ∀ t, p.derivations.Gives t →
      (t.ids.Nodup ↔ t.emptyPlaces.Nodup) ∧
        ∃ graph, t.graph p.derivations.grammar = .ok graph ∧
          (graph.ShowsTree t ↔ t.emptyPlaces.Nodup) := by
  constructor
  · intro p hMake t ht
    obtain ⟨n, m, ix, _, _, hRun⟩ := ht.exists_build
    have hIds := Cyk.Parse.nodup_ids hMake hRun
    obtain ⟨graph, hGraph⟩ :=
      ht.exists_graph (Cyk.Parse.showable_derivations hg hMake)
    exact ⟨hIds, graph, hGraph, ParseTree.showsTree_graph hGraph hIds⟩
  · intro p hMake t ht
    unfold Earley.Parse.make at hMake
    split at hMake
    · cases hMake
    · rename_i hFault
      cases hMake
      have hInput := (Parse.inputFault?_eq_none_iff _ 0 input).1 hFault
      have hp := Earley.Task.proper_make hg input
      have hs := (Earley.Task.make g input).sound_chart
      have hTiled := (Earley.Task.make g input).tiled_chart hp
      obtain ⟨n, m, hFresh, hNumbered⟩ :=
        Earley.Parse.exists_numbered_of_gives hp ht
      obtain ⟨graph, hGraph⟩ := ht.exists_graph
        (Earley.Parse.showable_derivations hp fun id hId => (hInput id hId).2)
      have hIds (hPlaces : t.emptyPlaces.Nodup) : t.ids.Nodup :=
        hNumbered.nodup_ids hs hTiled hFresh hPlaces
      have hPlaces (hNames : (t.nodes.map ParseTree.graphName).Nodup) :
          t.emptyPlaces.Nodup :=
        hNumbered.nodup_emptyPlaces hs hTiled hNames
      exact ⟨⟨fun h => hPlaces (ParseTree.nodup_graphNames h), hIds⟩, graph,
        hGraph, fun h => hPlaces h.nodup_names, fun h =>
          ParseTree.showsTree_graph hGraph (hIds h)⟩

/-! ## Two small parses -/

/-- One letter with an empty part before it. -/
def optionalParse : Earley.Parse Float :=
  .ofTask (.make (Grammar.optional 1 1 1) [2])

/-- Its tree, with a number for the letter. -/
def optionalTree (letter : Int) : ParseTree :=
  .node ⟨.earley, 5, some 0, startId⟩
    [.node ⟨.earley, 1, some 1, 3⟩ [], .leafOf ⟨.leaf, letter, none, 2⟩]

/-- After a call that succeeds and one that fails, the letter has the second
number drawn. -/
theorem optionalParse_gives :
    optionalParse.derivations.Gives (optionalTree 8) := by
  have hFresh : optionalParse.derivations.firstFresh = 7 := by cbv
  have hFirst : (optionalParse.derivations.tree 0).run.run 7 =
      (.ok (optionalTree 7), 8) := by cbv
  have hNone : (optionalParse.derivations.tree 1).run.run 8 =
      (.error (.refused (.noSuchTree 1 1)), 8) := by cbv
  have hAgain : (optionalParse.derivations.tree 0).run.run 8 =
      (.ok (optionalTree 8), 9) := by cbv
  exact ⟨8, 9, 0, .tree (.tree (hFresh ▸ .start) hFirst) hNone, hAgain⟩

theorem Parse.nodup_ids_iff_optional :
    Earley.Parse.make (Grammar.optional 1 1 1) [2] = .ok optionalParse ∧
      optionalParse.derivations.Gives (optionalTree 8) ∧
      (optionalTree 8).ids.Nodup ∧ ∃ graph,
        (optionalTree 8).graph optionalParse.derivations.grammar =
          .ok graph ∧ graph.ShowsTree (optionalTree 8) := by
  have hMake : Earley.Parse.make (Grammar.optional 1 1 1) [2] =
      .ok optionalParse := rfl
  have hIds : (optionalTree 8).ids.Nodup := by
    have hList : (optionalTree 8).ids = [5, 1, 8] := by cbv
    rw [hList]
    decide
  obtain ⟨hIff, graph, hGraph, hShows⟩ :=
    (Parse.nodup_ids_iff (Grammar.wellFormed_optional 1 1 1) [2]).2 _ hMake _
      optionalParse_gives
  exact ⟨hMake, optionalParse_gives, hIds, graph, hGraph,
    hShows.2 (hIff.1 hIds)⟩

/-- The empty row, made of two empty parts. -/
def twiceParse : Earley.Parse Float := .ofTask (.make (Grammar.twice 1 1) [])

/-- Each of the empty parts. -/
def twicePart : ParseTree := .node ⟨.earley, 1, some 1, 3⟩ []

/-- Its tree. -/
def twiceTree : ParseTree :=
  .node ⟨.earley, 3, some 0, startId⟩ [twicePart, twicePart]

/-- Both empty parts come from one item: they have its number, and in the graph
two edges lead to its name. -/
theorem Parse.not_nodup_ids_twice :
    (Grammar.twice (1 : Float) 1).WellFormed ∧
      Earley.Parse.make (Grammar.twice 1 1) [] = .ok twiceParse ∧
      twiceParse.derivations.Gives twiceTree ∧ ¬ twiceTree.ids.Nodup ∧
      ∃ graph, twiceTree.graph twiceParse.derivations.grammar = .ok graph ∧
        ¬ graph.ShowsTree twiceTree ∧
        ∃ edge, graph.edges = [edge, edge] ∧
          Graph.LeadsTo edge twicePart.graphName := by
  have hg : (Grammar.twice (1 : Float) 1).WellFormed :=
    Grammar.wellFormed_twice 1 1
  have hFresh : twiceParse.derivations.firstFresh = 4 := by cbv
  have hRun : (twiceParse.derivations.tree 0).run.run 4 =
      (.ok twiceTree, 4) := by cbv
  have hGives : twiceParse.derivations.Gives twiceTree :=
    ⟨4, 4, 0, hFresh ▸ .start, hRun⟩
  have hIds : twiceTree.ids = [3, 1, 1] := by cbv
  obtain ⟨graph, hGraph⟩ := hGives.exists_graph
    (Earley.Parse.showable_derivations (Earley.Task.proper_make hg []) (by
      simp [Earley.Task.make]))
  refine ⟨hg, rfl, hGives, by rw [hIds]; decide, graph, hGraph, fun h => ?_,
    ParseTree.graphEdge ⟨.earley, 3, some 0, startId⟩ twicePart, ?_,
    ParseTree.leadsTo_graphEdge_iff.2 rfl⟩
  · have hNames := h.nodup_names
    rw [twiceTree, ParseTree.nodes_node] at hNames
    simp [twicePart] at hNames
  · exact (ParseTree.writes_graph hGraph).edges

end StochasticGrammar
