import Mathlib.Data.List.Forall2
import StochasticGrammar.Proofs.Text.Integer
import StochasticGrammar.Proofs.Tree.Nodes
import StochasticGrammar.Proofs.Tree.Shown

/-!
# Graphs of trees

The graph of a tree names its nodes by their numbers, and every edge of the tree
leads to the name of a child.  Whether the graph is a tree again is therefore a
matter of the numbers.

Main results: the graph of a tree whose nodes have pairwise different numbers
shows it as a tree: no two nodes share a name, each node but the root has
exactly one edge that leads to it, and none leads to the root
(`ParseTree.showsTree_graph`).
-/

namespace StochasticGrammar

/-! ## Names and edges -/

/-- The name of a node in a graph.  Terminals are the fields of the record. -/
def ParseTree.graphName (t : ParseTree) : String :=
  (if t.isTerminalLeaf then "str:" else "") ++
    Graph.quote (Text.intText t.entry.id)

namespace Graph

/-- An edge leads to a name, from wherever it comes. -/
def LeadsTo (edge name : String) : Prop :=
  ∃ source : Int, edge =
    "  " ++ quote (Text.intText source) ++ " -> " ++ name ++ ";"

/-- A line writes an inner node of a tree under its name. -/
def IsNodeLine (t : ParseTree) (line : String) : Prop :=
  ∃ label, line = "  " ++ t.graphName ++ "[label=" ++ label ++ "];"

/-- A field writes a terminal of a tree under its number. -/
def IsField (t : ParseTree) (field : String) : Prop :=
  ∃ text, field = "<" ++ Text.intText t.entry.id ++ "> " ++ text

/-- A graph shows a tree as a tree. -/
structure ShowsTree (graph : Graph) (t : ParseTree) : Prop where
  nodes : List.Forall₂ IsNodeLine t.innerNodes graph.nodes
  fields : List.Forall₂ IsField t.terminals graph.fields
  nodup_names : (t.nodes.map ParseTree.graphName).Nodup
  no_edge : ∀ edge ∈ graph.edges, ¬ LeadsTo edge t.graphName
  one_edge : ∀ u ∈ t.nodes.tail, ∃! ix : Nat,
    ∃ edge, graph.edges[ix]? = some edge ∧ LeadsTo edge u.graphName

theorem digitChar_ne_quote {d : Nat} (h : d < 10) :
    Text.digitChar d ≠ '"' :=
  Text.of_digitChar (P := (· ≠ '"')) (by decide) h

/-- The text of a number has no quotes of its own. -/
theorem ne_quote_of_mem_writeInt {i : Int} {c : Char}
    (h : c ∈ Text.writeInt i) : c ≠ '"' := by
  rcases Text.mem_writeInt h with rfl | ⟨d, hd, rfl⟩
  · decide
  · exact digitChar_ne_quote hd

theorem toList_quote_intText (i : Int) :
    (quote (Text.intText i)).toList = '"' :: (Text.writeInt i ++ ['"']) := by
  have hPlain : (Text.writeInt i).flatMap (fun c =>
      if c = '"' then ['\\', '"'] else [c]) = Text.writeInt i := by
    refine (List.flatMap_congr fun c hc => ?_).trans (List.flatMap_singleton' _)
    exact if_neg (ne_quote_of_mem_writeInt hc)
  simp [quote, Text.intText, hPlain]

/-- The numbers of nodes are told apart by their texts in quotes. -/
theorem quote_intText_injective :
    Function.Injective fun i => quote (Text.intText i) := by
  intro i j h
  have hText := congrArg String.toList h
  simp only [toList_quote_intText, List.cons.injEq, true_and,
    List.append_cancel_right_eq] at hText
  exact Text.writeInt_injective hText

/-- An edge leads to one name only. -/
theorem leadsTo_edge_iff (source : Int) {name other : String} :
    LeadsTo ("  " ++ quote (Text.intText source) ++ " -> " ++ name ++ ";")
      other ↔ name = other := by
  constructor
  · rintro ⟨i, h⟩
    have hText := congrArg String.toList h
    simp only [String.toList_append, toList_quote_intText, List.append_assoc,
      List.cons_append, List.append_cancel_left_eq, List.cons.injEq,
      true_and] at hText
    -- what follows the number begins with the first quote after it
    have hSkip (j : Int) (rest : List Char) :
        (Text.writeInt j ++ '"' :: rest).dropWhile (· != '"') =
          '"' :: rest := by
      rw [List.dropWhile_append_of_pos fun c hc => by
        simpa using ne_quote_of_mem_writeInt hc]
      exact List.dropWhile_cons_of_neg (by simp)
    have hRest := congrArg (List.dropWhile (· != '"')) hText
    simp only [hSkip, List.cons.injEq, true_and, List.append_cancel_left_eq,
      List.append_cancel_right_eq, List.nil_append] at hRest
    exact String.toList_injective hRest
  · rintro rfl
    exact ⟨source, rfl⟩

end Graph

namespace ParseTree

/-! ## The edges of a tree -/

mutual

/-- The edges of a tree, each with the entry that it comes from and the child
that it leads to.  Those of a node come after those below it. -/
def links : ParseTree → List (Entry × ParseTree)
  | node e ts => linksList ts ++ ts.map (e, ·)

/-- The edges of a row of trees. -/
def linksList : List ParseTree → List (Entry × ParseTree)
  | [] => []
  | t :: ts => links t ++ linksList ts

end

mutual

/-- The edges of a tree lead to the nodes below its root. -/
theorem perm_links (t : ParseTree) :
    (t.links.map Prod.snd).Perm t.nodes.tail := by
  match t with
  | node e ts =>
    rw [links, List.map_append, nodes, List.tail_cons, List.map_map]
    have hLast : ts.map (Prod.snd ∘ (e, ·)) = ts := List.map_id ts
    rw [hLast]
    exact perm_linksList ts

/-- The edges below the roots and those to the roots lead to all nodes. -/
theorem perm_linksList (ts : List ParseTree) :
    ((linksList ts).map Prod.snd ++ ts).Perm (nodesList ts) := by
  match ts with
  | [] => exact .refl _
  | t :: ts =>
    rw [linksList, nodesList, List.map_append]
    calc t.links.map Prod.snd ++ (linksList ts).map Prod.snd ++ t :: ts
      _ |>.Perm (t :: (t.links.map Prod.snd ++
            (linksList ts).map Prod.snd ++ ts)) := List.perm_middle
      _ = (t :: t.links.map Prod.snd) ++
            ((linksList ts).map Prod.snd ++ ts) := by simp
      _ |>.Perm ((t :: t.nodes.tail) ++ nodesList ts) :=
          ((perm_links t).cons t).append (perm_linksList ts)
      _ = t.nodes ++ nodesList ts := by rw [cons_tail_nodes]

end

/-! ## What the graph of a tree holds -/

/-- A graph writes the given inner nodes, terminals and edges. -/
structure Writes (graph : Graph) (inner terminals : List ParseTree)
    (links : List (Entry × ParseTree)) : Prop where
  nodes : List.Forall₂ Graph.IsNodeLine inner graph.nodes
  fields : List.Forall₂ Graph.IsField terminals graph.fields
  edges : graph.edges = links.map fun l => graphEdge l.1 l.2

theorem Writes.append {first second : Graph}
    {inner inner' terminals terminals' : List ParseTree}
    {links links' : List (Entry × ParseTree)}
    (h : Writes first inner terminals links)
    (h' : Writes second inner' terminals' links') :
    Writes (first.append second) (inner ++ inner') (terminals ++ terminals')
      (links ++ links') where
  nodes := List.rel_append h.nodes h'.nodes
  fields := List.rel_append h.fields h'.fields
  edges := by rw [List.map_append, ← h.edges, ← h'.edges]; rfl

section Writes

variable {α : Type} [NumberText α] {g : Grammar α}

theorem isField_graphField {al : Alphabet} {t : ParseTree} {field : String}
    (h : graphField al t.entry = .ok field) : Graph.IsField t field := by
  obtain ⟨s, _, h⟩ := bind_eq_ok.1 h
  cases h
  exact ⟨_, String.append_assoc ..⟩

mutual

/-- The graph of a tree writes its nodes, terminals and edges. -/
theorem writes_graph {t : ParseTree} {graph : Graph}
    (h : t.graph g = .ok graph) :
    Writes graph t.innerNodes t.terminals t.links := by
  match t with
  | node e ts =>
    rw [ParseTree.graph] at h
    split at h
    · rename_i hTerminal
      obtain ⟨field, hField, h⟩ := bind_eq_ok.1 h
      cases h
      rw [innerNodes_of_isTerminalLeaf hTerminal,
        terminals_of_isTerminalLeaf hTerminal,
        eq_node_nil_of_isTerminalLeaf hTerminal]
      exact ⟨.nil, .cons (isField_graphField hField) .nil, rfl⟩
    · rename_i hInner
      obtain ⟨label, _, h⟩ := bind_eq_ok.1 h
      obtain ⟨suffix, _, h⟩ := bind_eq_ok.1 h
      obtain ⟨below, hBelow, h⟩ := bind_eq_ok.1 h
      cases h
      have hRows := writes_graphList hBelow
      have hFalse : (node e ts).isTerminalLeaf = false := by simpa using hInner
      rw [innerNodes_node hFalse, terminals_node hFalse, links]
      refine ⟨.cons ⟨Graph.quote (label ++ suffix), ?_⟩ hRows.nodes,
        hRows.fields, ?_⟩
      · simp [graphName, hFalse, entry]
      · rw [List.map_append, ← hRows.edges, List.map_map]
        rfl

/-- The graph of a row of trees writes those of the trees. -/
theorem writes_graphList {ts : List ParseTree} {graph : Graph}
    (h : graphList g ts = .ok graph) :
    Writes graph (ts.flatMap innerNodes) (ts.flatMap terminals)
      (linksList ts) := by
  match ts with
  | [] =>
    rw [graphList] at h
    cases h
    exact ⟨.nil, .nil, rfl⟩
  | t :: ts =>
    rw [graphList] at h
    obtain ⟨first, hFirst, h⟩ := bind_eq_ok.1 h
    obtain ⟨rest, hRest, h⟩ := bind_eq_ok.1 h
    cases h
    exact (writes_graph hFirst).append (writes_graphList hRest)

end

end Writes

/-! ## Graphs of trees with different numbers -/

theorem leadsTo_graphEdge_iff {e : Entry} {t : ParseTree} {name : String} :
    Graph.LeadsTo (graphEdge e t) name ↔ t.graphName = name := by
  rw [← Graph.leadsTo_edge_iff e.id]
  simp [graphEdge, graphName, String.append_assoc]

theorem dropWhile_graphName (t : ParseTree) :
    t.graphName.toList.dropWhile (· != '"') =
      (Graph.quote (Text.intText t.entry.id)).toList := by
  rw [graphName, String.toList_append, Graph.toList_quote_intText]
  split <;> simp

/-- Nodes of one name have one number. -/
theorem id_eq_of_graphName_eq {t u : ParseTree}
    (h : t.graphName = u.graphName) : t.entry.id = u.entry.id := by
  have hQuotes := dropWhile_graphName t
  rw [h, dropWhile_graphName u] at hQuotes
  exact (Graph.quote_intText_injective (String.toList_injective hQuotes)).symm

theorem nodup_graphNames {t : ParseTree} (h : t.ids.Nodup) :
    (t.nodes.map graphName).Nodup := by
  rw [ids, List.Nodup, List.pairwise_map] at h
  rw [List.Nodup, List.pairwise_map]
  exact h.imp fun hId hName => hId (id_eq_of_graphName_eq hName)

/-- The names that the edges of a tree lead to. -/
def targets (t : ParseTree) : List String :=
  (t.links.map Prod.snd).map graphName

theorem Writes.leadsTo_iff {graph : Graph} {inner terminals : List ParseTree}
    {t : ParseTree} (h : Writes graph inner terminals t.links) {ix : Nat}
    {name : String} :
    (∃ edge, graph.edges[ix]? = some edge ∧ Graph.LeadsTo edge name) ↔
      t.targets[ix]? = some name := by
  rw [h.edges, targets, List.map_map, List.getElem?_map, List.getElem?_map]
  cases t.links[ix]? with
  | none => simp
  | some l => simp [leadsTo_graphEdge_iff]

/-- If the nodes of a tree have pairwise different numbers, its graph shows it
as a tree. -/
theorem showsTree_graph {α : Type} [NumberText α] {g : Grammar α}
    {t : ParseTree} {graph : Graph} (h : t.graph g = .ok graph)
    (hIds : t.ids.Nodup) : graph.ShowsTree t := by
  have hWrites := writes_graph h
  have hNames := nodup_graphNames hIds
  have hTargets : t.targets.Perm (t.nodes.tail.map graphName) :=
    (perm_links t).map graphName
  have hSplit := hNames
  rw [← cons_tail_nodes, List.map_cons, List.nodup_cons] at hSplit
  refine ⟨hWrites.nodes, hWrites.fields, hNames, fun edge hEdge hLeads => ?_,
    fun u hu => ?_⟩
  · obtain ⟨ix, hIx⟩ := List.mem_iff_getElem?.1 hEdge
    have hTarget := hWrites.leadsTo_iff.1 ⟨edge, hIx, hLeads⟩
    exact hSplit.1 (hTargets.mem_iff.1 (List.mem_of_getElem? hTarget))
  · have hMem : u.graphName ∈ t.targets :=
      hTargets.mem_iff.2 (List.mem_map_of_mem hu)
    obtain ⟨ix, hIx⟩ := List.mem_iff_getElem?.1 hMem
    refine ⟨ix, hWrites.leadsTo_iff.2 hIx, fun jx hOther => ?_⟩
    have hJx := hWrites.leadsTo_iff.1 hOther
    exact (List.getElem?_inj (List.getElem?_eq_some_iff.1 hJx).1
      (hTargets.nodup_iff.2 hSplit.2)).1 (hJx.trans hIx.symm)

end ParseTree

end StochasticGrammar
