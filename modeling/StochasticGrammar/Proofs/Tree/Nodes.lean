import StochasticGrammar.Proofs.Tree.Derivation

/-!
# The nodes of a tree

The nodes of a tree are listed from the top down and from left to right, each
occurrence on its own.  Each node has a place in the text that the tree stands
for, which is the number of terminals to its left.

Main results: a node that is listed after another is smaller than the other or
begins only where the other has ended (`pairwise_placed`).  So two nodes of one
shape can stand at one place only if they derive nothing
(`Follows.isEmpty_of_shape_eq`).
-/

namespace StochasticGrammar.ParseTree

/-! ## Nodes and their places -/

mutual

/-- The nodes of a tree, each one before those below it. -/
def nodes : ParseTree → List ParseTree
  | node e ts => node e ts :: nodesList ts

/-- The nodes of a row of trees. -/
def nodesList : List ParseTree → List ParseTree
  | [] => []
  | t :: ts => nodes t ++ nodesList ts

end

/-- The terminals of a tree, from left to right. -/
def terminals (t : ParseTree) : List ParseTree :=
  t.nodes.filter (·.isTerminalLeaf)

/-- The nodes of a tree that are no terminals. -/
def innerNodes (t : ParseTree) : List ParseTree :=
  t.nodes.filter (!·.isTerminalLeaf)

/-- The numbers of the nodes of a tree. -/
def ids (t : ParseTree) : List Int := t.nodes.map (·.entry.id)

mutual

/-- The nodes of a tree, each with the number of terminals to its left, if so
many come before the tree. -/
def placed (before : Nat) : ParseTree → List (Nat × ParseTree)
  | node e ts => (before, node e ts) :: placedList before ts

/-- The nodes of a row of trees with the number of terminals to their left. -/
def placedList (before : Nat) : List ParseTree → List (Nat × ParseTree)
  | [] => []
  | t :: ts => placed before t ++ placedList (before + t.terminals.length) ts

end

/-- Where the nodes that derive nothing stand, with the derivations that they
are. -/
def emptyPlaces (t : ParseTree) : List (Nat × ParseTree) :=
  ((placed 0 t).filter fun x => x.2.terminals.isEmpty).map fun x =>
    (x.1, x.2.shape)

/-! ## Lists of nodes -/

theorem nodesList_eq_flatMap (ts : List ParseTree) :
    nodesList ts = ts.flatMap nodes := by
  induction ts with
  | nil => simp [nodesList]
  | cons t ts ih => simp [nodesList, ih]

@[simp] theorem nodes_node (e : Entry) (ts : List ParseTree) :
    (node e ts).nodes = node e ts :: ts.flatMap nodes := by
  rw [nodes, nodesList_eq_flatMap]

theorem nodes_eq_cons (t : ParseTree) :
    t.nodes = t :: t.children.flatMap nodes := by
  cases t
  exact nodes_node _ _

/-- The root is listed first. -/
theorem cons_tail_nodes (t : ParseTree) : t :: t.nodes.tail = t.nodes := by
  rw [nodes_eq_cons, List.tail_cons]

@[simp] theorem ids_node (e : Entry) (ts : List ParseTree) :
    (node e ts).ids = e.id :: ts.flatMap ids := by
  rw [ids, nodes_node, List.map_cons, List.map_flatMap]
  rfl

/-- A terminal has no nodes below it. -/
theorem eq_node_nil_of_isTerminalLeaf {t : ParseTree}
    (h : t.isTerminalLeaf = true) : t = node t.entry [] := by
  obtain ⟨e, ts⟩ := t
  simp only [isTerminalLeaf, isLeaf, children, Bool.and_eq_true,
    List.isEmpty_iff] at h
  rw [h.1, entry]

theorem nodes_of_isTerminalLeaf {t : ParseTree}
    (h : t.isTerminalLeaf = true) : t.nodes = [t] := by
  rw [eq_node_nil_of_isTerminalLeaf h]
  simp

theorem terminals_of_isTerminalLeaf {t : ParseTree}
    (h : t.isTerminalLeaf = true) : t.terminals = [t] := by
  rw [terminals, nodes_of_isTerminalLeaf h]
  simp [h]

theorem innerNodes_of_isTerminalLeaf {t : ParseTree}
    (h : t.isTerminalLeaf = true) : t.innerNodes = [] := by
  rw [innerNodes, nodes_of_isTerminalLeaf h]
  simp [h]

theorem isTerminalLeaf_of_isEmpty {t : ParseTree}
    (h : t.terminals.isEmpty = true) : t.isTerminalLeaf = false := by
  cases hTerminal : t.isTerminalLeaf with
  | false => rfl
  | true =>
      rw [terminals_of_isTerminalLeaf hTerminal] at h
      cases h

theorem terminals_node {e : Entry} {ts : List ParseTree}
    (h : (node e ts).isTerminalLeaf = false) :
    (node e ts).terminals = ts.flatMap terminals := by
  rw [terminals, nodes_node, List.filter_cons_of_neg (by simp [h]),
    List.filter_flatMap]
  rfl

theorem innerNodes_node {e : Entry} {ts : List ParseTree}
    (h : (node e ts).isTerminalLeaf = false) :
    (node e ts).innerNodes = node e ts :: ts.flatMap innerNodes := by
  rw [innerNodes, nodes_node, List.filter_cons_of_pos (by simp [h]),
    List.filter_flatMap]
  rfl

/-! ## Places -/

mutual

theorem map_snd_placed (before : Nat) (t : ParseTree) :
    (placed before t).map Prod.snd = t.nodes := by
  match t with
  | node e ts =>
    rw [placed, nodes, List.map_cons, map_snd_placedList before ts]

theorem map_snd_placedList (before : Nat) (ts : List ParseTree) :
    (placedList before ts).map Prod.snd = nodesList ts := by
  match ts with
  | [] => simp [placedList, nodesList]
  | t :: ts =>
    rw [placedList, nodesList, List.map_append, map_snd_placed before t,
      map_snd_placedList _ ts]

end

/-- The numbers of the nodes, by their places. -/
theorem ids_eq_map_placed (before : Nat) (t : ParseTree) :
    t.ids = (placed before t).map fun x => x.2.entry.id := by
  rw [ids, ← map_snd_placed before, List.map_map]
  rfl

/-- A node lies within the span of a number of terminals from a place on, and
within a number of nodes. -/
def LiesIn (before width count : Nat) (x : Nat × ParseTree) : Prop :=
  before ≤ x.1 ∧ x.1 + x.2.terminals.length ≤ before + width ∧
    x.2.nodes.length ≤ count

/-- A node that is listed after another is smaller or begins after it. -/
def Follows (x y : Nat × ParseTree) : Prop :=
  y.2.nodes.length < x.2.nodes.length ∨ x.1 + x.2.terminals.length ≤ y.1

theorem length_flatMap_terminals_le (e : Entry) (ts : List ParseTree) :
    (ts.flatMap terminals).length ≤ (node e ts).terminals.length := by
  cases h : (node e ts).isTerminalLeaf with
  | false => exact Nat.le_of_eq (by rw [terminals_node h])
  | true =>
      have hNone := eq_node_nil_of_isTerminalLeaf h
      rw [node.injEq] at hNone
      rw [hNone.2]
      exact Nat.zero_le _

mutual

/-- The nodes of a tree lie in its span. -/
theorem liesIn_of_mem_placed {before : Nat} {t : ParseTree}
    {x : Nat × ParseTree} (h : x ∈ placed before t) :
    LiesIn before t.terminals.length t.nodes.length x := by
  match t with
  | node e ts =>
    rw [placed, List.mem_cons] at h
    rcases h with rfl | h
    · exact ⟨Nat.le_refl _, Nat.le_refl _, Nat.le_refl _⟩
    · obtain ⟨hFrom, hTo, hCount⟩ := liesIn_of_mem_placedList h
      have hWidth := length_flatMap_terminals_le e ts
      refine ⟨hFrom, by omega, ?_⟩
      rw [nodes_node, List.length_cons]
      omega

/-- The nodes of a row of trees lie in its span. -/
theorem liesIn_of_mem_placedList {before : Nat} {ts : List ParseTree}
    {x : Nat × ParseTree} (h : x ∈ placedList before ts) :
    LiesIn before (ts.flatMap terminals).length (ts.flatMap nodes).length
      x := by
  match ts with
  | [] => simp [placedList] at h
  | t :: ts =>
    rw [List.flatMap_cons, List.flatMap_cons, List.length_append,
      List.length_append]
    rw [placedList, List.mem_append] at h
    rcases h with h | h
    · obtain ⟨hFrom, hTo, hCount⟩ := liesIn_of_mem_placed h
      exact ⟨hFrom, by omega, by omega⟩
    · obtain ⟨hFrom, hTo, hCount⟩ := liesIn_of_mem_placedList h
      exact ⟨by omega, by omega, by omega⟩

end

mutual

/-- The nodes of a tree follow each other. -/
theorem pairwise_placed (before : Nat) (t : ParseTree) :
    (placed before t).Pairwise Follows := by
  match t with
  | node e ts =>
    rw [placed, List.pairwise_cons]
    refine ⟨fun y hy => .inl ?_, pairwise_placedList before ts⟩
    have hCount := (liesIn_of_mem_placedList hy).2.2
    show y.2.nodes.length < (node e ts).nodes.length
    rw [nodes_node, List.length_cons]
    omega

/-- The nodes of a row of trees follow each other. -/
theorem pairwise_placedList (before : Nat) (ts : List ParseTree) :
    (placedList before ts).Pairwise Follows := by
  match ts with
  | [] => simp [placedList]
  | t :: ts =>
    rw [placedList, List.pairwise_append]
    refine ⟨pairwise_placed before t, pairwise_placedList _ ts,
      fun x hx y hy => .inr ?_⟩
    -- the first node ends with its tree, and the second begins after it
    have hTo := (liesIn_of_mem_placed hx).2.1
    have hFrom := (liesIn_of_mem_placedList hy).1
    omega

end

/-! ## Shapes -/

theorem isTerminalLeaf_shape (t : ParseTree) :
    t.shape.isTerminalLeaf = t.isTerminalLeaf := by
  obtain ⟨e, ts⟩ := t
  rw [shape, shapeList_eq_map]
  simp [isTerminalLeaf, isLeaf, children, entry]

mutual

theorem nodes_shape (t : ParseTree) : t.shape.nodes = t.nodes.map shape := by
  match t with
  | node e ts =>
    rw [shape, nodes, nodes, List.map_cons, shape, nodesList_shapeList ts]

theorem nodesList_shapeList (ts : List ParseTree) :
    nodesList (shapeList ts) = (nodesList ts).map shape := by
  match ts with
  | [] => simp [shapeList, nodesList]
  | t :: ts =>
    rw [shapeList, nodesList, nodesList, List.map_append, nodes_shape t,
      nodesList_shapeList ts]

end

theorem length_terminals_shape (t : ParseTree) :
    t.shape.terminals.length = t.terminals.length := by
  rw [terminals, terminals, nodes_shape, List.filter_map, List.length_map]
  congr 2
  funext u
  exact isTerminalLeaf_shape u

/-- Where two nodes of one shape stand at one place, they derive nothing. -/
theorem Follows.isEmpty_of_shape_eq {x y : Nat × ParseTree}
    (h : Follows x y) (hPlace : x.1 = y.1) (hShape : x.2.shape = y.2.shape) :
    x.2.terminals.isEmpty = true ∧ y.2.terminals.isEmpty = true := by
  have hSize := congrArg List.length (nodes_shape x.2)
  rw [hShape, nodes_shape y.2, List.length_map, List.length_map] at hSize
  have hWidth := length_terminals_shape x.2
  rw [hShape, length_terminals_shape y.2] at hWidth
  have hEmpty : x.2.terminals.length = 0 := by
    rcases h with hLess | hAfter
    · omega
    · omega
  rw [List.isEmpty_iff, List.isEmpty_iff, ← List.length_eq_zero_iff,
    ← List.length_eq_zero_iff, hWidth]
  exact ⟨hEmpty, hEmpty⟩

end StochasticGrammar.ParseTree
