import StochasticGrammar.Grammar.Basic

/-!
# Parse trees

A parse tree is what a parser builds for one derivation. Each node carries an
entry: the kind and number of the chart entry it came from, the rule that
expands it unless it is a leaf, and its symbol. Trees own their children and
know nothing of their parents.

Two trees are the same derivation if shape, symbols and rules agree; the
numbers of the entries play no part in that (`ParseTree.same`).

Main results: `same` is exactly equality of the trees with the entry numbers
and kinds blotted out (`same_iff`).
-/

namespace StochasticGrammar

/-- Where a node comes from. -/
inductive EntryKind where
  /-- An entry of a bottom-up chart. -/
  | cyk
  /-- A completed item of a top-down chart. -/
  | earley
  /-- A terminal that has no entry in a chart of its own. -/
  | leaf
  deriving DecidableEq, Repr

/-- The name of a kind. -/
def EntryKind.name : EntryKind → String
  | .cyk => "cyk"
  | .earley => "earley"
  | .leaf => "leaf"

/-- What a node of a tree carries. -/
structure Entry where
  /-- Where the node comes from. -/
  kind : EntryKind
  /-- The number of the chart entry. -/
  id : Int
  /-- The number of the rule that expands the node; `none` for a leaf. -/
  rule : Option Int
  /-- The symbol of the node. -/
  symbol : SymbolId
  deriving DecidableEq, Repr

/-- A parse tree. -/
inductive ParseTree where
  | node (entry : Entry) (children : List ParseTree)
  deriving Repr

instance : Inhabited ParseTree := ⟨.node ⟨.leaf, 0, none, emptyId⟩ []⟩

namespace ParseTree

/-- The entry of the root. -/
def entry : ParseTree → Entry
  | node e _ => e

/-- The children of the root. -/
def children : ParseTree → List ParseTree
  | node _ ts => ts

/-- A tree of one node. -/
def leafOf (e : Entry) : ParseTree := node e []

/-- Whether the root has no children. -/
def isLeaf (t : ParseTree) : Bool := t.children.isEmpty

/-- Whether the root is a leaf that no rule expands. Such nodes are the
terminals of a derivation; a rule with an empty right side gives a node without
children that is not one of them. -/
def isTerminalLeaf (t : ParseTree) : Bool :=
  t.isLeaf && t.entry.rule.isNone

/-- The tree with one more child at the right end of the root. -/
def addChild (t child : ParseTree) : ParseTree :=
  node t.entry (t.children ++ [child])

/-! ## Sameness of derivations -/

mutual

/-- Whether two trees have the same shape, symbols and rules. -/
def same : ParseTree → ParseTree → Bool
  | node d ts, node e us =>
    d.symbol == e.symbol && d.rule == e.rule && sameList ts us

/-- Whether two rows of trees are the same one by one. -/
def sameList : List ParseTree → List ParseTree → Bool
  | [], [] => true
  | t :: ts, u :: us => same t u && sameList ts us
  | _, _ => false

end

mutual

/-- The tree with the kinds and numbers of its entries blotted out. -/
def shape : ParseTree → ParseTree
  | node e ts => node ⟨.leaf, 0, e.rule, e.symbol⟩ (shapeList ts)

/-- A row of trees with the kinds and numbers of the entries blotted out. -/
def shapeList : List ParseTree → List ParseTree
  | [] => []
  | t :: ts => shape t :: shapeList ts

end

mutual

/-- Trees are the same exactly if their shapes are equal. -/
theorem same_iff (t u : ParseTree) : same t u = true ↔ shape t = shape u := by
  cases t with
  | node d ts =>
    cases u with
    | node e us =>
      have hList := sameList_iff ts us
      simp only [same, shape, Bool.and_eq_true, beq_iff_eq, node.injEq,
        Entry.mk.injEq, hList, true_and]
      constructor
      · rintro ⟨⟨hSymbol, hRule⟩, hTrees⟩
        exact ⟨⟨hRule, hSymbol⟩, hTrees⟩
      · rintro ⟨⟨hRule, hSymbol⟩, hTrees⟩
        exact ⟨⟨hSymbol, hRule⟩, hTrees⟩

/-- Rows of trees are the same exactly if their shapes are equal. -/
theorem sameList_iff (ts us : List ParseTree) :
    sameList ts us = true ↔ shapeList ts = shapeList us := by
  cases ts with
  | nil => cases us <;> simp [sameList, shapeList]
  | cons t ts =>
    cases us with
    | nil => simp [sameList, shapeList]
    | cons u us =>
      simp [sameList, shapeList, same_iff t u, sameList_iff ts us]

end

/-! ## Leaves -/

mutual

/-- The nodes without children, from left to right. -/
def leaves : ParseTree → List ParseTree
  | node e [] => [node e []]
  | node _ (t :: ts) => leaves t ++ leavesList ts

/-- The nodes without children of a row of trees, from left to right. -/
def leavesList : List ParseTree → List ParseTree
  | [] => []
  | t :: ts => leaves t ++ leavesList ts

end

/-- A tree has a leaf. -/
theorem leaves_ne_nil (t : ParseTree) : leaves t ≠ [] := by
  match t with
  | node e [] => simp [leaves]
  | node e (t :: ts) =>
    have hFirst := leaves_ne_nil t
    simp [leaves, hFirst]

end ParseTree

end StochasticGrammar
