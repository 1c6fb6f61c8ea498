import StochasticGrammar.Parse.Input
import StochasticGrammar.Tree.Weight

/-!
# The derivations of an input

Both parsers end with the same kind of result: a number of derivations, each of
which can be built as a tree over and over. Nodes without a chart entry get
fresh numbers every time, so building a tree draws from a counter
(`Drawing`), and numbers that were drawn before a failure stay drawn.
-/

namespace StochasticGrammar

/-- Why a tree cannot be built. -/
inductive TreeFault where
  /-- The parser refuses. -/
  | refused (error : ParseError)
  /-- A completed item has too few back pointers. -/
  | lacksBackPointer (item : Nat)
  deriving DecidableEq, Repr

/-- The text of the failure of an item. -/
def lacksBackPointerText (item : Nat) : String :=
  "Item " ++ Text.natText item ++ " lacks a back pointer"

/-- What draws numbers from a counter, which keeps its value on failure. -/
abbrev Drawing := ExceptT TreeFault (StateM Nat)

/-- Draws the next number. -/
def Drawing.fresh : Drawing Nat := do
  let n ← get
  set (n + 1)
  return n

/-- The derivations that a parser found for an input. -/
structure Derivations (α : Type) where
  /-- The grammar whose rules the trees refer to. -/
  grammar : Grammar α
  /-- The input. -/
  input : List SymbolId
  /-- How many derivations there are. -/
  count : Nat
  /-- The first number that no chart entry has. -/
  firstFresh : Nat
  /-- Builds the tree of a derivation. -/
  build : Nat → Drawing ParseTree

namespace Derivations

variable {α : Type}

/-- Whether the grammar generates the input. -/
def canGenerate (d : Derivations α) : Bool := 0 < d.count

/-- The tree with a number. -/
def tree (d : Derivations α) (number : Int) : Drawing ParseTree :=
  match Parse.treePosition d.count number with
  | .ok ix => d.build ix
  | .error e => throw (.refused e)

/-- All trees, built one after another. -/
def trees (d : Derivations α) : Drawing (List ParseTree) :=
  (List.range d.count).mapM d.build

/-- The probability of a tree; a tree with rules that the grammar lacks has
none. -/
def weight [Zero α] [One α] [Mul α] (d : Derivations α) (t : ParseTree) : α :=
  (t.product? d.grammar).getD 0

/-- The total probability of the derivations. -/
def probability [Zero α] [One α] [Add α] [Mul α] (d : Derivations α) :
    Drawing α := do
  let trees ← d.trees
  return trees.foldl (fun total t => total + d.weight t) 0

end Derivations

end StochasticGrammar
