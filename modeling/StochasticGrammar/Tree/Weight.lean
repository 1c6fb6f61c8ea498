import StochasticGrammar.Tree.Basic

/-!
# Weights of trees

The probability of a derivation is the product of the probabilities of the
rules it uses, each as often as it is used. The sum of the same numbers is
offered beside it. Both fail if the tree refers to a rule that the grammar
lacks.

The numbers are combined in a fixed order, a node before its children and the
children from left to right, which matters where arithmetic rounds.
-/

namespace StochasticGrammar.ParseTree

variable {α : Type}

/-- The probability of the rule of an entry, or `default` if there is none. -/
def entryProbability? (g : Grammar α) (default : α) (e : Entry) : Option α :=
  match e.rule with
  | none => some default
  | some ix => (g.rule? ix).map (·.probability)

mutual

/-- The rule probabilities of a tree combined by an operation with `unit` for
the nodes without a rule. -/
def reduce? (g : Grammar α) (op : α → α → α) (unit : α) :
    ParseTree → Option α
  | node e ts => do
    let x ← entryProbability? g unit e
    reduceList? g op unit x ts

/-- The values of a row of trees joined to a value from left to right. -/
def reduceList? (g : Grammar α) (op : α → α → α) (unit : α) (x : α) :
    List ParseTree → Option α
  | [] => some x
  | t :: ts => do
    let y ← reduce? g op unit t
    reduceList? g op unit (op x y) ts

end

/-- The product of the probabilities of the rules in a tree. -/
def product? [One α] [Mul α] (g : Grammar α) (t : ParseTree) : Option α :=
  reduce? g (· * ·) 1 t

/-- The sum of the probabilities of the rules in a tree. -/
def sum? [Zero α] [Add α] (g : Grammar α) (t : ParseTree) : Option α :=
  reduce? g (· + ·) 0 t

end StochasticGrammar.ParseTree
