import StochasticGrammar.Tree.Basic

/-!
# Visiting trees

A visitor is told of every node of a tree, from the top down and from left to
right, and builds a result from the results below. It may refuse to look below
a node, whose result is then what it refused with.
-/

namespace StochasticGrammar

/-- What a visitor does at the nodes of a tree. `ρ` is the type of results and
`σ` that of the results collected at one node. -/
structure Visitor (m : Type → Type) (ρ σ : Type) where
  /-- At a terminal leaf, with its depth. -/
  leaf : Nat → Entry → m ρ
  /-- On reaching another node, with its depth: a refusal, or the collection
  for the results below. -/
  enter : Nat → Entry → m (Except ρ σ)
  /-- On the result of a child, with its position. -/
  collect : σ → Nat → ρ → m σ
  /-- On leaving a node. -/
  leave : σ → Entry → m ρ

namespace ParseTree

variable {m : Type → Type} [Monad m] {ρ σ : Type}

mutual

/-- Visits a tree whose root has a given depth. -/
def visitAt (v : Visitor m ρ σ) (level : Nat) : ParseTree → m ρ
  | node e ts =>
    if (node e ts).isTerminalLeaf then v.leaf level e
    else do
      match ← v.enter level e with
      | .error refused => return refused
      | .ok start =>
        let collected ← visitList v (level + 1) start 0 ts
        v.leave collected e

/-- Visits the children of a node from position `ix` on. -/
def visitList (v : Visitor m ρ σ) (level : Nat) (collected : σ) (ix : Nat) :
    List ParseTree → m σ
  | [] => return collected
  | t :: ts => do
    let result ← visitAt v level t
    let collected ← v.collect collected ix result
    visitList v level collected (ix + 1) ts

end

/-- Visits a tree from its root. -/
def visit (v : Visitor m ρ σ) (t : ParseTree) : m ρ := t.visitAt v 0

end ParseTree

end StochasticGrammar
