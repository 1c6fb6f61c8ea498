import StochasticGrammar.Grammar.Rule
import StochasticGrammar.LinearAlgebra.Matrix

/-!
# The equations of erasure

The probability `x i` that the `i`-th erasable symbol derives the empty string
satisfies `x = c + b x + [xᵀ a i x] i`: a symbol is erased by a rule with an
empty right side (`c`), by a rule to one erasable symbol that is erased in turn
(`b`), or by a rule to two of them (`a`). Rules with a symbol that is not
erasable contribute nothing.
-/

namespace StochasticGrammar.NormalForm

variable {α : Type} {n : Nat}

/-- The coefficients of the equations. -/
structure ErasureSystem (α : Type) (n : Nat) where
  /-- The probabilities of being erased at once. -/
  constant : Vec α n
  /-- The probabilities of the rules to one symbol. -/
  linear : Mat α n n
  /-- The probabilities of the rules to two symbols. -/
  quadratic : Tensor α n

/-- The sum of the probabilities of the rules that satisfy a condition. -/
def sumWhere [Zero α] [Add α] (rules : List (Rule α)) (p : Rule α → Bool) : α :=
  (rules.filter p).foldl (fun total r => total + r.probability) 0

/-- The position of a symbol in a list; the last one if there are several. -/
def lastPosition? (symbols : List SymbolId) (id : SymbolId) : Option Nat :=
  (symbols.zipIdx.filter fun (t, _) => t == id).getLast?.map (·.2)

/-- The equations of a list of symbols. -/
def erasureSystem [Zero α] [Add α] (rules : List (Rule α))
    (symbols : List SymbolId) : ErasureSystem α symbols.length :=
  let isAt (id : SymbolId) (i : Fin symbols.length) : Bool :=
    lastPosition? symbols id == some i.val
  let rulesAt (i : Fin symbols.length) := rules.filter fun r => isAt r.lhs i
  { constant := Vector.ofFn fun i =>
      sumWhere (rulesAt i) fun r => r.rhs.isEmpty
    linear := Vector.ofFn fun i =>
      let own := rulesAt i
      Vector.ofFn fun j => sumWhere own fun r =>
        match r.rhs with
        | [t] => isAt t j
        | _ => false
    quadratic := Vector.ofFn fun i =>
      let own := rulesAt i
      .ofFn fun j k => sumWhere own fun r =>
        match r.rhs with
        | [t, u] => isAt t j && isAt u k
        | _ => false }

namespace ErasureSystem

variable [Zero α] [One α] [Add α] [Sub α] [Mul α]

/-- The quadratic part of the equation of a symbol. -/
def quadraticPart (s : ErasureSystem α n) (x : Vec α n) (i : Fin n) : α :=
  sumOver n fun j => sumOver n fun k =>
    (s.quadratic.slice i).entry j k * x.entry j * x.entry k

/-- What is left of each equation when its left side is taken to the right. -/
def residual (s : ErasureSystem α n) (x : Vec α n) : Vec α n :=
  let shifted := s.linear.subOne.mulVec x
  .ofFn fun i => s.constant.entry i + shifted.entry i + s.quadraticPart x i

/-- The derivatives of the residual. -/
def jacobian (s : ErasureSystem α n) (x : Vec α n) : Mat α n n :=
  .ofFn fun i j =>
    s.linear.subOne.entry i j + sumOver n fun k =>
      ((s.quadratic.slice i).entry j k + (s.quadratic.slice i).entry k j) *
        x.entry k

end ErasureSystem

end StochasticGrammar.NormalForm
