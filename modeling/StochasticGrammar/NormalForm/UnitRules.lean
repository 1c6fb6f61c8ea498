import StochasticGrammar.NormalForm.Options

/-!
# Removing unit rules

A rule with one symbol on the right only renames. The total probability of all
chains of such rules from one symbol to another solves one linear system,
`(p - 1) x = -u`, where `p` has the probabilities of the unit rules between
nonterminals and `u` those to all symbols. A rule with two symbols is then
replaced by the rules to all pairs of symbols that the two can be renamed to,
and the start symbol takes over the rules of everything it can be renamed to.

Main results: the symbols that a symbol can be renamed to begin with the symbol
itself (`head?_unitClosure`).
-/

namespace StochasticGrammar.NormalForm

variable {α : Type}

/-! ## What a symbol can be renamed to -/

/-- The renamings that unit rules allow, in the order of the rules. -/
def renamings (rules : List (Rule α)) : List (SymbolId × SymbolId) :=
  rules.filterMap fun r =>
    match r.rhs with
    | [t] => some (r.lhs, t)
    | _ => none

/-- The symbols that are not in a list, each once, in order. -/
def freshOnly (known : List SymbolId) : List SymbolId → List SymbolId
  | [] => []
  | t :: rest =>
    if known.contains t then freshOnly known rest
    else t :: freshOnly (known ++ [t]) rest

/-- Goes through the symbols found and appends what each can be renamed to at
once; `done` have been gone through and `pending` have not. -/
def closeFrom (edges : List (SymbolId × SymbolId)) :
    Nat → List SymbolId → List SymbolId → List SymbolId
  | 0, done, pending => done ++ pending
  | _ + 1, done, [] => done
  | fuel + 1, done, x :: pending =>
    let targets := (edges.filter (·.1 == x)).map (·.2)
    let fresh := freshOnly (done ++ x :: pending) targets
    closeFrom edges fuel (done ++ [x]) (pending ++ fresh)

/-- The symbols that a symbol can be renamed to in any number of steps, in the
order in which they are found. Every symbol but the first is the target of a
renaming, which bounds the number of symbols to go through. -/
def unitClosure (edges : List (SymbolId × SymbolId)) (id : SymbolId) :
    List SymbolId :=
  closeFrom edges (edges.length + 1) [] [id]

theorem head?_closeFrom (edges : List (SymbolId × SymbolId)) (fuel : Nat)
    (done pending : List SymbolId) (x : SymbolId)
    (h : (done ++ pending).head? = some x) :
    (closeFrom edges fuel done pending).head? = some x := by
  induction fuel generalizing done pending with
  | zero => exact h
  | succ fuel ih =>
    cases pending with
    | nil => simpa [closeFrom] using h
    | cons y pending =>
      apply ih
      cases done <;> simp_all

/-- A symbol comes first among those it can be renamed to. -/
theorem head?_unitClosure (edges : List (SymbolId × SymbolId))
    (id : SymbolId) : (unitClosure edges id).head? = some id :=
  head?_closeFrom edges _ [] [id] id rfl

/-! ## The probabilities of chains -/

/-- The symbols of an alphabet in the order of the columns: nonterminals, then
terminals. -/
def columns (al : Alphabet) : List SymbolId :=
  al.ids .nonterminal ++ al.ids .terminal

/-- The sum of the probabilities of the unit rules from one symbol to
another. -/
def unitTotal [Zero α] [Add α] (rules : List (Rule α))
    (source target : SymbolId) : α :=
  (rules.filter fun r => r.lhs == source && r.rhs == [target]).foldl
    (fun total r => total + r.probability) 0

/-- The unit rules as a matrix: a row for each nonterminal, a column for each
of some symbols. -/
def unitMatrix [Zero α] [Add α] (rules : List (Rule α))
    (rows targets : List SymbolId) : Mat α rows.length targets.length :=
  Vector.ofFn fun i =>
    let own := rules.filter fun r => r.lhs == rows[i] && r.rhs.length == 1
    Vector.ofFn fun j => unitTotal own rows[i] targets[j]

/-- Why the probabilities of chains cannot be found. -/
inductive ChainError where
  /-- The system is singular. -/
  | singular
  /-- The system could not be solved. -/
  | unsolvable
  /-- The solution is not finite. -/
  | infinite
  /-- The condition of the system is undefined. -/
  | undefined
  deriving DecidableEq, Repr

/-- The text of an error. -/
def ChainError.message : ChainError → String
  | .singular =>
    "The unit rule system is singular; some nonterminal derives itself " ++
      "through unit rules with probability 1"
  | .unsolvable => "Unable to solve the unit rule system: Singular matrix"
  | .infinite => "The unit rule system has no finite solution"
  | .undefined => "The condition of the unit rule system is undefined"

/-- The probabilities of the chains from each nonterminal to each symbol. -/
structure Chains (α : Type) where
  /-- The nonterminals, by row. -/
  rows : List SymbolId
  /-- The symbols, by column. -/
  targets : List SymbolId
  /-- The total probability of the chains of one and more rules. -/
  totals : Mat α rows.length targets.length

section Numbers

variable [Zero α] [One α] [Add α] [Sub α] [Neg α]

/-- Finds the probabilities of all chains of unit rules. -/
def Chains.solve (options : Options α) (al : Alphabet)
    (rules : List (Rule α)) : Except ChainError (Chains α) :=
  let rows := al.ids .nonterminal
  let targets := columns al
  let system := (unitMatrix rules rows rows).subOne
  match options.verdict rows.length system with
  | .undefined => .error .undefined
  | .singular => .error .singular
  | .regular =>
    match options.solveUnits rows.length targets.length system
        (unitMatrix rules rows targets).neg with
    | none => .error .unsolvable
    | some x =>
      if anyEntry (!options.isFinite ·) x then .error .infinite
      else .ok ⟨rows, targets, x⟩

/-- The total probability of the chains from a nonterminal to a symbol, if
there is such a row and column. -/
def Chains.total? (c : Chains α) (source target : SymbolId) : Option α := do
  let i ← c.rows.findFinIdx? (· == source)
  let j ← c.targets.findFinIdx? (· == target)
  some (c.totals.entry i j)

/-- The probability of renaming one symbol to another in any number of steps,
none included. -/
def Chains.rename (c : Chains α) (source target : SymbolId) : α :=
  let stay : α := if source = target then 1 else 0
  match c.total? source target with
  | some x => stay + x
  | none => stay

variable [Mul α]

/-- A rule with two symbols for every way of renaming the two. -/
def renamed (c : Chains α) (edges : List (SymbolId × SymbolId))
    (r : Rule α) : List (Rule α) :=
  match r.rhs with
  | [first, second] =>
    let seconds := (unitClosure edges second).map fun t =>
      (t, c.rename second t)
    (unitClosure edges first).flatMap fun s =>
      let p := r.probability * c.rename first s
      seconds.map fun (t, q) => ⟨r.lhs, [s, t], p * q⟩
  | _ => []

/-- The rules that the start symbol takes over from a symbol it can be renamed
to. -/
def takenOver (c : Chains α) (al : Alphabet) (rules : List (Rule α))
    (x : SymbolId) : List (Rule α) :=
  let p := c.rename startId x
  if al.isTerminal x then
    if x = emptyId then [] else [⟨startId, [x], p⟩]
  else
    (rules.filter (·.lhs == x)).map fun r =>
      ⟨startId, r.rhs, r.probability * p⟩

/-- The rules without unit rules, given the probabilities of their chains. -/
def withoutUnits (c : Chains α) (al : Alphabet) (rules : List (Rule α)) :
    List (Rule α) :=
  let edges := renamings rules
  let pairs := rules.flatMap (renamed c edges)
  pairs.filter (·.lhs != startId) ++
    (unitClosure edges startId).flatMap (takenOver c al pairs)

/-- Removes the unit rules. -/
def removeUnits (options : Options α) (al : Alphabet)
    (rules : List (Rule α)) : Except ChainError (List (Rule α)) :=
  (Chains.solve options al rules).map fun c => withoutUnits c al rules

end Numbers

end StochasticGrammar.NormalForm
