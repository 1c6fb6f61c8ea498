import StochasticGrammar.NormalForm.Erasable
import StochasticGrammar.NormalForm.Options

/-!
# Removing rules with an empty right side

An erasable symbol on a right side may stand for the empty string. So each rule
with two symbols also gets the versions that lack one erasable symbol, with the
probability of that symbol being erased as a factor. Then the rules with an
empty right side can go.

Main results: no right side is empty afterwards (`ne_nil_of_mem_withShortened`).
-/

namespace StochasticGrammar.NormalForm

variable {α : Type}

/-- The probabilities with which symbols are erased, and how well they are
known. -/
structure Erasure (α : Type) where
  /-- The erasable symbols. -/
  symbols : List SymbolId
  /-- The probability of each. -/
  probabilities : List α
  /-- The largest residual of the equations. -/
  residual : α
  /-- How many iterations the fit took. -/
  iterations : Nat
  /-- How often the fit evaluated the equations. -/
  evaluations : Nat
  /-- Whether the fit is good enough. -/
  converged : Bool

namespace Erasure

/-- There is nothing to erase. -/
def nothing [Zero α] : Erasure α := ⟨[], [], 0, 0, 0, true⟩

/-- The probability with which a symbol is erased, if it is erasable. -/
def probability? (e : Erasure α) (id : SymbolId) : Option α :=
  (e.symbols.zip e.probabilities).lookup id

/-- The probability with which a symbol is erased. -/
def probability [Zero α] (e : Erasure α) (id : SymbolId) : α :=
  (e.probability? id).getD 0

end Erasure

/-- Whether a number can be a probability, up to a tolerance. -/
def inUnitRange [Zero α] [One α] [Add α] [Neg α] [LE α] [DecidableLE α]
    (tolerance x : α) : Bool :=
  decide (-tolerance ≤ x) && decide (x ≤ 1 + tolerance)

/-- The probabilities with which the erasable symbols of a list of rules are
erased. -/
def Erasure.fit [Zero α] [One α] [Add α] [Sub α] [Neg α] [Mul α] [Div α]
    [OfScientific α] [LT α] [DecidableLT α] [LE α] [DecidableLE α]
    (options : Options α) (rules : List (Rule α)) : Erasure α :=
  let symbols := erasables rules
  if symbols.isEmpty then .nothing
  else
    let fit :=
      Fit.solve options.solveStep options.limits (erasureSystem rules symbols)
    let tolerance := options.limits.tolerance
    { symbols := symbols
      probabilities := fit.x.toList
      residual := fit.residual
      iterations := fit.iterations
      evaluations := fit.evaluations
      converged := decide (fit.residual ≤ tolerance) &&
        fit.x.all (inUnitRange tolerance) }

/-- The versions of a rule that lack one erasable symbol. -/
def shortened [Mul α] (e : Erasure α) (r : Rule α) : List (Rule α) :=
  match r.rhs with
  | [first, second] =>
    (match e.probability? first with
      | some x => [⟨r.lhs, [second], r.probability * x⟩]
      | none => []) ++
    (match e.probability? second with
      | some x => [⟨r.lhs, [first], r.probability * x⟩]
      | none => [])
  | _ => []

/-- The rules with a nonempty right side, followed by their versions that lack
an erasable symbol. -/
def withShortened [Mul α] (e : Erasure α) (rules : List (Rule α)) :
    List (Rule α) :=
  let kept := rules.filter (!·.rhs.isEmpty)
  kept ++ kept.flatMap (shortened e)

/-- No right side is empty. -/
theorem ne_nil_of_mem_withShortened [Mul α] {e : Erasure α}
    {rules : List (Rule α)} {r : Rule α} (hr : r ∈ withShortened e rules) :
    r.rhs ≠ [] := by
  rcases List.mem_append.1 hr with hr | hr
  · have := (List.mem_filter.1 hr).2
    simpa using this
  · obtain ⟨s, _, hMem⟩ := List.mem_flatMap.1 hr
    unfold shortened at hMem
    split at hMem
    · rcases List.mem_append.1 hMem with hMem | hMem <;>
        split at hMem <;> simp at hMem <;> simp [hMem]
    · simp at hMem

end StochasticGrammar.NormalForm
