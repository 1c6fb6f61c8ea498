import StochasticGrammar.Log
import StochasticGrammar.NormalForm.Cleanup
import StochasticGrammar.NormalForm.EmptyRules
import StochasticGrammar.NormalForm.Split
import StochasticGrammar.NormalForm.UnitRules

/-!
# Conversion to Chomsky normal form

In the normal form every rule has two symbols on the right, except that the
start symbol may have rules to single terminals and one to the empty string
symbol. The conversion goes through stages, each a function of the one before:

* `isolated`: the start symbol is on no right side;
* `split`: no right side is longer than two;
* `emptied`: no right side is empty, and the probability of the empty string is
  set aside;
* `unitFree`: only the start symbol renames, and only to terminals;
* `result`: duplicates are merged and unused rules dropped.

A stage fails if the one before it fails. What the conversion has to tell is
what it told up to its failure.
-/

namespace StochasticGrammar

namespace NormalForm

/-- Why a grammar cannot be converted. -/
inductive Error (α : Type) where
  /-- A fresh symbol could not be added. -/
  | symbol (error : SymbolError)
  /-- The fit has not converged, and has to. -/
  | notConverged (residual : α) (iterations evaluations : Nat)
  /-- The probabilities of chains of unit rules cannot be found. -/
  | chains (error : ChainError)
  /-- A rule of the result is refused. -/
  | rule (error : GrammarError α)

/-- What the conversion has to tell. -/
inductive Event (α : Type) where
  /-- Long rules were split. -/
  | split (before after : Nat)
  /-- The erasure probabilities were fitted. -/
  | fitted (symbols : Nat) (residual : α) (iterations : Nat)
  /-- The fit has not converged. -/
  | notConverged (residual : α) (iterations evaluations : Nat)
  /-- Rules with an empty right side were removed. -/
  | emptied (rules : Nat)
  /-- The conversion is done. -/
  | finished (rules : Nat)

/-- The text on a fit that has not converged. -/
def notConvergedText (residual : String) (iterations evaluations : Nat) :
    String :=
  "Erasure probabilities did not converge: residual " ++ residual ++
    " after " ++ Text.natText iterations ++ " iterations and " ++
    Text.natText evaluations ++ " evaluations"

/-- The text of an error, given how a residual is shown. -/
def Error.message {α : Type} [NumberText α] (showResidual : α → String) :
    Error α → String
  | .symbol error => error.message
  | .notConverged residual iterations evaluations =>
    notConvergedText (showResidual residual) iterations evaluations
  | .chains error => error.message
  | .rule error => error.message

/-- The record of an event, given how a residual is shown. -/
def Event.record {α : Type} (showResidual : α → String) :
    Event α → LogRecord
  | .split before after =>
    ⟨.debug, "CNF: " ++ Text.natText before ++ " rules, " ++
      Text.natText after ++ " after splitting"⟩
  | .fitted symbols residual iterations =>
    ⟨.debug, "Erasure probabilities of " ++ Text.natText symbols ++
      " nonterminals: residual " ++ showResidual residual ++ " after " ++
      Text.natText iterations ++ " iterations"⟩
  | .notConverged residual iterations evaluations =>
    ⟨.warning,
      notConvergedText (showResidual residual) iterations evaluations⟩
  | .emptied rules =>
    ⟨.debug, "CNF: " ++ Text.natText rules ++ " rules without epsilon rules"⟩
  | .finished rules =>
    ⟨.debug, "CNF: " ++ Text.natText rules ++ " rules in the result"⟩

/-- Rules without empty right sides, and the probability of the empty
string. -/
structure Emptied (α : Type) where
  /-- The symbols. -/
  alphabet : Alphabet
  /-- The rules. -/
  rules : List (Rule α)
  /-- The probability with which the start symbol is erased. -/
  emptyProbability : α

section Stages

variable {α : Type}

/-- The rules with the empty string symbol removed from their right sides. -/
def stripped (g : Grammar α) : List (Rule α) := g.rules.map Rule.withoutEmpty

/-- The first stage: the start symbol is on no right side. -/
def isolated (g : Grammar α) : Except (Error α) (Stage α) :=
  (isolateStart g.alphabet (stripped g)).mapError .symbol

/-- The second stage: no right side is longer than two. -/
def split [One α] (g : Grammar α) : Except (Error α) (Stage α) := do
  let s ← isolated g
  (splitLong s).mapError .symbol

variable [Zero α] [One α] [Add α] [Sub α] [Neg α] [Mul α] [Div α]
  [OfScientific α] [LT α] [DecidableLT α] [LE α] [DecidableLE α]

/-- The erasure probabilities of the rules of the second stage. -/
def erasure (options : Options α) (g : Grammar α) : Erasure α :=
  match split g with
  | .ok s => .fit options s.rules
  | .error _ => .nothing

/-- Removes the rules with an empty right side. -/
def removeEmpty (options : Options α) (s : Stage α) :
    Except (Error α) (Emptied α) :=
  let e := Erasure.fit options s.rules
  if options.strict && !e.converged then
    .error (.notConverged e.residual e.iterations e.evaluations)
  else
    .ok ⟨s.alphabet, withShortened e s.rules, e.probability startId⟩

/-- The third stage: no right side is empty. -/
def emptied (options : Options α) (g : Grammar α) :
    Except (Error α) (Emptied α) := do
  let s ← split g
  removeEmpty options s

/-- The fourth stage: there are no unit rules but those of the start symbol to
terminals. -/
def unitFree (options : Options α) (g : Grammar α) :
    Except (Error α) (Emptied α) := do
  let s ← emptied options g
  let rules ← (removeUnits options s.alphabet s.rules).mapError .chains
  return ⟨s.alphabet, rules, s.emptyProbability⟩

/-- The rules of the result: with the rule for the empty string if it has a
probability, without duplicates, and without unused rules. -/
def finalRules (options : Options α) (s : Emptied α) : List (Rule α) :=
  let rules :=
    if 0 < s.emptyProbability then
      s.rules ++ [⟨startId, [emptyId], s.emptyProbability⟩]
    else s.rules
  collect (mergeDuplicates options.mergeDuplicates rules)

/-- The grammar in normal form. -/
def result (options : Options α) (g : Grammar α) :
    Except (Error α) (Grammar α) := do
  let s ← unitFree options g
  ((finalRules options s).foldlM Grammar.addRule
    (Grammar.empty s.alphabet)).mapError .rule

/-! ## Events -/

/-- What the fit has to tell. -/
def fitEvents (options : Options α) (e : Erasure α) : List (Event α) :=
  if e.symbols.isEmpty then []
  else
    .fitted e.symbols.length e.residual e.iterations ::
      if e.converged || options.strict then []
      else [.notConverged e.residual e.iterations e.evaluations]

/-- What there is to tell of the second stage. -/
def splitEvents (g : Grammar α) (s : Except (Error α) (Stage α)) :
    List (Event α) :=
  match s with
  | .ok s => [.split g.rules.length s.rules.length]
  | .error _ => []

/-- What there is to tell of the third stage. -/
def emptiedEvents (s : Except (Error α) (Emptied α)) : List (Event α) :=
  match s with
  | .ok s => [.emptied s.rules.length]
  | .error _ => []

/-- What there is to tell of the result. -/
def resultEvents (s : Except (Error α) (Grammar α)) : List (Event α) :=
  match s with
  | .ok g => [.finished g.rules.length]
  | .error _ => []

/-- What the conversion of a grammar has to tell. -/
def events (options : Options α) (g : Grammar α) : List (Event α) :=
  splitEvents g (split g) ++ fitEvents options (erasure options g) ++
    emptiedEvents (emptied options g) ++ resultEvents (result options g)

end Stages

end NormalForm

end StochasticGrammar
