import StochasticGrammar.Decimal.Reading
import StochasticGrammar.Settings.Error
import StochasticGrammar.Settings.Basic
import StochasticGrammar.Text.Case

/-!
# Parameters of a configuration

A configuration assigns values to parameters by name. Three words have a
meaning of their own in any case, `none`, `true` and `false`; any other value
is a text. Every kind of parameter takes every kind of value:

* for a number, an absent value or an empty text is zero, and a truth value is
  zero or one;
* for a truth value, every text that is not empty is true;
* for a word, every value is its own name in upper case.

Main results: a parameter is found by its name (`ofName?_name`).
-/

namespace StochasticGrammar

/-! ## Values -/

/-- A value in a configuration. -/
inductive ConfigValue where
  /-- The word for no value. -/
  | absent
  /-- The word for a truth value. -/
  | flag (value : Bool)
  /-- Any other text. -/
  | text (value : List Char)
  deriving DecidableEq, Repr

namespace ConfigValue

/-- The value that a text stands for. -/
def ofText (s : List Char) : ConfigValue :=
  let word := Text.lower s
  if word = "none".toList then .absent
  else if word = "true".toList then .flag true
  else if word = "false".toList then .flag false
  else .text s

/-- The value as a number, given how texts are read. -/
def toNumber? {α : Type} [OfNat α 0] [OfNat α 1] (read? : List Char → Option α) :
    ConfigValue → Option α
  | .absent | .flag false | .text [] => some 0
  | .flag true => some 1
  | .text s => read? s

/-- The value as a truth value. -/
def toFlag : ConfigValue → Bool
  | .absent => false
  | .flag value => value
  | .text s => !s.isEmpty

/-- The value as a word. -/
def toWord : ConfigValue → String
  | .absent => "NONE"
  | .flag true => "TRUE"
  | .flag false => "FALSE"
  | .text s => String.ofList (Text.upper s)

end ConfigValue

/-! ## Parameters -/

/-- The settings that a configuration can change. -/
inductive Parameter where
  | solverMaxIterations
  | solverMaxEvaluations
  | solverTolerance
  | strictSolver
  | mergeDuplicateRules
  | minRcond
  | logLevel
  | debug
  deriving DecidableEq, Repr

namespace Parameter

/-- All parameters. -/
def all : List Parameter :=
  [.solverMaxIterations, .solverMaxEvaluations, .solverTolerance,
    .strictSolver, .mergeDuplicateRules, .minRcond, .logLevel, .debug]

/-- The name of a parameter in a configuration. -/
def name : Parameter → String
  | .solverMaxIterations => "solver_max_iterations"
  | .solverMaxEvaluations => "solver_max_evaluations"
  | .solverTolerance => "solver_tolerance"
  | .strictSolver => "strict_solver"
  | .mergeDuplicateRules => "merge_duplicate_rules"
  | .minRcond => "min_rcond"
  | .logLevel => "log_level"
  | .debug => "debug"

/-- The parameter with a name. -/
def ofName? (s : String) : Option Parameter := all.find? (·.name == s)

/-- A parameter is found by its name. -/
@[simp] theorem ofName?_name (p : Parameter) : ofName? p.name = some p := by
  cases p <;> rfl

end Parameter

namespace Settings

/-- The settings with a value assigned to a parameter, unless the value cannot
be read. -/
def assign? (s : Settings) (p : Parameter) (v : ConfigValue) :
    Option Settings :=
  match p with
  | .solverMaxIterations =>
    (v.toNumber? Text.readInt?).map ({ s with solverMaxIterations := · })
  | .solverMaxEvaluations =>
    (v.toNumber? Text.readInt?).map ({ s with solverMaxEvaluations := · })
  | .solverTolerance =>
    (v.toNumber? Decimal.readFloat?).map ({ s with solverTolerance := · })
  | .strictSolver => some { s with strictSolver := v.toFlag }
  | .mergeDuplicateRules => some { s with mergeDuplicateRules := v.toFlag }
  | .minRcond =>
    (v.toNumber? Decimal.readFloat?).map ({ s with minRcond := · })
  | .logLevel => some { s with logLevel := v.toWord }
  | .debug => some { s with debug := v.toFlag }

/-- Carries out an assignment that is written as a line. -/
def assignLine (s : Settings) (line : List Char) :
    Except ConfigError.Cause Settings :=
  match line.dropWhile (· != '=') with
  | [] => .error (.expectedAssignment (String.ofList line))
  | _ :: right =>
    let name :=
      String.ofList (Text.lower (Text.trim (line.takeWhile (· != '='))))
    let value := Text.trim right
    match Parameter.ofName? name with
    | none => .error (.unknownParameter name)
    | some p =>
      match s.assign? p (.ofText value) with
      | some s => .ok s
      | none => .error (.invalidValue name (String.ofList value))

end Settings

end StochasticGrammar
