import StochasticGrammar.Settings.Parameter

/-!
# Settings from the environment

Environment variables give the settings their first values. A variable that is
not set has a default, which is read like a value. The variables are read one
after another, and the first that cannot be read is the error.

A switch is read as a number here: zero is off, any other number is on.
-/

namespace StochasticGrammar

/-- The values of the environment variables that are set. -/
abbrev Environment := String → Option String

namespace Environment

/-- Reads a variable or its default. -/
def readVariable {α : Type} (read? : List Char → Option α) (env : Environment)
    (name default : String) : Except ConfigError α :=
  let value := (env name).getD default
  match read? value.toList with
  | some x => .ok x
  | none => .error ⟨.invalidVariable name value, none, 0⟩

/-- Reads an integer. -/
def int (env : Environment) (name default : String) : Except ConfigError Int :=
  readVariable Text.readInt? env name default

/-- Reads a floating-point number. -/
def float (env : Environment) (name default : String) :
    Except ConfigError Float :=
  readVariable Decimal.readFloat? env name default

/-- Reads a switch. -/
def flag (env : Environment) (name default : String) :
    Except ConfigError Bool :=
  (env.int name default).map (· != 0)

end Environment

/-- The variables that settings are read from. -/
def environmentVariables : List String :=
  ["PCFG_SOLVER_MAX_ITERATIONS", "PCFG_SOLVER_MAX_EVALUATIONS",
    "PCFG_SOLVER_TOLERANCE", "PCFG_STRICT_SOLVER",
    "PCFG_MERGE_DUPLICATE_RULES", "PCFG_MIN_RCOND", "PCFG_LOG_LEVEL"]

/-- The settings that an environment gives. -/
def Settings.ofEnvironment (env : Environment) :
    Except ConfigError Settings := do
  let iterations ← env.int "PCFG_SOLVER_MAX_ITERATIONS" "1000"
  let evaluations ← env.int "PCFG_SOLVER_MAX_EVALUATIONS" "1000"
  let tolerance ← env.float "PCFG_SOLVER_TOLERANCE" "1e-9"
  let strict ← env.flag "PCFG_STRICT_SOLVER" "0"
  let merge ← env.flag "PCFG_MERGE_DUPLICATE_RULES" "1"
  let rcond ← env.float "PCFG_MIN_RCOND" "1e-12"
  let level := (env "PCFG_LOG_LEVEL").getD "WARNING"
  return {
    solverMaxIterations := iterations
    solverMaxEvaluations := evaluations
    solverTolerance := tolerance
    strictSolver := strict
    mergeDuplicateRules := merge
    minRcond := rcond
    logLevel := String.ofList (Text.upper level.toList)
    debug := false
    loaded := false }

end StochasticGrammar
