import StochasticGrammar.Settings.Source

/-!
# The default configuration

A run that is not told which configuration to read takes this one. It sets every
parameter to its default, so it also overrides the environment.
-/

namespace StochasticGrammar.Command

/-- The name that the default configuration goes by. -/
def defaultConfigurationName : String := "Pcfg.conf"

/-- The rows of the default configuration. -/
def defaultRows : List String :=
  ["# Pcfg configuration file", "", "[settings]", "",
    "# Levenberg-Marquardt budget for fitting erasure probabilities",
    "solver_max_iterations = 1000", "solver_max_evaluations = 1000", "",
    "# Largest absolute residual accepted as a converged fit",
    "solver_tolerance = 1e-9", "",
    "# Fail the conversion instead of warning when the fit does not converge",
    "strict_solver = false", "",
    "# Sum probabilities of duplicate rules produced by the conversion",
    "merge_duplicate_rules = true", "", "log_level = WARNING",
    "debug = false", "",
    "# Reciprocal condition number below which the unit rule system is " ++
      "singular",
    "min_rcond = 1e-12"]

/-- The default configuration. -/
def defaultConfiguration : Configuration where
  lines := defaultRows.zipIdx.map fun (row, ix) =>
    ⟨defaultConfigurationName, ix + 1, row.toList⟩
  fault? := none

/-- The configuration that arguments name, or the default one. -/
def configurationFor {m : Type → Type} [Monad m]
    (openFile : String → m (Option ByteArray)) (named : Option String) :
    m Configuration :=
  match named with
  | some file => Configuration.source openFile file
  | none => return defaultConfiguration

end StochasticGrammar.Command
