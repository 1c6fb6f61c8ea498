/-!
# Settings

The numbers and switches that a run depends on, with their defaults.
-/

namespace StochasticGrammar

/-- The settings of a run. -/
structure Settings where
  /-- How many iterations the fit of the erasure probabilities may take. -/
  solverMaxIterations : Int := 1000
  /-- How often the fit may evaluate its equations. -/
  solverMaxEvaluations : Int := 1000
  /-- The largest residual of a fit that counts as converged. -/
  solverTolerance : Float := 1e-9
  /-- Fail on a fit that has not converged, instead of warning. -/
  strictSolver : Bool := false
  /-- Add up the probabilities of duplicate rules, instead of keeping the
  first. -/
  mergeDuplicateRules : Bool := true
  /-- The reciprocal condition number below which the system of unit rules
  counts as singular. -/
  minRcond : Float := 1e-12
  /-- The name of the level from which on records are logged. -/
  logLevel : String := "WARNING"
  /-- Log everything. -/
  debug : Bool := false
  /-- Whether a configuration file has been read. -/
  loaded : Bool := false

end StochasticGrammar
