import StochasticGrammar.Text.Blank
import StochasticGrammar.Text.Case

/-!
# Log records

What a run has to tell beside its result is a list of records, each a severity
and a message. Which of them are shown depends on a level; levels are numbers
and have names, under which the settings know them.
-/

namespace StochasticGrammar

/-- How serious a record is. -/
inductive Severity where
  | debug
  | info
  | warning
  | error
  deriving DecidableEq, Repr

/-- The name of a severity. -/
def Severity.name : Severity → String
  | .debug => "DEBUG"
  | .info => "INFO"
  | .warning => "WARNING"
  | .error => "ERROR"

/-- The level of a severity. -/
def Severity.level : Severity → Nat
  | .debug => 10
  | .info => 20
  | .warning => 30
  | .error => 40

/-- Something that a run has to tell. -/
structure LogRecord where
  /-- How serious it is. -/
  severity : Severity
  /-- What it says. -/
  message : String
  deriving DecidableEq, Repr

/-- The records that are shown at a level. -/
def shownAt (level : Nat) (records : List LogRecord) : List LogRecord :=
  records.filter fun r => level ≤ r.severity.level

/-- The names of the levels. -/
def levelNames : List (String × Nat) :=
  [("CRITICAL", 50), ("FATAL", 50), ("ERROR", 40), ("WARN", 30),
    ("WARNING", 30), ("INFO", 20), ("DEBUG", 10), ("NOTSET", 0)]

/-- The level with a name, without regard to case and outer blanks. An unknown
name stands for the level of warnings, and is a warning itself. -/
def readLevel (name : String) : Nat × List LogRecord :=
  let key := String.ofList (Text.upper (Text.trim name.toList))
  match levelNames.lookup key with
  | some level => (level, [])
  | none =>
    (Severity.warning.level,
      [⟨.warning, "Unknown logging level '" ++ name ++ "', using WARNING"⟩])

end StochasticGrammar
