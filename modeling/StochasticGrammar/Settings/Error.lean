import StochasticGrammar.Text.Digit

/-!
# Errors in settings

Settings come from the environment and from configuration files. An error names
what is wrong, and the file and line it was found in as far as there is a file.
-/

namespace StochasticGrammar

/-- What is wrong with a setting. -/
inductive ConfigError.Cause where
  /-- The value of an environment variable cannot be read. -/
  | invalidVariable (name value : String)
  /-- A line is not an assignment. -/
  | expectedAssignment (line : String)
  /-- There is no parameter of the name. -/
  | unknownParameter (name : String)
  /-- The value of a parameter cannot be read. -/
  | invalidValue (name value : String)
  /-- There is no section of the title. -/
  | unknownSection (title : String)
  /-- A line stands before the first section. -/
  | noSection (line : String)
  /-- The configuration file cannot be read. -/
  | unreadable (file : String)
  /-- An included file cannot be read. -/
  | unreadableInclude (file : String)
  deriving DecidableEq, Repr

/-- An error in the settings, with its file and line if it has any. -/
structure ConfigError where
  /-- What is wrong. -/
  cause : ConfigError.Cause
  /-- The file. -/
  file : Option String := none
  /-- The line, counted from 1. -/
  line : Nat := 0
  deriving DecidableEq, Repr

namespace ConfigError

/-- The text of an error without its position. -/
def Cause.message : Cause → String
  | .invalidVariable name value =>
    "Invalid environment variable value: " ++ name ++ "=" ++ value
  | .expectedAssignment line => "Expected 'name = value' in '" ++ line ++ "'"
  | .unknownParameter name =>
    "Unknown configuration parameter '" ++ name ++ "'"
  | .invalidValue name value =>
    "Invalid parameter value: " ++ name ++ "=" ++ value
  | .unknownSection title => "Unknown section name '" ++ title ++ "'"
  | .noSection line => "No handler for config line '" ++ line ++ "'"
  | .unreadable file =>
    "Error while opening or reading config file '" ++ file ++ "'"
  | .unreadableInclude file =>
    "Error while opening or reading include file '" ++ file ++ "'"

/-- The text of an error, after its position if it has one. -/
def message (e : ConfigError) : String :=
  match e.file.filter (!·.isEmpty) with
  | some file =>
    "File " ++ file ++ ", line " ++ Text.natText e.line ++ ": " ++
      e.cause.message
  | none => e.cause.message

end ConfigError

end StochasticGrammar
