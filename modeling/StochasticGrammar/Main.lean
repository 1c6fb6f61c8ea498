import StochasticGrammar.Command.Default
import StochasticGrammar.Command.Report
import StochasticGrammar.Settings.Environment

/-!
# The program

Reads the environment and the files that the arguments name, prints what the
run reports, and writes the file with the drawn trees.
-/

namespace StochasticGrammar.Command

/-- How the program is used. -/
def usageText : String :=
  "usage: pcfg [-h] [-p \x7bearley,cyk\x7d] [--cnf] [-r] [-t] [--states]\n" ++
  "            [-d DOT] [-c CONFIG] [-v] grammar [string]\n"

/-- What the program does, with its arguments. -/
def helpText : String :=
  usageText ++ "\n" ++
  "Parses a string according to a probabilistic context-free grammar.\n\n" ++
  "  grammar        grammar file\n" ++
  "  string         terminal labels to parse, separated by spaces\n" ++
  "  -h, --help     show this text\n" ++
  "  -p, --parser   parser to use; cyk works on the normal form\n" ++
  "  --cnf          convert the grammar to Chomsky normal form\n" ++
  "  -r, --rules    print the alphabet and the rules\n" ++
  "  -t, --trees    print each tree as an indented outline\n" ++
  "  --states       print the Earley states\n" ++
  "  -d, --dot      write the trees to a file in the DOT language\n" ++
  "  -c, --config   configuration file\n" ++
  "  -v, --verbose  log debug information\n"

/-- The bytes of a file, if it can be read. -/
def readBytes? (file : String) : IO (Option ByteArray) := do
  return (← (IO.FS.readBinFile file).toBaseIO).toOption

/-- The variables of the environment that settings are read from. -/
def readEnvironment : IO Environment := do
  let pairs ← environmentVariables.filterMapM fun name => do
    return (← IO.getEnv name).map fun value => (name, value)
  return fun name => pairs.lookup name

/-- Shows records. -/
def showRecords (records : List LogRecord) : IO Unit :=
  records.forM fun r => IO.eprintln (r.severity.name ++ ":" ++ r.message)

/-- Prints and writes what a run reports; the code that it ends with. -/
def deliver (r : Report) : IO UInt32 := do
  IO.print r.output
  showRecords r.records
  match r.drawn? with
  | some d => IO.FS.writeFile d.file d.text
  | none => pure ()
  showRecords r.afterwards
  match r.ending with
  | .code code => return code.toUInt32
  | .crash _ =>
    IO.eprintln "The run ended abnormally"
    return 1

end StochasticGrammar.Command

open StochasticGrammar StochasticGrammar.Command

/-- Runs the program. -/
def main (argv : List String) : IO UInt32 := do
  match Arguments.read argv with
  | .error .help =>
    IO.print helpText
    return Stop.help.code.toUInt32
  | .error .usage =>
    IO.eprint usageText
    return Stop.usage.code.toUInt32
  | .ok a =>
    match Settings.ofEnvironment (← readEnvironment) with
    | .error e =>
      IO.eprintln e.message
      return 1
    | .ok initial =>
      let config ← configurationFor readBytes? a.config
      let file ← readBytes? a.grammar
      deliver (report .standard (.of .standard) initial a config file)
