import StochasticGrammar.Command.Arguments
import StochasticGrammar.Decimal.Display
import StochasticGrammar.Grammar.File
import StochasticGrammar.NormalForm.Conversion
import StochasticGrammar.Parse.Cyk.Basic
import StochasticGrammar.Parse.Earley.Listing
import StochasticGrammar.Settings.Configuration
import StochasticGrammar.Tree.Graph

/-!
# What a run of the program reports

A run reads a configuration and a grammar, parses one string and shows its
derivations. All of that is a function of the arguments and of the contents of
the files (`report`): its value says what is printed, which records are logged,
how the run ends, and which file is to be written.

Errors in the configuration, the grammar or the string are logged and end the
run with the code 1. Bytes that are not UTF-8, and a few other faults, are not
expected and end it abnormally.

Main results: the level decides which records are logged
(`records_of_record`), and nothing is printed if the configuration is faulty
(`output_of_configuration_error`).
-/

namespace StochasticGrammar.Command

/-! ## Results -/

/-- A fault that ends a run abnormally. -/
inductive Crash where
  /-- Bytes are not UTF-8. -/
  | encoding
  /-- A configuration includes a file without naming it. -/
  | missingName
  /-- No file can have a name that was given. -/
  | invalidName
  /-- The condition of the system of unit rules is undefined. -/
  | undefinedCondition
  /-- A tree cannot be built. -/
  | build (fault : TreeFault)
  /-- A tree cannot be shown. -/
  | display (error : TreeError)
  /-- The chart cannot be shown. -/
  | symbol (error : SymbolError)
  deriving DecidableEq, Repr

/-- How a run ends. -/
inductive Ending where
  /-- With a code. -/
  | code (code : Nat)
  /-- Abnormally. -/
  | crash (cause : Crash)
  deriving DecidableEq, Repr

/-- A file to write. -/
structure Drawn where
  /-- Its name. -/
  file : String
  /-- Its text. -/
  text : String
  deriving DecidableEq, Repr

/-- What a run reports. -/
structure Report where
  /-- What is printed. -/
  output : String
  /-- The records that are logged. -/
  records : List LogRecord
  /-- The level of logging at the end. -/
  level : Nat
  /-- How it ends. -/
  ending : Ending
  /-- The file to write. -/
  drawn? : Option Drawn
  /-- The records that are logged once the file is written. -/
  afterwards : List LogRecord

/-- How a grammar comes out of its conversion, and how residuals are shown. -/
structure Conversion where
  /-- Converts a grammar. -/
  normalForm : Settings → Grammar Float →
    Except (NormalForm.Error Float) (Grammar Float)
  /-- Shows a residual. -/
  showResidual : Float → String

/-- Grammars as they are converted with given procedures, and residuals with six
digits. -/
def Conversion.of (l : LinearAlgebra) : Conversion where
  normalForm s g := NormalForm.result (s.options l) g
  showResidual x := String.ofList (Decimal.generalText 6 x)

/-! ## Steps -/

/-- What a run has reported so far. -/
structure Progress where
  /-- What is printed. -/
  output : String
  /-- The records that are logged. -/
  records : List LogRecord
  /-- The level of logging. -/
  level : Nat
  /-- The next number for a node of a tree. -/
  fresh : Nat

/-- Before a run, warnings are logged. -/
def Progress.start : Progress := ⟨"", [], Severity.warning.level, 0⟩

/-- A step of a run, which may be the last. -/
abbrev Running := ExceptT Ending (StateM Progress)

namespace Running

/-- Prints a text as it is. -/
def print (text : String) : Running Unit :=
  modify fun p => { p with output := p.output ++ text }

/-- Prints a line. -/
def say (line : String) : Running Unit := print (line ++ "\n")

/-- Logs records. -/
def record (records : List LogRecord) : Running Unit :=
  modify fun p => { p with records := p.records ++ shownAt p.level records }

/-- Sets the level of logging. -/
def setLevel (level : Nat) : Running Unit :=
  modify fun p => { p with level := level }

/-- Logs an error and ends the run. -/
def refuse {α : Type} (message : String) : Running α := do
  record [⟨.error, message⟩]
  throw (.code 1)

/-- Ends the run abnormally. -/
def crash {α : Type} (cause : Crash) : Running α := throw (.crash cause)

/-- Goes on with a value, or ends the run abnormally. -/
def orCrash {ε α : Type} (cause : ε → Crash) : Except ε α → Running α
  | .ok a => return a
  | .error e => crash (cause e)

/-- Builds trees. -/
def draw {α : Type} (x : Drawing α) : Running α := do
  let p ← get
  let (result, fresh) := x.run.run p.fresh
  set { p with fresh := fresh }
  orCrash .build result

end Running

open Running

/-- Sets the level with the name that settings give. -/
def setNamedLevel (s : Settings) : Running Unit := do
  let (level, records) := readLevel s.logLevel
  record records
  setLevel level

/-- Reads the configuration, after which the level of logging is known. -/
def configure (initial : Settings) (a : Arguments) (c : Configuration) :
    Running Settings := do
  unless a.verbose do record (readLevel initial.logLevel).2
  let (s, fault?) := initial.read c
  match fault? with
  | some (.error e) =>
    refuse ("Pcfg did not start due to a configuration error:\n" ++ e.message)
  | some .encoding => crash .encoding
  | some .missingName => crash .missingName
  | some .invalidName => crash .invalidName
  | none =>
    if a.verbose || s.debug then setLevel Severity.debug.level
    else setNamedLevel s
    return s

/-- Reads the grammar and shows it if asked to. -/
def readGrammar (a : Arguments) (file : Option ByteArray) :
    Running (Grammar Float) := do
  match Grammar.ofLabelFile a.grammar file with
  | .error .encoding => crash .encoding
  | .error .invalidName => crash .invalidName
  | .error (.grammar e) => refuse e.message
  | .ok g =>
    if a.rules then
      say "--- This is the grammar ---"
      say g.alphabet.symbolsText
      say (← orCrash .symbol g.rulesText)
    return g

/-- Converts the grammar if asked to. The other parser needs it converted. -/
def convert (l : LinearAlgebra) (c : Conversion) (a : Arguments) (s : Settings)
    (g : Grammar Float) : Running (Grammar Float) := do
  if a.cnf || a.parser = .cyk then
    record
      ((NormalForm.events (s.options l) g).map (·.record c.showResidual))
    match c.normalForm s g with
    | .error (.chains .undefined) => crash .undefinedCondition
    | .error e => refuse (e.message c.showResidual)
    | .ok h =>
      if a.rules then
        say "--- This is the grammar in Chomsky normal form ---"
        say (← orCrash .symbol h.rulesText)
      return h
  else return g

/-- What a parser finds. -/
structure Findings where
  /-- The derivations. -/
  derivations : Derivations Float
  /-- The states of the parser, if it has any. -/
  states? : Option (Except SymbolError String)

/-- Runs a parser on an input. -/
def parseWith (kind : ParserKind) (g : Grammar Float)
    (input : List SymbolId) : Except ParseError (Findings × List LogRecord) :=
  match kind with
  | .cyk => (Cyk.Parse.make g input).map fun p =>
    (⟨p.derivations, none⟩, p.records)
  | .earley => (Earley.Parse.make g input).map fun p =>
    (⟨p.derivations, some (p.statesText false)⟩, p.records)

/-- Reads the string and parses it. -/
def parse (a : Arguments) (g : Grammar Float) : Running Findings := do
  match g.alphabet.tokenize a.input with
  | .error e => refuse e.message
  | .ok input =>
    match parseWith a.parser g input with
    | .error e => refuse e.message
    | .ok (found, records) =>
      record records
      modify fun p => { p with fresh := found.derivations.firstFresh }
      return found

/-- The word for a truth value. -/
def truthWord (b : Bool) : String := if b then "True" else "False"

/-- A probability for people. -/
def showProbability (p : Float) : String :=
  Decimal.displayText Decimal.defaultPlaces p

/-- Shows a derivation and adds its probability to a total. -/
def showTree (a : Arguments) (d : Derivations Float) (total : Float)
    (ix : Nat) : Running Float := do
  let t ← draw (d.build ix)
  let p := d.weight t
  let text ← orCrash .symbol (t.labelText d.grammar.alphabet)
  say ("Tree " ++ Text.natText ix ++ " (" ++ showProbability p ++ "): " ++
    text)
  if a.trees then
    print (← orCrash .display (t.outline d.grammar ⟨true, false⟩ 0))
  return total + p

/-- Shows the derivations. -/
def showDerivations (a : Arguments) (d : Derivations Float) :
    Running Unit := do
  say "--- This is the parsed string ---"
  say (← orCrash .symbol (d.grammar.alphabet.formatString d.input))
  say ("can generate: " ++ truthWord d.canGenerate)
  say ("number of trees: " ++ Text.natText d.count)
  let total ← (List.range d.count).foldlM (showTree a d) 0
  say ("probability: " ++ showProbability total)

/-- Shows the states of the parser if asked to. -/
def showStates (a : Arguments) (found : Findings) : Running Unit := do
  if a.states then
    match found.states? with
    | some text => say (← orCrash .symbol text)
    | none =>
      record [⟨.warning, "--states only applies to the Earley parser"⟩]

/-- The graph of a derivation. -/
def graphText (d : Derivations Float) (ix : Nat) : Running String := do
  let t ← draw (d.build ix)
  orCrash .display (t.dotText d.grammar ("tree_" ++ Text.natText ix))

/-- Draws the derivations if asked to. -/
def drawTrees (a : Arguments) (d : Derivations Float) :
    Running (Option Drawn) := do
  match a.dot with
  | none => return none
  | some file =>
    if !Text.isFileName file.toList then crash .invalidName
    else
      let graphs ← (List.range d.count).mapM (graphText d)
      return some ⟨file, String.join graphs⟩

/-- All steps of a run. -/
def steps (l : LinearAlgebra) (c : Conversion) (initial : Settings)
    (a : Arguments) (config : Configuration) (file : Option ByteArray) :
    Running (Nat × Option Drawn) := do
  let s ← configure initial a config
  let g ← readGrammar a file
  let g ← convert l c a s g
  let found ← parse a g
  showDerivations a found.derivations
  showStates a found
  let drawn? ← drawTrees a found.derivations
  return (found.derivations.count, drawn?)

/-- The record on a file that has been written. -/
def drawnRecord (trees : Nat) (d : Drawn) : LogRecord :=
  ⟨.info, "Wrote " ++ Text.natText trees ++ " trees to " ++ d.file⟩

/-- What a run reports, given the procedures of linear algebra, the conversion,
the initial settings, the arguments, the configuration and the bytes of the
grammar file. -/
def report (l : LinearAlgebra) (c : Conversion) (initial : Settings)
    (a : Arguments) (config : Configuration) (file : Option ByteArray) :
    Report :=
  let (result, p) := (steps l c initial a config file).run.run .start
  match result with
  | .ok (trees, drawn?) =>
    ⟨p.output, p.records, p.level, .code 0, drawn?,
      shownAt p.level (drawn?.toList.map (drawnRecord trees))⟩
  | .error ending => ⟨p.output, p.records, p.level, ending, none, []⟩

/-! ## Laws -/

/-- Logging adds the records that the level lets through. -/
theorem records_of_record (records : List LogRecord) (p : Progress) :
    ((record records).run.run p).2.records =
      p.records ++ shownAt p.level records := rfl

/-- If the configuration is faulty, nothing is printed. -/
theorem output_of_configuration_error (l : LinearAlgebra) (c : Conversion)
    {initial : Settings} (a : Arguments) {config : Configuration}
    (file : Option ByteArray) {s : Settings} {e : ConfigError}
    (h : initial.read config = (s, some (.error e))) :
    (report l c initial a config file).output = "" ∧
      (report l c initial a config file).ending = .code 1 := by
  simp only [report, steps, configure, h]
  cases a.verbose <;> exact ⟨rfl, rfl⟩

end StochasticGrammar.Command
