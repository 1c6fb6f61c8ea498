import StochasticGrammar.Command.Option
import StochasticGrammar.Text.PathName

/-!
# Arguments of the command line

The arguments are a grammar file, an optional string to parse, and options.
Options may stand anywhere, but the string has to follow the grammar file at
once. What they ask for is carried out from left to right, so that a request
for help counts only if nothing was wrong before it, or with the letters that
are joined to it.

Two dashes that are attached to an option as its value are no value. Without
one the parser is the usual one, nothing is drawn, and the configuration is
the file whose name is a pair of brackets.

Main results: the two positional arguments are found whatever options stand
before and after them (`positionals_plain`).
-/

namespace StochasticGrammar.Command

/-- The parsers to choose from. -/
inductive ParserKind where
  | earley
  | cyk
  deriving DecidableEq, Repr

/-- What a run of the program is asked to do. -/
structure Arguments where
  /-- The grammar file. -/
  grammar : String
  /-- The string to parse. -/
  input : String
  /-- The parser. -/
  parser : ParserKind := .earley
  /-- Convert to normal form first. -/
  cnf : Bool := false
  /-- Show the grammar. -/
  rules : Bool := false
  /-- Show the trees as outlines. -/
  trees : Bool := false
  /-- Show the states of the parser. -/
  states : Bool := false
  /-- The file to draw the trees in. -/
  dot : Option String := none
  /-- The configuration file, if not the default one. -/
  config : Option String := none
  /-- Log everything. -/
  verbose : Bool := false
  deriving DecidableEq, Repr

/-- Why arguments do not lead to a run. -/
inductive Stop where
  /-- The program is asked how it is used. -/
  | help
  /-- The arguments are wrong. -/
  | usage
  deriving DecidableEq, Repr

/-- The code that a program ends with that does not run. -/
def Stop.code : Stop → Nat
  | .help => 0
  | .usage => 2

/-! ## Options -/

/-- Something that an option asks for. -/
inductive Request where
  /-- An option without a value. -/
  | mark (opt : Opt)
  /-- An option with its value. -/
  | give (opt : Opt) (value : String)
  /-- An option with no value where one belongs. -/
  | void (opt : Opt)
  deriving DecidableEq, Repr

/-- The name of the configuration file if no value is given for it. -/
def voidConfiguration : String := "[]"

/-- Carries out a request. -/
def Arguments.perform (a : Arguments) : Request → Except Stop Arguments
  | .mark .help => .error .help
  | .mark .cnf => .ok { a with cnf := true }
  | .mark .rules => .ok { a with rules := true }
  | .mark .trees => .ok { a with trees := true }
  | .mark .states => .ok { a with states := true }
  | .mark .verbose => .ok { a with verbose := true }
  | .give .parser value =>
    if value = "earley" then .ok { a with parser := .earley }
    else if value = "cyk" then .ok { a with parser := .cyk }
    else .error .usage
  | .give .dot value =>
    .ok { a with dot := some (String.ofList (Text.shortPath value.toList)) }
  | .give .config value =>
    .ok { a with config := some (String.ofList (Text.shortPath value.toList)) }
  | .void .parser => .ok { a with parser := .earley }
  | .void .dot => .ok { a with dot := none }
  | .void .config => .ok { a with config := some voidConfiguration }
  | _ => .error .usage

/-- What an option asks for. -/
structure Asked where
  /-- The requests, in order. -/
  requests : List Request
  /-- Whether the next argument is used up as a value. -/
  takesNext : Bool := false
  deriving DecidableEq, Repr

/-- An option with a value that is attached to it. -/
def Asked.given (opt : Opt) (value : List Char) : Asked where
  requests :=
    if value = ['-', '-'] then [.void opt]
    else [.give opt (String.ofList value)]

/-- One request more, before the others. -/
def Asked.after (asked : Asked) (first : Request) : Asked :=
  { asked with requests := first :: asked.requests }

/-- What an option asks for with nothing attached, given the argument after
it. -/
def detached (next : Option String) (opt : Opt) : Option Asked :=
  if opt.hasValue then
    next.map fun value => { requests := [.give opt value], takesNext := true }
  else some { requests := [.mark opt] }

/-- What joined letters ask for: the options that they name. The last of them
may have a value, which is the rest of the letters. -/
def lettered (next : Option String) : List Char → Option Asked
  | [] => none
  | c :: rest => do
    let opt ← Opt.ofName? ['-', c]
    if rest.isEmpty then detached next opt
    else if opt.hasValue then some (.given opt rest)
    else (lettered next rest).map (·.after (.mark opt))

/-- What an option asks for, given the argument after it; nothing if it cannot
have what is attached to it. -/
def asked (next : Option String) (opt : Opt) (letter : Bool) :
    Option (List Char) → Option Asked
  | none => detached next opt
  | some attached =>
    if opt.hasValue then some (.given opt attached)
    else if letter then
      (lettered next attached).map (·.after (.mark opt))
    else none

/-! ## Positional arguments -/

/-- What is left of the arguments when options are taken out. -/
inductive Piece where
  /-- A positional argument. -/
  | plain (text : String)
  /-- The two dashes. -/
  | separator
  /-- An option stood here. -/
  | gap
  /-- An option that does not exist. -/
  | unknown
  deriving DecidableEq, Repr

/-- The text of an argument that may be a value. -/
def Token.plain? : Token → Option String
  | .plain text => some text
  | _ => none

/-- Carries out the options and leaves the positional arguments. -/
def readOptions (a : Arguments) :
    List Token → Except Stop (Arguments × List Piece)
  | [] => return (a, [])
  | .plain text :: rest => do
    let (a, pieces) ← readOptions a rest
    return (a, .plain text :: pieces)
  | .separator :: rest => do
    let (a, pieces) ← readOptions a rest
    return (a, .separator :: pieces)
  | .unknown :: rest => do
    let (a, pieces) ← readOptions a rest
    return (a, .unknown :: pieces)
  | .option opt letter attached :: rest =>
    match asked (rest.head?.bind Token.plain?) opt letter attached with
    | none => .error .usage
    | some request => do
      let a ← request.requests.foldlM Arguments.perform a
      let (a, pieces) ←
        readOptions a (if request.takesNext then rest.tail else rest)
      return (a, .gap :: pieces)
termination_by tokens => tokens.length
decreasing_by
  all_goals simp only [List.length_cons]
  iterate 3 omega
  split
  · rw [List.length_tail]
    omega
  · omega

/-- Whether a piece is none of the positional arguments. -/
def Piece.isGap : Piece → Bool
  | .gap => true
  | _ => false

/-- The pieces without a separator in front. -/
def dropSeparator : List Piece → List Piece
  | .separator :: rest => rest
  | pieces => pieces

/-- The string, if it comes next, and what follows it. Two dashes as a string
are no string. -/
def takeInput : List Piece → String × List Piece
  | .plain text :: rest =>
    (if text = "--" then "" else text, dropSeparator rest)
  | pieces => ("", pieces)

/-- The grammar file and the string; nothing if there is no grammar file, or
if anything is left over. -/
def positionals : List Piece → Option (String × String)
  | .gap :: rest => positionals rest
  | .separator :: .plain file :: rest | .plain file :: rest =>
    let (input, rest) := takeInput (dropSeparator rest)
    if rest.all Piece.isGap then some (file, input) else none
  | _ => none

/-- The grammar file and the string are found whatever options stand around
them. -/
theorem positionals_plain (file input : String) (h : input ≠ "--")
    (before after : Nat) :
    positionals (List.replicate before .gap ++ .plain file :: .plain input ::
      List.replicate after .gap) = some (file, input) := by
  induction before with
  | zero =>
    cases after with
    | zero => simp [positionals, takeInput, dropSeparator, h]
    | succ n =>
      simp [positionals, takeInput, dropSeparator, h, List.replicate_succ,
        Piece.isGap]
  | succ n ih => simpa [List.replicate_succ, positionals] using ih

/-! ## All arguments -/

/-- What the arguments look like; nothing if one of them is ambiguous. After
the two dashes none is an option. -/
def tokens? : List String → Option (List Token)
  | [] => some []
  | argument :: rest =>
    if argument = "--" then some (.separator :: rest.map .plain)
    else do
      let token ← recognize argument
      let tokens ← tokens? rest
      return token :: tokens

/-- What the arguments ask for. -/
def Arguments.read (argv : List String) : Except Stop Arguments := do
  let some tokens := tokens? argv | .error .usage
  let (a, pieces) ← readOptions { grammar := "", input := "" } tokens
  let some (file, input) := positionals pieces | .error .usage
  return { a with
    grammar := String.ofList (Text.shortPath file.toList), input := input }

end StochasticGrammar.Command
