import StochasticGrammar.Alphabet.Listing
import StochasticGrammar.Grammar.Basic
import StochasticGrammar.Text.LineBreak

/-!
# The format with labels

This format is for people. After the number of symbols it has one line per
symbol, `0` for a nonterminal or `1` for a terminal with the label and perhaps
a description; after the number of rules it has one line per rule, the
probability with the labels of both sides.

A comment sign starts a comment, and lines that are empty without their
comment are skipped; error positions count them nevertheless. Lines after the
last rule are ignored.
-/

namespace StochasticGrammar.Grammar

variable {α : Type}

/-- A line with something on it, and its number. -/
structure Content where
  /-- The number of the line, counted from 1. -/
  line : Nat
  /-- What the line holds apart from comments and outer blanks. -/
  text : List Char

/-- What a line holds apart from comments and outer blanks. -/
def lineContent (row : String) : List Char :=
  Text.trim (Text.stripComment row.toList)

/-- The lines with something on them; `line` is the number of the first. -/
def contents (line : Nat) : List String → List Content
  | [] => []
  | row :: rest =>
    if (lineContent row).isEmpty then contents (line + 1) rest
    else ⟨line, lineContent row⟩ :: contents (line + 1) rest

/-- Takes the next line; at the end of the text an empty line without a
number. -/
def nextContent : List Content → Content × List Content
  | [] => (⟨0, []⟩, [])
  | c :: rest => (c, rest)

/-- Reads the number of something. -/
def takeNumber (file : Option String) (what : String) :
    List Content → Except (GrammarError α) (Int × List Content)
  | [] => .error ⟨.missingNumber what, file, 0⟩
  | c :: rest =>
    match Text.readInt? c.text with
    | some n => .ok (n, rest)
    | none => .error ⟨.expectedNumber what, file, c.line⟩

/-- The category that the first field of a symbol definition stands for. -/
def readCategory? : List Char → Option Category
  | ['0'] => some .nonterminal
  | ['1'] => some .terminal
  | _ => none

/-- Adds the symbol that a line defines. -/
def addDefinition (file : Option String) (al : Alphabet) (c : Content) :
    Except (GrammarError α) Alphabet :=
  let malformed : Except (GrammarError α) Alphabet :=
    .error ⟨.invalidSymbolDefinition (String.ofList c.text), file, c.line⟩
  match Text.splitSpaces 2 c.text with
  | kind :: label :: rest =>
    match readCategory? kind with
    | none => malformed
    | some category =>
      let description :=
        rest.head?.bind fun d => Alphabet.nonempty? (Text.trim d)
      match al.add category (String.ofList label) description with
      | .ok (_, extended) => .ok extended
      | .error e => .error ⟨.symbol e, file, c.line⟩
  | _ => malformed

/-- Adds the symbols that the next lines define. -/
def addDefinitions (file : Option String) :
    Nat → Alphabet → List Content →
      Except (GrammarError α) (Alphabet × List Content)
  | 0, al, rest => .ok (al, rest)
  | n + 1, al, rest => do
    let (c, rest) := nextContent rest
    let al ← addDefinition file al c
    addDefinitions file n al rest

/-- The rule between the symbols that two sides name. -/
def namedRule (al : Alphabet) (lhs : List Char) (rhs : List (List Char))
    (p : α) : Except SymbolError (Rule α) := do
  let lhs ← al.idOfLabel (String.ofList lhs)
  let rhs ← rhs.mapM fun w => al.idOfLabel (String.ofList w)
  return ⟨lhs, rhs, p⟩

/-- Adds the rule that a line states. -/
def addStatement [NumberText α] (file : Option String) (g : Grammar α)
    (c : Content) : Except (GrammarError α) (Grammar α) :=
  match Text.words c.text with
  | probability :: lhs :: rhs =>
    match (NumberText.read? probability : Option α) with
    | none =>
      .error ⟨.invalidProbability (String.ofList probability), file, c.line⟩
    | some p =>
      match namedRule g.alphabet lhs rhs p with
      | .error e => .error ⟨.symbol e, file, c.line⟩
      | .ok r => (g.addRule r).mapError (·.located file c.line)
  | _ => .error ⟨.invalidRule (String.ofList c.text), file, c.line⟩

/-- Adds the rules that the next lines state. -/
def addStatements [NumberText α] (file : Option String) :
    Nat → Grammar α → List Content → Except (GrammarError α) (Grammar α)
  | 0, g, _ => .ok g
  | n + 1, g, rest => do
    let (c, rest) := nextContent rest
    let g ← addStatement file g c
    addStatements file n g rest

/-- Reads a grammar from its lines. -/
def ofLabelLines [NumberText α] (rows : List String) (file : Option String) :
    Except (GrammarError α) (Grammar α) := do
  let (symbols, rest) ← takeNumber file "symbols" (contents 1 rows)
  let (al, rest) ← addDefinitions file symbols.toNat .initial rest
  let (rules, rest) ← takeNumber file "rules" rest
  addStatements file rules.toNat (empty al) rest

end StochasticGrammar.Grammar
