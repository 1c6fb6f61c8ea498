import StochasticGrammar.Grammar.Rule

/-!
# Grammars

A grammar is an alphabet and a list of rules over it. The position of a rule in
the list is its number, by which charts and trees refer to it.

Main results: a rule is accepted exactly if its symbols exist and its left side
is not a terminal (`addRule_eq_ok_iff`).
-/

namespace StochasticGrammar

/-! ## Errors -/

/-- What is wrong with a grammar or with its text. -/
inductive GrammarError.Cause (α : Type) where
  /-- A rule has a symbol that the alphabet lacks. -/
  | unknownSymbol (rule : Rule α) (id : SymbolId)
  /-- The left side of a rule is a terminal. -/
  | terminalHead (rule : Rule α) (label : String)
  /-- The text ends where a count is due. -/
  | unexpectedEnd
  /-- A line that should hold a count does not. -/
  | expectedCount
  /-- A count is negative or exceeds the number of lines left. -/
  | invalidCount (count : Int)
  /-- A symbol could not be added or found. -/
  | symbol (error : SymbolError)
  /-- A line does not have the form of a rule. -/
  | invalidRule (line : String)
  /-- The text ends where the number of something is due. -/
  | missingNumber (what : String)
  /-- A line that should hold the number of something does not. -/
  | expectedNumber (what : String)
  /-- A line does not have the form of a symbol definition. -/
  | invalidSymbolDefinition (line : String)
  /-- A probability cannot be read. -/
  | invalidProbability (text : String)
  /-- The file cannot be read. -/
  | unreadable

/-- An error in a grammar, with the file and the line it was found in as far as
they are known; line 0 stands for no line. -/
structure GrammarError (α : Type) where
  /-- What is wrong. -/
  cause : GrammarError.Cause α
  /-- The file. -/
  file : Option String := none
  /-- The line, counted from 1. -/
  line : Nat := 0

/-- The text of an error without its position. -/
def GrammarError.Cause.message {α : Type} [NumberText α] :
    GrammarError.Cause α → String
  | .unknownSymbol rule id =>
    "Rule " ++ rule.idText ++ " refers to unknown symbol id " ++
      Text.intText id
  | .terminalHead rule label =>
    "Rule " ++ rule.idText ++ " has terminal '" ++ label ++
      "' as its left hand side"
  | .unexpectedEnd => "Unexpected end of grammar"
  | .expectedCount => "Expected a count"
  | .invalidCount count => "Invalid count " ++ Text.intText count
  | .symbol error => error.message
  | .invalidRule line => "Invalid rule '" ++ line ++ "'"
  | .missingNumber what => "Missing number of " ++ what
  | .expectedNumber what => "Expected number of " ++ what
  | .invalidSymbolDefinition line =>
    "Invalid symbol definition '" ++ line ++ "'"
  | .invalidProbability text => "Invalid probability '" ++ text ++ "'"
  | .unreadable => "Unable to open or read grammar file"

/-- A message after the file and line it belongs to. -/
def positioned (file : Option String) (line : Nat) (message : String) :
    String :=
  let atLine :=
    if line = 0 then message
    else "Line " ++ Text.natText line ++ ": " ++ message
  match file.filter (!·.isEmpty) with
  | some name => name ++ " - " ++ atLine
  | none => atLine

/-- The text of an error with its position. -/
def GrammarError.message {α : Type} [NumberText α] (e : GrammarError α) :
    String :=
  positioned e.file e.line e.cause.message

/-- Fills in the position of an error as far as it is missing. -/
def GrammarError.located {α : Type} (e : GrammarError α)
    (file : Option String) (line : Nat) : GrammarError α where
  cause := e.cause
  file := e.file.or file
  line := if e.line = 0 then line else e.line

/-! ## The grammar -/

/-- An alphabet with a list of rules over it. -/
structure Grammar (α : Type) where
  /-- The symbols. -/
  alphabet : Alphabet
  /-- The rules, by number. -/
  rules : List (Rule α)

namespace Grammar

variable {α : Type}

/-- The grammar over an alphabet that has no rules. -/
def empty (al : Alphabet) : Grammar α := ⟨al, []⟩

/-- What keeps a rule out of a grammar, if anything does. -/
def ruleFault? (al : Alphabet) (r : Rule α) : Option (GrammarError.Cause α) :=
  match (r.lhs :: r.rhs).find? (!al.hasId ·) with
  | some id => some (.unknownSymbol r id)
  | none =>
    match al.terminals.find? (·.id == r.lhs) with
    | some s => some (.terminalHead r s.label)
    | none => none

/-- Adds a rule at the end. -/
def addRule (g : Grammar α) (r : Rule α) :
    Except (GrammarError α) (Grammar α) :=
  match ruleFault? g.alphabet r with
  | some cause => .error ⟨cause, none, 0⟩
  | none => .ok ⟨g.alphabet, g.rules ++ [r]⟩

/-- The rule with a number; numbers may be counted from the end. -/
def rule? (g : Grammar α) (ix : Int) : Option (Rule α) := atSigned? g.rules ix

/-- The rules of a nonterminal, with their numbers. -/
def rulesFor (g : Grammar α) (lhs : SymbolId) : List (Nat × Rule α) :=
  (g.rules.zipIdx.filter (·.1.lhs == lhs)).map fun (r, ix) => (ix, r)

/-- The grammar with `A → ε` for every rule from `A` to the empty string
symbol alone. -/
def withoutEmptySymbol (g : Grammar α) : Grammar α :=
  ⟨g.alphabet, g.rules.map Rule.withoutLoneEmpty⟩

/-! ### Properness -/

/-- The sum of the probabilities of the rules of a symbol, in the order of the
rules. -/
def totalFor [Zero α] [Add α] (rules : List (Rule α)) (lhs : SymbolId) : α :=
  (rules.filter (·.lhs == lhs)).foldl (fun total r => total + r.probability) 0

/-- Whether the rule probabilities of every left side add up to one, up to a
tolerance. -/
def isProper [Zero α] [One α] [Add α] [Sub α] [LE α] [DecidableLE α]
    (g : Grammar α) (tolerance : α) : Bool :=
  g.rules.all fun r =>
    let total := totalFor g.rules r.lhs
    decide (total - 1 ≤ tolerance) && decide (1 - total ≤ tolerance)

/-- The tolerance that properness is checked with by default. -/
def defaultTolerance : Float := 1e-9

/-! ### Texts -/

/-- A rule with the labels of its symbols. -/
def ruleText [NumberText α] (al : Alphabet) (r : Rule α) :
    Except SymbolError String := do
  let lhs ← al.label r.lhs
  let rhs ← al.formatString r.rhs
  return lhs ++ " -> " ++ rhs ++ " (pr = " ++ numberText r.probability ++ ")"

/-- A listing of the rules for people, sorted by the order of characters. -/
def rulesText [NumberText α] (g : Grammar α) : Except SymbolError String := do
  let rows ← g.rules.mapM fun r => ruleText g.alphabet r
  return String.join
    ((rows.map (· ++ "\n")).mergeSort fun s t => decide (s ≤ t))

/-! ### Acceptance of rules -/

/-- A rule is accepted exactly if nothing speaks against it, and then it
becomes the last rule. -/
theorem addRule_eq_ok_iff {g h : Grammar α} {r : Rule α} :
    g.addRule r = .ok h ↔
      ruleFault? g.alphabet r = none ∧ h = ⟨g.alphabet, g.rules ++ [r]⟩ := by
  unfold addRule
  cases hFault : ruleFault? g.alphabet r with
  | some cause => simp
  | none => simp [eq_comm]

/-- Adding rules does not change the alphabet. -/
theorem alphabet_of_addRule {g h : Grammar α} {r : Rule α}
    (hAdd : g.addRule r = .ok h) : h.alphabet = g.alphabet := by
  rw [(addRule_eq_ok_iff.1 hAdd).2]

end Grammar

end StochasticGrammar
