import StochasticGrammar.Alphabet.Listing
import StochasticGrammar.Grammar.Basic
import StochasticGrammar.Text.LineBreak

/-!
# The format with symbol numbers

This format is for programs. It has three blocks, each a line with a count and
as many lines: the nonterminals, the terminals, and the rules as a probability
followed by the numbers of the symbols of both sides.

Every line of a block is counted before it is read, so a count that exceeds
the lines left is an error of the count. What follows the last block is
ignored.
-/

namespace StochasticGrammar.Grammar

variable {α : Type} [NumberText α]

/-! ## Writing -/

/-- The line of a rule. -/
def ruleLine (r : Rule α) : String :=
  " ".intercalate (numberText r.probability :: Text.intText r.lhs ::
    r.rhs.map Text.intText)

/-- A count with the lines it counts. -/
def block (rows : List String) : List String :=
  Text.natText rows.length :: rows

/-- The lines of a grammar. -/
def idLines (g : Grammar α) : List String :=
  block (g.alphabet.symbolLines .nonterminal) ++
    block (g.alphabet.symbolLines .terminal) ++ block (g.rules.map ruleLine)

/-- The grammar as a text. -/
def toIdText (g : Grammar α) : String := "\n".intercalate g.idLines ++ "\n"

/-! ## Reading -/

/-- The lines that have not been read, and how many were. -/
structure Reader where
  /-- The lines left. -/
  rest : List String
  /-- How many lines were read. -/
  consumed : Nat

/-- Reads a count and takes that many lines. -/
def takeBlock (file : Option String) (rd : Reader) :
    Except (GrammarError α) (List String × Reader) :=
  match rd.rest with
  | [] => .error ⟨.unexpectedEnd, file, rd.consumed⟩
  | line :: rest =>
    match Text.readInt? (Text.trim line.toList) with
    | none => .error ⟨.expectedCount, file, rd.consumed + 1⟩
    | some count =>
      if count < 0 ∨ (rest.length : Int) < count then
        .error ⟨.invalidCount count, file, rd.consumed + 1⟩
      else
        let n := count.toNat
        .ok (rest.take n, ⟨rest.drop n, rd.consumed + 1 + n⟩)

/-- Reads a rule line: a probability and the numbers of the symbols. -/
def readRule? (line : String) : Option (Rule α) :=
  match Text.words line.toList with
  | probability :: lhs :: rhs => do
    let lhs ← Text.readInt? lhs
    let rhs ← rhs.mapM Text.readInt?
    let p ← NumberText.read? probability
    some ⟨lhs, rhs, p⟩
  | _ => none

/-- Adds the rules of a list of lines; `line` is the number of the first. -/
def addRuleLines (file : Option String) (g : Grammar α) (line : Nat) :
    List String → Except (GrammarError α) (Grammar α)
  | [] => .ok g
  | row :: rest =>
    match readRule? row with
    | none => .error ⟨.invalidRule row, file, line⟩
    | some r =>
      match g.addRule r with
      | .error e => .error (e.located file line)
      | .ok extended => addRuleLines file extended (line + 1) rest

/-- Reads a grammar from its lines. -/
def ofIdLines (rows : List String) (file : Option String) :
    Except (GrammarError α) (Grammar α) := do
  let (nonterminals, rd) ← takeBlock file ⟨rows, 0⟩
  let (terminals, rd) ← takeBlock file rd
  match Alphabet.ofLines nonterminals terminals with
  | .error e => .error ⟨.symbol e, file, 0⟩
  | .ok al =>
    let (rules, _) ← takeBlock file rd
    addRuleLines file (empty al) (rd.consumed + 2) rules

/-- Reads a grammar from a text. -/
def ofIdText (text : String) (file : Option String) :
    Except (GrammarError α) (Grammar α) :=
  ofIdLines ((Text.lines text.toList).map String.ofList) file

end StochasticGrammar.Grammar
