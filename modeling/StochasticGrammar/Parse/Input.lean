import StochasticGrammar.Grammar.Basic
import StochasticGrammar.Log

/-!
# Inputs of a parser

Both parsers read a sequence of terminals. Before parsing, the sequence is
checked: the empty string symbol cannot occur in it, and every other symbol has
to be a terminal of the grammar. The first offence is reported with its
position.

Main results: a sequence passes exactly if it holds terminals other than the
empty string symbol only (`inputFault?_eq_none_iff`).
-/

namespace StochasticGrammar

/-- Why a parser refuses. -/
inductive ParseError where
  /-- The input holds the empty string symbol. -/
  | emptySymbol (position : Nat)
  /-- The input holds something that is no terminal. -/
  | notTerminal (id : SymbolId) (position : Nat)
  /-- There is no tree with the number. -/
  | noSuchTree (number : Int) (count : Nat)
  deriving DecidableEq, Repr

/-- The text of an error. -/
def ParseError.message : ParseError → String
  | .emptySymbol _ => "The empty string symbol cannot appear in the input"
  | .notTerminal id _ =>
    "Input symbol " ++ Text.intText id ++ " is not a terminal"
  | .noSuchTree number count =>
    "Tree index " ++ Text.intText number ++ " out of range; there are " ++
      Text.natText count ++ " trees"

/-- The position in the input that an error is about, if it is about one. -/
def ParseError.position? : ParseError → Option Nat
  | .emptySymbol position | .notTerminal _ position => some position
  | .noSuchTree _ _ => none

namespace Parse

/-- What is wrong with the symbol at a position of the input. -/
def symbolFault? (al : Alphabet) (position : Nat) (id : SymbolId) :
    Option ParseError :=
  if id = emptyId then some (.emptySymbol position)
  else if al.isTerminal id then none
  else some (.notTerminal id position)

/-- The first thing wrong with the input from a position on. -/
def inputFault? (al : Alphabet) (position : Nat) :
    List SymbolId → Option ParseError
  | [] => none
  | id :: rest =>
    (symbolFault? al position id).or (inputFault? al (position + 1) rest)

/-- The number of a tree as a position, if there are enough trees. -/
def treePosition (count : Nat) (number : Int) : Except ParseError Nat :=
  if 0 ≤ number ∧ number < count then .ok number.toNat
  else .error (.noSuchTree number count)

/-- What a parser has to tell when it is done. -/
def summary (parser : String) (length trees : Nat) : LogRecord :=
  ⟨.debug, parser ++ ": " ++ Text.natText length ++ " input symbols, " ++
    Text.natText trees ++ " trees"⟩

/-- The inputs that pass are the sequences of proper terminals. -/
theorem inputFault?_eq_none_iff (al : Alphabet) (position : Nat)
    (input : List SymbolId) :
    inputFault? al position input = none ↔
      ∀ id ∈ input, id ≠ emptyId ∧ al.isTerminal id = true := by
  induction input generalizing position with
  | nil => simp [inputFault?]
  | cons id rest ih =>
    have hHead : symbolFault? al position id = none ↔
        id ≠ emptyId ∧ al.isTerminal id = true := by
      unfold symbolFault?
      by_cases hEmpty : id = emptyId
      · simp [hEmpty]
      · by_cases hTerminal : al.isTerminal id = true <;>
          simp [hEmpty, hTerminal]
    simp [inputFault?, Option.or_eq_none_iff, hHead, ih]

end Parse

end StochasticGrammar
