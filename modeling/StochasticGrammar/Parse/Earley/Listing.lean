import StochasticGrammar.Parse.Earley.Basic

/-!
# Texts of an Earley chart

An item is shown with its number, its rule with a dot at the matched position,
its span and its back pointers. The states are shown one after another.
-/

namespace StochasticGrammar.Earley

variable {α : Type}

/-- An item as it is shown for inspection. -/
def Item.tag (e : Item) : String :=
  Text.natText e.state ++ ": (" ++ Text.natText e.rule ++ ", " ++
    Text.natText e.dot ++ ", " ++ Text.natText e.start ++ ") [" ++
    ", ".intercalate (e.back.map Text.natText) ++ "]"

/-- Labels with a space after each. -/
def spacedLabels (al : Alphabet) (ids : List SymbolId) :
    Except SymbolError String := do
  let labels ← ids.mapM al.label
  return String.join (labels.map (· ++ " "))

namespace Parse

/-- An item with the labels of its rule. -/
def itemText (p : Parse α) (e : Item) : Except SymbolError String := do
  let al := p.task.grammar.alphabet
  let rhs := p.task.rhs e.rule
  let head ← al.label (p.task.lhs e.rule)
  let before ← spacedLabels al (rhs.take e.dot)
  let after ← spacedLabels al (rhs.drop e.dot)
  return Text.natText e.id ++ ": " ++ head ++ " -> " ++ before ++ ". " ++
    after ++ "(" ++ Text.natText e.start ++ ", " ++ Text.natText e.state ++
    ") [ " ++ String.join (e.back.map fun b => Text.natText b ++ " ") ++ "]"

/-- The lines of a state. -/
def stateLines (p : Parse α) (onlyCompleted : Bool) (state : Nat) :
    Except SymbolError (List String) := do
  let items := (p.chart.stateItems state).filter fun e =>
    !onlyCompleted || (p.task.next? e).isNone
  let rows ← items.mapM p.itemText
  return ["Group " ++ Text.natText state, "================"] ++ rows ++ [""]

/-- All states, or the completed items of all states. -/
def statesText (p : Parse α) (onlyCompleted : Bool) :
    Except SymbolError String := do
  let rows ← (List.range p.chart.states.size).mapM (p.stateLines onlyCompleted)
  return "\n".intercalate rows.flatten ++ "\n"

end Parse

end StochasticGrammar.Earley
