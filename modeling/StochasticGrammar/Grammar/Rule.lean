import StochasticGrammar.Alphabet.Basic
import StochasticGrammar.Decimal.Reading
import StochasticGrammar.Decimal.Shortest

/-!
# Rules

A rule replaces a nonterminal by a sequence of symbols and has a
probability. The type of probabilities is a parameter: programs run on
floating-point numbers, and exact statements are about other numbers.

Rules are compared by their two sides; the probability plays no part.
-/

namespace StochasticGrammar

/-- A rule `lhs → rhs` with its probability. -/
structure Rule (α : Type) where
  /-- The symbol that is replaced. -/
  lhs : SymbolId
  /-- What replaces it. -/
  rhs : List SymbolId
  /-- The probability of the rule. -/
  probability : α
  deriving DecidableEq, Repr

/-- Numbers that can be read and written. -/
class NumberText (α : Type) where
  /-- Reads a number. -/
  read? : List Char → Option α
  /-- Writes a number. -/
  write : α → List Char

instance : NumberText Float where
  read? := Decimal.readFloat?
  write := Decimal.floatText

/-- The text of a number. -/
def numberText {α : Type} [NumberText α] (x : α) : String :=
  String.ofList (NumberText.write x)

namespace Rule

variable {α : Type}

/-- The two sides of a rule. -/
def sides (r : Rule α) : SymbolId × List SymbolId := (r.lhs, r.rhs)

/-- Whether two rules have the same sides. -/
def sameSides (r s : Rule α) : Bool := r.sides == s.sides

/-- The rule with another probability. -/
def withProbability (r : Rule α) (p : α) : Rule α := { r with probability := p }

/-- The numbers of the symbols on the right, as text. -/
def idsText (ids : List SymbolId) : String :=
  " ".intercalate (ids.map Text.intText)

/-- A rule as it is shown in error texts, by the numbers of its symbols. -/
def idText [NumberText α] (r : Rule α) : String :=
  Text.intText r.lhs ++ " -> " ++ idsText r.rhs ++ " (" ++
    numberText r.probability ++ ")"

/-- A rule whose right side is the empty string symbol gets an empty right
side. -/
def withoutLoneEmpty (r : Rule α) : Rule α :=
  if r.rhs = [emptyId] then { r with rhs := [] } else r

/-- A rule without the empty string symbol anywhere on its right side. -/
def withoutEmpty (r : Rule α) : Rule α :=
  { r with rhs := r.rhs.filter (· != emptyId) }

end Rule

end StochasticGrammar
