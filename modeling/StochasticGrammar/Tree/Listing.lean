import StochasticGrammar.Tree.Weight

/-!
# Texts of trees

Three texts show a tree: its symbols in brackets, by number (`idText`) or by
label (`labelText`), and an indented outline with one node per line.
-/

namespace StochasticGrammar

/-- Why a tree cannot be shown: it refers to what the grammar lacks. -/
inductive TreeError where
  /-- A node has an unknown symbol. -/
  | symbol (error : SymbolError)
  /-- A node has an unknown rule. -/
  | rule (number : Int)
  deriving DecidableEq, Repr

namespace ParseTree

/-! ## Brackets -/

/-- A symbol, with what is below it in brackets. -/
def bracketed (head : String) (below : List String) : String :=
  if below.isEmpty then head
  else head ++ " [" ++ ", ".intercalate below ++ "]"

mutual

/-- The tree by the numbers of its symbols. -/
def idText : ParseTree → String
  | node e ts => bracketed (Text.intText e.symbol) (idTextList ts)

/-- A row of trees by the numbers of their symbols. -/
def idTextList : List ParseTree → List String
  | [] => []
  | t :: ts => idText t :: idTextList ts

end

/-- A tree as it is shown for inspection. -/
def tag (t : ParseTree) : String :=
  "<Node " ++ t.entry.kind.name ++ "/" ++ Text.intText t.entry.id ++ " " ++
    t.idText ++ ">"

mutual

/-- The tree by the labels of its symbols. -/
def labelText (al : Alphabet) : ParseTree → Except SymbolError String
  | node e ts => do
    let head ← al.label e.symbol
    let below ← labelTextList al ts
    return bracketed head below

/-- A row of trees by the labels of their symbols. -/
def labelTextList (al : Alphabet) :
    List ParseTree → Except SymbolError (List String)
  | [] => return []
  | t :: ts => do
    let first ← labelText al t
    let rest ← labelTextList al ts
    return first :: rest

end

/-! ## Outline -/

/-- The label of a symbol. -/
def labelOf (al : Alphabet) (id : SymbolId) : Except TreeError String :=
  (al.label id).mapError .symbol

/-- The probability of the rule of an entry in brackets; nothing for an entry
without a rule. -/
def ruleSuffix {α : Type} [NumberText α] (g : Grammar α) (e : Entry) :
    Except TreeError String :=
  match e.rule with
  | none => .ok ""
  | some ix =>
    match g.rule? ix with
    | some r => .ok (" [" ++ numberText r.probability ++ "]")
    | none => .error (.rule ix)

/-- What an outline shows beside the symbols. -/
structure OutlineStyle where
  /-- Show the probabilities of the rules. -/
  probabilities : Bool
  /-- Show the numbers of the entries. -/
  ids : Bool

/-- The line of a node at a depth. -/
def outlineLine {α : Type} [NumberText α] (g : Grammar α)
    (style : OutlineStyle) (level : Nat) (t : ParseTree) :
    Except TreeError String := do
  let label ← labelOf g.alphabet t.entry.symbol
  let shown := if t.isTerminalLeaf then "'" ++ label ++ "'" else label
  let id := if style.ids then " @ " ++ Text.intText t.entry.id else ""
  let probability ←
    if style.probabilities then ruleSuffix g t.entry else .ok ""
  return String.ofList (List.replicate (2 * level) ' ') ++ shown ++ id ++
    probability ++ "\n"

mutual

/-- The tree with one node per line, each indented by its depth. -/
def outline {α : Type} [NumberText α] (g : Grammar α) (style : OutlineStyle)
    (level : Nat) : ParseTree → Except TreeError String
  | node e ts => do
    let line ← outlineLine g style level (node e ts)
    let below ← outlineList g style (level + 1) ts
    return line ++ below

/-- A row of trees at one depth. -/
def outlineList {α : Type} [NumberText α] (g : Grammar α)
    (style : OutlineStyle) (level : Nat) :
    List ParseTree → Except TreeError String
  | [] => return ""
  | t :: ts => do
    let first ← outline g style level t
    let rest ← outlineList g style level ts
    return first ++ rest

end

end ParseTree

end StochasticGrammar
