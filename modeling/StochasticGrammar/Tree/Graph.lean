import StochasticGrammar.Tree.Listing

/-!
# Trees in the DOT language

A tree is drawn as a graph whose inner nodes are numbered by their entries.
The terminals are the fields of one record node, in order, so that the parsed
text reads from left to right under the tree; an edge to a terminal leads to
its field.
-/

namespace StochasticGrammar

/-- The parts of a graph, in the order in which they are written. -/
structure Graph where
  /-- The fields of the record of terminals. -/
  fields : List String
  /-- The lines of the inner nodes. -/
  nodes : List String
  /-- The lines of the edges. -/
  edges : List String

namespace Graph

/-- The graph without nodes. -/
def empty : Graph := ⟨[], [], []⟩

/-- Two graphs after each other. -/
def append (g h : Graph) : Graph :=
  ⟨g.fields ++ h.fields, g.nodes ++ h.nodes, g.edges ++ h.edges⟩

/-- A text in quotes, with a backslash before every quote inside. -/
def quote (s : String) : String :=
  "\"" ++ String.ofList (s.toList.flatMap fun c =>
    if c = '"' then ['\\', '"'] else [c]) ++ "\""

/-- The text of a graph. -/
def text (name : String) (g : Graph) : String :=
  let record :=
    "  str [shape=record width=" ++ Text.natText g.fields.length ++
      ", label=" ++ quote (" | ".intercalate g.fields) ++ "];"
  "\n".intercalate
    (("digraph " ++ name ++ " \x7b") :: record :: g.nodes ++ g.edges ++
      ["\x7d"]) ++ "\n"

end Graph

namespace ParseTree

/-- The field of a terminal: its number, its label and its description. -/
def graphField (al : Alphabet) (e : Entry) : Except TreeError String := do
  let s ← (al.symbol e.symbol).mapError .symbol
  let description :=
    match s.description.filter (!·.isEmpty) with
    | some d => "\\n" ++ d
    | none => ""
  return "<" ++ Text.intText e.id ++ "> " ++ s.label ++ description

/-- The edge from a node to one of its children. -/
def graphEdge (parent : Entry) (child : ParseTree) : String :=
  let record := if child.isTerminalLeaf then "str:" else ""
  "  " ++ Graph.quote (Text.intText parent.id) ++ " -> " ++ record ++
    Graph.quote (Text.intText child.entry.id) ++ ";"

mutual

/-- The graph of a tree: the nodes of the tree from the top down, and the edges
of a node after those below it. -/
def graph {α : Type} [NumberText α] (g : Grammar α) :
    ParseTree → Except TreeError Graph
  | node e ts => do
    if (node e ts).isTerminalLeaf then
      let field ← graphField g.alphabet e
      return ⟨[field], [], []⟩
    else
      let label ← labelOf g.alphabet e.symbol
      let suffix ← ruleSuffix g e
      let line := "  " ++ Graph.quote (Text.intText e.id) ++ "[label=" ++
        Graph.quote (label ++ suffix) ++ "];"
      let below ← graphList g ts
      return ⟨below.fields, line :: below.nodes,
        below.edges ++ ts.map (graphEdge e)⟩

/-- The graphs of a row of trees after each other. -/
def graphList {α : Type} [NumberText α] (g : Grammar α) :
    List ParseTree → Except TreeError Graph
  | [] => return .empty
  | t :: ts => do
    let first ← graph g t
    let rest ← graphList g ts
    return first.append rest

end

/-- The text of a tree in the DOT language. -/
def dotText {α : Type} [NumberText α] (g : Grammar α) (name : String)
    (t : ParseTree) : Except TreeError String :=
  (t.graph g).map (·.text name)

end ParseTree

end StochasticGrammar
