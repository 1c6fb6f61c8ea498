import StochasticGrammar.Parse.Cyk.Chart
import StochasticGrammar.Parse.Derivations

/-!
# Parsing in Chomsky normal form

The entries of the start symbol in the cell of the whole input are the
derivations, and their trees are read off the chart. The empty input has no
chart; its derivations are the rules from the start symbol to the empty string
symbol, and their nodes get fresh numbers.
-/

namespace StochasticGrammar.Cyk

variable {α : Type}

/-- A finished parse. -/
structure Parse (α : Type) where
  /-- The grammar. -/
  grammar : Grammar α
  /-- The terminals that were parsed. -/
  input : List SymbolId
  /-- The cells of all spans. -/
  chart : Chart

namespace Parse

/-- Parses an input that has been checked. -/
def ofChecked (g : Grammar α) (input : List SymbolId) : Parse α :=
  ⟨g, input, .make g input⟩

/-- Parses an input. -/
def make (g : Grammar α) (input : List SymbolId) :
    Except ParseError (Parse α) :=
  match Parse.inputFault? g.alphabet 0 input with
  | some e => .error e
  | none => .ok (ofChecked g input)

/-- The positions of the start symbol in the cell of the whole input. -/
def roots (p : Parse α) : List Nat :=
  match p.chart.cell? (p.input.length - 1) 0 with
  | some cell => cell.positions startId
  | none => []

/-- The tree of the entry at a position of the cell of a span. -/
def buildAt (c : Chart) (stop start pos : Nat) : Option ParseTree := do
  let cell ← c.cell? stop start
  let e ← cell.entries[pos]?
  let id : Int := cell.firstId + pos
  match e.source with
  | .terminal => some (.leafOf ⟨.cyk, id, none, e.symbol⟩)
  | .single left rule =>
    let below ← cell.entries[left]?
    some (.node ⟨.cyk, id, some rule, e.symbol⟩
      [.leafOf ⟨.cyk, cell.firstId + left, none, below.symbol⟩])
  | .pair split left right rule =>
    if start ≤ split ∧ split < stop then
      let first ← buildAt c split start left
      let second ← buildAt c stop (split + 1) right
      some (.node ⟨.cyk, id, some rule, e.symbol⟩ [first, second])
    else none
termination_by stop - start

/-- The tree of the empty input for a rule, with two fresh numbers. -/
def emptyTree (rule : Nat) : Drawing ParseTree := do
  let root ← Drawing.fresh
  let leaf ← Drawing.fresh
  return .node ⟨.cyk, root, some rule, startId⟩
    [.leafOf ⟨.cyk, leaf, none, emptyId⟩]

/-- The derivations of the empty input. -/
def emptyDerivations (p : Parse α) : Derivations α where
  grammar := p.grammar
  input := p.input
  count := (startRulesTo p.grammar emptyId).length
  firstFresh := 0
  build ix :=
    match (startRulesTo p.grammar emptyId)[ix]? with
    | some rule => emptyTree rule
    | none => throw (.refused (.noSuchTree ix 0))

/-- The derivations of an input with terminals. -/
def chartDerivations (p : Parse α) : Derivations α where
  grammar := p.grammar
  input := p.input
  count := p.roots.length
  firstFresh := p.chart.nextId
  build ix :=
    match p.roots[ix]?.bind (buildAt p.chart (p.input.length - 1) 0) with
    | some t => return t
    | none => throw (.refused (.noSuchTree ix p.roots.length))

/-- The derivations that were found. -/
def derivations (p : Parse α) : Derivations α :=
  if p.input.isEmpty then p.emptyDerivations else p.chartDerivations

/-- What the parser has to tell. -/
def records (p : Parse α) : List LogRecord :=
  [Parse.summary "CYK_Parser" p.input.length p.derivations.count]

/-- The cell of a span; positions may be counted from the end. -/
def cell? (p : Parse α) (stop start : Int) : Option Cell := do
  let stop ← signedPosition? p.input.length stop
  let start ← signedPosition? (stop + 1) start
  p.chart.cell? stop start

end Parse

/-! ## Texts -/

/-- The parts of an entry as numbers, with -1 for those it lacks: the split
point, the positions of the children, the rule. -/
def Source.numbers : Source → Int × Int × Int × Int
  | .terminal => (-1, -1, -1, -1)
  | .single left rule => (-1, left, -1, rule)
  | .pair split left right rule => (split, left, right, rule)

/-- An entry with a number as it is shown for inspection. -/
def CellEntry.tag (e : CellEntry) (id : Nat) : String :=
  let (split, left, right, rule) := e.source.numbers
  "<" ++ Text.natText id ++ ": " ++ Text.intText e.symbol ++ " k=" ++
    Text.intText split ++ " (" ++ Text.intText left ++ ", " ++
    Text.intText right ++ ") r=" ++ Text.intText rule ++ ">"

end StochasticGrammar.Cyk
