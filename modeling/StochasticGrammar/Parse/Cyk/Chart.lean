import StochasticGrammar.Parse.Input

/-!
# The Cocke-Younger-Kasami chart

The chart has a cell for every span of the input. A cell holds one entry per
derivation of its span: the terminal itself on the diagonal, and on longer
spans a rule with a split point and the positions of its two children in their
cells. Several entries of a cell may have the same symbol; each is a
derivation of its own.

Cells are filled in the order of their length and, for one length, from left to
right. Entries are numbered in the order in which they are added, so a cell
has to remember only the number of its first entry.

Rules with two symbols on the right are used on spans of two and more
terminals. A single terminal is derived from the start symbol by the rules
from the start symbol to this terminal; these join the terminal in its cell.
-/

namespace StochasticGrammar.Cyk

/-- How an entry derives its span. -/
inductive Source where
  /-- The span is a terminal. -/
  | terminal
  /-- A rule to the entry at a position of the same cell. -/
  | single (left rule : Nat)
  /-- A rule to two entries: the left one spans up to the split point, the
  right one the rest. -/
  | pair (split left right rule : Nat)
  deriving DecidableEq, Repr

/-- An entry of a cell. -/
structure CellEntry where
  /-- The symbol that derives the span. -/
  symbol : SymbolId
  /-- How it does. -/
  source : Source
  deriving DecidableEq, Repr

/-- The entries of a span. -/
structure Cell where
  /-- The number of the first entry. -/
  firstId : Nat
  /-- The entries, by position. -/
  entries : Array CellEntry
  deriving Repr

instance : Inhabited Cell := ⟨⟨0, #[]⟩⟩

/-- The number after those of the entries. -/
def Cell.nextId (cell : Cell) : Nat := cell.firstId + cell.entries.size

/-- The positions of the entries of a symbol. -/
def Cell.positions (cell : Cell) (symbol : SymbolId) : List Nat :=
  (List.range cell.entries.size).filter fun pos =>
    (cell.entries[pos]?.map (·.symbol)) == some symbol

/-- A rule with two symbols on the right. -/
structure BinaryRule where
  /-- The number of the rule. -/
  rule : Nat
  /-- The left side. -/
  lhs : SymbolId
  /-- The first symbol on the right. -/
  first : SymbolId
  /-- The second symbol on the right. -/
  second : SymbolId
  deriving DecidableEq, Repr

/-- The rules with two symbols on the right. -/
def binaryRules {α : Type} (g : Grammar α) : List BinaryRule :=
  g.rules.zipIdx.filterMap fun (r, ix) =>
    match r.rhs with
    | [first, second] => some ⟨ix, r.lhs, first, second⟩
    | _ => none

/-- The rules from the start symbol to one given symbol. -/
def startRulesTo {α : Type} (g : Grammar α) (symbol : SymbolId) : List Nat :=
  (g.rules.zipIdx.filter fun (r, _) =>
    r.lhs == startId && r.rhs == [symbol]).map (·.2)

/-- The cells of the spans of one length, from left to right. -/
abbrev Row := Array Cell

/-- The cells of the spans filled so far: row `d` has the spans of `d + 1`
terminals. -/
abbrev Chart := Array Row

/-- The cell of the span from `start` to `stop`, both included. -/
def Chart.cell? (chart : Chart) (stop start : Nat) : Option Cell :=
  if start ≤ stop then chart[stop - start]?.bind (·[start]?) else none

/-- What a split point contributes to the span from `start` to `stop`: an entry
for each rule and each pair of matching children. -/
def splitEntries (rules : List BinaryRule) (c : Chart)
    (stop start split : Nat) : List CellEntry :=
  match c.cell? split start, c.cell? stop (split + 1) with
  | some left, some right =>
    rules.flatMap fun r =>
      (left.positions r.first).flatMap fun l =>
        (right.positions r.second).map fun k =>
          ⟨r.lhs, .pair split l k r.rule⟩
  | _, _ => []

/-- The entries of the span from `start` to `stop`, split point by split
point. -/
def spanEntries (rules : List BinaryRule) (c : Chart) (stop start : Nat) :
    List CellEntry :=
  (List.range (stop - start)).flatMap fun d =>
    splitEntries rules c stop start (start + d)

/-- Numbers the entries of cells from a number on. -/
def numbered (firstId : Nat) : List (List CellEntry) → List Cell
  | [] => []
  | entries :: rest =>
    ⟨firstId, entries.toArray⟩ :: numbered (firstId + entries.length) rest

/-- The number after those of all entries. -/
def Chart.nextId (c : Chart) : Nat :=
  ((c.back?.bind (·.back?)).map Cell.nextId).getD 0

/-- The chart with the row of the spans of `d + 1` terminals added, for an
input of `n` terminals. -/
def Chart.addRow (rules : List BinaryRule) (n : Nat) (c : Chart) (d : Nat) :
    Chart :=
  c.push (numbered c.nextId ((List.range (n - d)).map fun start =>
    spanEntries rules c (start + d) start)).toArray

/-- The diagonal of the chart: a cell for each terminal. -/
def diagonal (input : List SymbolId) : Row :=
  (numbered 0 (input.map fun t => [⟨t, .terminal⟩])).toArray

/-- The cell of an input that is a single terminal. -/
def loneCell {α : Type} (g : Grammar α) (terminal : SymbolId) : Cell :=
  ⟨0, (⟨terminal, .terminal⟩ :: (startRulesTo g terminal).map fun rule =>
    ⟨startId, .single 0 rule⟩ : List CellEntry).toArray⟩

/-- The filled chart of an input. -/
def Chart.make {α : Type} (g : Grammar α) : List SymbolId → Chart
  | [] => #[]
  | [terminal] => #[#[loneCell g terminal]]
  | input =>
    let rules := binaryRules g
    (List.range (input.length - 1)).foldl
      (fun c d => c.addRow rules input.length (d + 1)) #[diagonal input]

end StochasticGrammar.Cyk
