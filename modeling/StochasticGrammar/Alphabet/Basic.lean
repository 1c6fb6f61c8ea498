import StochasticGrammar.SignedIndex
import StochasticGrammar.Text.Digit

/-!
# Alphabets

An alphabet is the symbol table of a grammar. Every symbol has a number that is
never reused, a category, a label and perhaps a description. Two symbols are
always there: the start symbol, a nonterminal, and the empty string symbol, a
terminal.

Within its category a symbol has a rank, its position among the symbols of the
category. The alphabet is therefore kept as two rows, one per category, and the
rank is the position in the row: the two cannot disagree.

Main results: adding a symbol appends it to the row of its category and leaves
the other row alone (`row_push`, `row_push_of_ne`), and it succeeds exactly on
a new label and a new number (`insert_eq_ok_iff`).
-/

namespace StochasticGrammar

/-- The number by which rules refer to a symbol. -/
abbrev SymbolId := Int

/-- The two kinds of symbols. -/
inductive Category where
  | nonterminal
  | terminal
  deriving DecidableEq, Repr

/-- A symbol, apart from its category and rank. -/
structure Symbol where
  /-- The number of the symbol. -/
  id : SymbolId
  /-- The name of the symbol in texts. -/
  label : String
  /-- What the symbol stands for. -/
  description : Option String
  deriving DecidableEq, Repr

/-- A symbol as it is shown for inspection. -/
def Symbol.tag (s : Symbol) : String :=
  "<" ++ Text.intText s.id ++ ":" ++ s.label ++ ">"

/-- The start symbol. -/
def startId : SymbolId := 0

/-- The empty string symbol. -/
def emptyId : SymbolId := 1

/-- The label of the start symbol. -/
def startLabel : String := "S"

/-- The label of the empty string symbol. -/
def emptyLabel : String := "e"

/-! ## Errors -/

/-- Why a symbol could not be added or found. -/
inductive SymbolError where
  /-- Another symbol has the label. -/
  | duplicateLabel (label : String)
  /-- Another symbol has the number. -/
  | duplicateId (id : SymbolId) (label : String)
  /-- The label is empty or has a blank in it. -/
  | invalidLabel (label : String)
  /-- No symbol has the label. -/
  | unknownLabel (label : String)
  /-- No symbol has the number. -/
  | unknownId (id : SymbolId)
  /-- A symbol line lacks a field. -/
  | invalidLine (line : String)
  /-- A symbol line does not start with a number. -/
  | invalidLineId (line : String)
  /-- A symbol that every alphabet has is missing or of the wrong category. -/
  | missingReserved (label : String) (id : SymbolId)
  deriving DecidableEq, Repr

/-- The text of an error. -/
def SymbolError.message : SymbolError → String
  | .duplicateLabel label => "Symbol '" ++ label ++ "' already exists"
  | .duplicateId id _ => "Symbol id " ++ Text.intText id ++ " already in use"
  | .invalidLabel label => "Invalid symbol label '" ++ label ++ "'"
  | .unknownLabel label => "Unknown symbol '" ++ label ++ "'"
  | .unknownId id => "Unknown symbol id " ++ Text.intText id
  | .invalidLine line => "Invalid symbol line '" ++ line ++ "'"
  | .invalidLineId line => "Invalid symbol id in line '" ++ line ++ "'"
  | .missingReserved label id =>
    "Reserved symbol " ++ label ++ " (id " ++ Text.intText id ++ ") is missing"

/-- The label that an error is about, if it is about one. -/
def SymbolError.label? : SymbolError → Option String
  | .duplicateLabel label | .duplicateId _ label | .invalidLabel label
  | .unknownLabel label | .missingReserved label _ => some label
  | .unknownId _ | .invalidLine _ | .invalidLineId _ => none

/-! ## The symbol table -/

/-- A symbol table: the symbols of each category by rank, and a bound on the
numbers in use. -/
structure Alphabet where
  /-- The nonterminals, by rank. -/
  nonterminals : List Symbol
  /-- The terminals, by rank. -/
  terminals : List Symbol
  /-- The number that the next symbol gets. -/
  nextId : SymbolId
  deriving DecidableEq, Repr

namespace Alphabet

/-- The symbols of a category, by rank. -/
def row (al : Alphabet) : Category → List Symbol
  | .nonterminal => al.nonterminals
  | .terminal => al.terminals

/-- All symbols, nonterminals first. -/
def symbols (al : Alphabet) : List Symbol := al.nonterminals ++ al.terminals

/-- How many symbols there are. -/
def size (al : Alphabet) : Nat := al.symbols.length

/-- The table without any symbol. -/
def empty : Alphabet := ⟨[], [], 0⟩

/-! ### Looking up -/

/-- The symbol with a number. -/
def find? (al : Alphabet) (id : SymbolId) : Option Symbol :=
  al.symbols.find? (·.id == id)

/-- The symbol with a label. -/
def findLabel? (al : Alphabet) (label : String) : Option Symbol :=
  al.symbols.find? (·.label == label)

/-- Whether some symbol has the number. -/
def hasId (al : Alphabet) (id : SymbolId) : Bool := (al.find? id).isSome

/-- Whether some symbol has the label. -/
def hasLabel (al : Alphabet) (label : String) : Bool :=
  (al.findLabel? label).isSome

/-- The symbol with a number, or an error. -/
def symbol (al : Alphabet) (id : SymbolId) : Except SymbolError Symbol :=
  match al.find? id with
  | some s => .ok s
  | none => .error (.unknownId id)

/-- The number of the symbol with a label, or an error. -/
def idOfLabel (al : Alphabet) (label : String) :
    Except SymbolError SymbolId :=
  match al.findLabel? label with
  | some s => .ok s.id
  | none => .error (.unknownLabel label)

/-- The label of a symbol, or an error. -/
def label (al : Alphabet) (id : SymbolId) : Except SymbolError String :=
  (al.symbol id).map (·.label)

/-- Whether a number belongs to a terminal. -/
def isTerminal (al : Alphabet) (id : SymbolId) : Bool :=
  al.terminals.any (·.id == id)

/-- Whether a number belongs to a nonterminal. -/
def isNonterminal (al : Alphabet) (id : SymbolId) : Bool :=
  al.nonterminals.any (·.id == id)

/-- The position of a symbol within the row of its category. -/
def rank? (al : Alphabet) (id : SymbolId) : Option Nat :=
  match al.nonterminals.findIdx? (·.id == id) with
  | some i => some i
  | none => al.terminals.findIdx? (·.id == id)

/-- The number of the symbol with a rank; ranks may be counted from the end. -/
def idOfRank? (al : Alphabet) (c : Category) (rank : Int) : Option SymbolId :=
  (atSigned? (al.row c) rank).map (·.id)

/-- The numbers of the symbols of a category, by rank. -/
def ids (al : Alphabet) (c : Category) : List SymbolId :=
  (al.row c).map (·.id)

/-! ### Adding symbols -/

/-- The table with one more symbol at the end of a row. -/
def push (al : Alphabet) (c : Category) (s : Symbol) : Alphabet :=
  let nextId := max al.nextId (s.id + 1)
  match c with
  | .nonterminal => ⟨al.nonterminals ++ [s], al.terminals, nextId⟩
  | .terminal => ⟨al.nonterminals, al.terminals ++ [s], nextId⟩

/-- Adds a symbol under a given number. -/
def insert (al : Alphabet) (c : Category) (s : Symbol) :
    Except SymbolError Alphabet :=
  if al.hasLabel s.label then .error (.duplicateLabel s.label)
  else if al.hasId s.id then .error (.duplicateId s.id s.label)
  else .ok (al.push c s)

/-- The alphabet that holds the two reserved symbols only. -/
def initial : Alphabet where
  nonterminals := [⟨startId, startLabel, some "start symbol"⟩]
  terminals := [⟨emptyId, emptyLabel, some "empty string"⟩]
  nextId := 2

/-- Whether a text can be a label: it is one word. -/
def isLabel (label : String) : Bool :=
  !label.toList.isEmpty && !label.toList.any Text.isBlank

/-- Adds a symbol under the next free number and returns that number. -/
def add (al : Alphabet) (c : Category) (label : String)
    (description : Option String) : Except SymbolError (SymbolId × Alphabet) :=
  if isLabel label then do
    let extended ← al.insert c ⟨al.nextId, label, description⟩
    return (al.nextId, extended)
  else .error (.invalidLabel label)

/-- The `j`-th label made from a base. -/
def numbered (base : String) (j : Nat) : String :=
  base ++ "_" ++ Text.natText j

/-- The first unused label among the numbered ones from `j` on, looking at no
more than `fuel + 1` of them. -/
def freshFrom (al : Alphabet) (base : String) (j : Nat) : Nat → String
  | 0 => numbered base j
  | fuel + 1 =>
    if al.hasLabel (numbered base j) then freshFrom al base (j + 1) fuel
    else numbered base j

/-- The first unused label of the form `base_1`, `base_2`, …: one of the first
`size + 1` is unused. -/
def freshLabel (al : Alphabet) (base : String) : String :=
  freshFrom al base 1 al.size

/-! ### Texts -/

/-- The symbols that the words of a text name. -/
def tokenize (al : Alphabet) (text : String) :
    Except SymbolError (List SymbolId) :=
  (Text.words text.toList).mapM fun w => al.idOfLabel (String.ofList w)

/-- The labels of a sequence of symbols, with spaces between them. -/
def formatString (al : Alphabet) (ids : List SymbolId) :
    Except SymbolError String := do
  let labels ← ids.mapM al.label
  return " ".intercalate labels

end Alphabet

/-! ## Adding keeps what is there -/

namespace Alphabet

/-- Adding a symbol appends it to the row of its category. -/
theorem row_push (al : Alphabet) (c : Category) (s : Symbol) :
    (al.push c s).row c = al.row c ++ [s] := by
  cases c <;> rfl

/-- Adding a symbol leaves the row of the other category as it was. -/
theorem row_push_of_ne (al : Alphabet) {c d : Category} (s : Symbol)
    (h : d ≠ c) : (al.push c s).row d = al.row d := by
  cases c <;> cases d <;> first | rfl | exact absurd rfl h

/-- Adding succeeds exactly on a new label and a new number. -/
theorem insert_eq_ok_iff {al extended : Alphabet} {c : Category} {s : Symbol} :
    al.insert c s = .ok extended ↔
      al.hasLabel s.label = false ∧ al.hasId s.id = false ∧
        extended = al.push c s := by
  unfold insert
  by_cases hLabel : al.hasLabel s.label = true
  · simp [hLabel]
  · by_cases hId : al.hasId s.id = true
    · simp [hLabel, hId]
    · simp [hLabel, hId, eq_comm]

end Alphabet

end StochasticGrammar
