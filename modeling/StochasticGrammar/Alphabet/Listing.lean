import StochasticGrammar.Alphabet.Basic

/-!
# Listings of an alphabet

An alphabet is written in two ways. `symbolsText` is for people. `symbolLines`
and `ofLines` are the part of the machine format that holds the symbols: one
line `id label description` per symbol, by rank, the description left out if
there is none.
-/

namespace StochasticGrammar.Alphabet

/-- The description of a symbol, unless it is empty. -/
def shownDescription (s : Symbol) : Option String :=
  s.description.filter (!·.isEmpty)

/-- Text moved to the right of a field of a given width. -/
def padLeft (width : Nat) (s : String) : String :=
  String.ofList (List.replicate (width - s.length) ' ') ++ s

/-- One row of the listing for people. -/
def symbolText (s : Symbol) : String :=
  "  " ++ padLeft 4 (Text.intText s.id) ++ " " ++ s.label ++
    (match shownDescription s with
    | some description => " (" ++ description ++ ")"
    | none => "")

/-- The listing of one category for people. -/
def categoryText (title : String) (symbols : List Symbol) : List String :=
  (title ++ " (" ++ Text.natText symbols.length ++ "):") ::
    symbols.map symbolText

/-- A listing of all symbols for people. -/
def symbolsText (al : Alphabet) : String :=
  "\n".intercalate (categoryText "Nonterminals" al.nonterminals ++
    categoryText "Terminals" al.terminals) ++ "\n"

/-- The line of a symbol in the machine format. -/
def symbolLine (s : Symbol) : String :=
  Text.intText s.id ++ " " ++ s.label ++
    (match shownDescription s with
    | some description => " " ++ description
    | none => "")

/-- The lines of a category in the machine format, by rank. -/
def symbolLines (al : Alphabet) (c : Category) : List String :=
  (al.row c).map symbolLine

/-- Whether the numbers of all symbols may be written. Those that are read may
be, and then it takes a symbol that is added to the largest of them to change
that. -/
def isWritable (al : Alphabet) : Bool :=
  al.symbols.all fun s => Text.isWritable s.id

/-- A text, unless it is empty. -/
def nonempty? (s : List Char) : Option String :=
  if s.isEmpty then none else some (String.ofList s)

/-- Reads the line of a symbol: a number, a label and perhaps a description,
separated by single spaces. -/
def readSymbolLine (line : String) : Except SymbolError Symbol :=
  match Text.splitSpaces 2 (Text.trim line.toList) with
  | id :: label :: rest =>
    match Text.readInt? id with
    | some id =>
      .ok ⟨id, String.ofList label,
        rest.head?.bind fun d => nonempty? (Text.trim d)⟩
    | none => .error (.invalidLineId line)
  | _ => .error (.invalidLine line)

/-- Adds the symbols of a list of lines to a category. -/
def insertLines (al : Alphabet) (c : Category) (rows : List String) :
    Except SymbolError Alphabet :=
  rows.foldlM (fun al line => do al.insert c (← readSymbolLine line)) al

/-- Fails unless a reserved symbol is there in its category. -/
def requireReserved (al : Alphabet) (c : Category) (id : SymbolId)
    (label : String) : Except SymbolError Unit :=
  if (al.row c).any (·.id == id) then .ok ()
  else .error (.missingReserved label id)

/-- Reads an alphabet from the lines of its nonterminals and terminals. The
reserved symbols have to be among them, but may have other labels. -/
def ofLines (nonterminals terminals : List String) :
    Except SymbolError Alphabet := do
  let al ← insertLines .empty .nonterminal nonterminals
  let al ← insertLines al .terminal terminals
  requireReserved al .nonterminal startId startLabel
  requireReserved al .terminal emptyId emptyLabel
  return al

end StochasticGrammar.Alphabet
