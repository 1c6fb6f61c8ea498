import StochasticGrammar.Proofs.Grammar.Built
import StochasticGrammar.Proofs.Tree.Graph
import StochasticGrammar.Proofs.Tree.Record

/-!
# What the text of a graph shows

The text of the graph of a tree holds the label of the record of terminals, then
the number and the caption of each inner node, then the numbers at the ends of
each edge, all as quoted strings.  Numbers are always read as they are written.
Labels and descriptions are if no backslash of theirs meets a quote, and they
leave the fields of the record alone if they have no marks of records.

Main result: the strings of the text are read as they were meant, and the record
has one field for each terminal, in order and with its number as port, exactly
if the labels and descriptions are legible and there is a terminal
(`ParseTree.dotText_shows_iff`).
-/

namespace StochasticGrammar

open Dot

/-! ## What is written -/

/-- What the field of a symbol shows: its label, and its description unless that
is empty. -/
def Symbol.shownTexts (s : Symbol) : List String :=
  s.label :: (s.description.filter (!·.isEmpty)).toList

/-- The text of the field of a symbol. -/
def Symbol.fieldText (s : Symbol) : List Char :=
  "\\n".toList.intercalate (s.shownTexts.map String.toList)

namespace ParseTree

/-- The field of a terminal as it is written. -/
def field (x : Entry × Symbol) : List Char :=
  Dot.fieldText (Text.writeInt x.1.id) x.2.fieldText

/-- The line of an inner node as it is written. -/
def nodeLine (x : Entry × String) : String :=
  "  " ++ Graph.quote (Text.intText x.1.id) ++ "[label=" ++
    Graph.quote x.2 ++ "];"

/-- The graph of inner nodes with captions, terminals with symbols, and
edges. -/
def drawn (captions : List (Entry × String)) (symbols : List (Entry × Symbol))
    (links : List (Entry × ParseTree)) : Graph :=
  ⟨symbols.map fun x => String.ofList (field x), captions.map nodeLine,
    links.map fun l => graphEdge l.1 l.2⟩

theorem graphField_eq {al : Alphabet} {e : Entry} {s : Symbol}
    (h : al.symbol e.symbol = .ok s) :
    graphField al e = .ok (String.ofList (field (e, s))) := by
  rw [graphField, h]
  cases hShown : s.description.filter (!·.isEmpty) with
  | none =>
      refine congrArg Except.ok (String.toList_injective ?_)
      simp [hShown, field, Dot.fieldText, Symbol.fieldText, Symbol.shownTexts,
        Text.intText]
  | some d =>
      refine congrArg Except.ok (String.toList_injective ?_)
      simp [hShown, field, Dot.fieldText, Symbol.fieldText, Symbol.shownTexts,
        Text.intText, List.intercalate_cons_cons]

/-- Rows of arguments with the results of a procedure agree if the arguments
do. -/
theorem eq_of_map_fst_eq {ε β γ : Type} {f : β → Except ε γ}
    {xs : List (β × γ)} : ∀ {ys : List (β × γ)},
      xs.map Prod.fst = ys.map Prod.fst → (∀ x ∈ xs, f x.1 = .ok x.2) →
      (∀ y ∈ ys, f y.1 = .ok y.2) → xs = ys := by
  induction xs with
  | nil =>
      intro ys h _ _
      rw [List.map_nil] at h
      exact (List.map_eq_nil_iff.1 h.symm).symm
  | cons x xs ih =>
      intro ys h hx hy
      cases ys with
      | nil => cases h
      | cons y ys =>
          rw [List.map_cons, List.map_cons, List.cons.injEq] at h
          rw [List.forall_mem_cons] at hx hy
          have hResult := hx.1.symm.trans (h.1 ▸ hy.1)
          rw [ih h.2 hx.2 hy.2, Prod.ext h.1 (Except.ok.inj hResult)]

variable {α : Type} [NumberText α] {g : Grammar α}

/-- The caption of an inner node: its label, and the probability of its rule. -/
def caption (g : Grammar α) (e : Entry) : Except TreeError String := do
  let label ← labelOf g.alphabet e.symbol
  let suffix ← ruleSuffix g e
  return label ++ suffix

/-- Inner nodes with their captions and terminals with their symbols, in
order. -/
structure Contents (g : Grammar α) (nodes leaves : List ParseTree)
    (captions : List (Entry × String)) (symbols : List (Entry × Symbol)) :
    Prop where
  nodes : captions.map Prod.fst = nodes.map entry
  caption : ∀ x ∈ captions, caption g x.1 = .ok x.2
  leaves : symbols.map Prod.fst = leaves.map entry
  symbol : ∀ x ∈ symbols, g.alphabet.symbol x.1.symbol = .ok x.2

theorem Contents.append {nodes nodes' leaves leaves' : List ParseTree}
    {captions captions' : List (Entry × String)}
    {symbols symbols' : List (Entry × Symbol)}
    (h : Contents g nodes leaves captions symbols)
    (h' : Contents g nodes' leaves' captions' symbols') :
    Contents g (nodes ++ nodes') (leaves ++ leaves') (captions ++ captions')
      (symbols ++ symbols') where
  nodes := by rw [List.map_append, List.map_append, h.nodes, h'.nodes]
  caption := List.forall_mem_append.2 ⟨h.caption, h'.caption⟩
  leaves := by rw [List.map_append, List.map_append, h.leaves, h'.leaves]
  symbol := List.forall_mem_append.2 ⟨h.symbol, h'.symbol⟩

/-- What is shown of inner nodes and terminals is determined by them. -/
theorem Contents.unique {nodes leaves : List ParseTree}
    {captions captions' : List (Entry × String)}
    {symbols symbols' : List (Entry × Symbol)}
    (h : Contents g nodes leaves captions symbols)
    (h' : Contents g nodes leaves captions' symbols') :
    captions = captions' ∧ symbols = symbols' :=
  ⟨eq_of_map_fst_eq (h.nodes.trans h'.nodes.symm) h.caption h'.caption,
    eq_of_map_fst_eq (f := fun e => g.alphabet.symbol e.symbol)
      (h.leaves.trans h'.leaves.symm) h.symbol h'.symbol⟩

/-- A graph writes inner nodes, terminals and edges with what they show. -/
def Draws (g : Grammar α) (graph : Graph) (nodes leaves : List ParseTree)
    (links : List (Entry × ParseTree)) : Prop :=
  ∃ captions symbols, Contents g nodes leaves captions symbols ∧
    graph = drawn captions symbols links

theorem draws_empty : Draws g .empty [] [] [] :=
  ⟨[], [], ⟨rfl, by simp, rfl, by simp⟩, rfl⟩

theorem Draws.append {first second : Graph}
    {nodes nodes' leaves leaves' : List ParseTree}
    {links links' : List (Entry × ParseTree)}
    (h : Draws g first nodes leaves links)
    (h' : Draws g second nodes' leaves' links') :
    Draws g (first.append second) (nodes ++ nodes') (leaves ++ leaves')
      (links ++ links') := by
  obtain ⟨captions, symbols, hContents, rfl⟩ := h
  obtain ⟨captions', symbols', hContents', rfl⟩ := h'
  refine ⟨_, _, hContents.append hContents', ?_⟩
  simp [drawn, Graph.append]

/-- A terminal is a field. -/
theorem draws_field {t : ParseTree} {text : String}
    (h : graphField g.alphabet t.entry = .ok text) :
    Draws g ⟨[text], [], []⟩ [] [t] [] := by
  obtain ⟨s, hSymbol, -⟩ := bind_eq_ok.1 h
  have hSymbol := mapError_eq_ok.1 hSymbol
  rw [graphField_eq hSymbol] at h
  cases h
  exact ⟨[], [(t.entry, s)], ⟨rfl, by simp, rfl, by simpa using hSymbol⟩, rfl⟩

/-- An inner node comes before what is below it, and its edges after that. -/
theorem Draws.cons {t : ParseTree} {label : String} {below : Graph}
    {nodes leaves : List ParseTree} {links : List (Entry × ParseTree)}
    (h : Draws g below nodes leaves links)
    (hCaption : caption g t.entry = .ok label) (ts : List ParseTree) :
    Draws g ⟨below.fields, nodeLine (t.entry, label) :: below.nodes,
        below.edges ++ ts.map (graphEdge t.entry)⟩
      (t :: nodes) leaves (links ++ ts.map (t.entry, ·)) := by
  obtain ⟨captions, symbols, hContents, rfl⟩ := h
  refine ⟨(t.entry, label) :: captions, symbols, ⟨?_, ?_, hContents.leaves,
    hContents.symbol⟩, ?_⟩
  · rw [List.map_cons, List.map_cons, hContents.nodes]
  · exact List.forall_mem_cons.2 ⟨hCaption, hContents.caption⟩
  · simp [drawn]

mutual

/-- The graph of a tree writes its nodes, terminals and edges. -/
theorem draws_graph {t : ParseTree} {graph : Graph}
    (h : t.graph g = .ok graph) :
    Draws g graph t.innerNodes t.terminals t.links := by
  match t with
  | node e ts =>
    rw [ParseTree.graph] at h
    split at h
    · rename_i hTerminal
      obtain ⟨text, hField, h⟩ := bind_eq_ok.1 h
      cases h
      rw [innerNodes_of_isTerminalLeaf hTerminal,
        terminals_of_isTerminalLeaf hTerminal,
        eq_node_nil_of_isTerminalLeaf hTerminal]
      exact draws_field hField
    · rename_i hInner
      obtain ⟨label, hLabel, h⟩ := bind_eq_ok.1 h
      obtain ⟨suffix, hSuffix, h⟩ := bind_eq_ok.1 h
      obtain ⟨below, hBelow, h⟩ := bind_eq_ok.1 h
      cases h
      have hCaption : caption g e = .ok (label ++ suffix) := by
        rw [caption, hLabel, hSuffix]
        rfl
      have hFalse : (node e ts).isTerminalLeaf = false := by simpa using hInner
      rw [innerNodes_node hFalse, terminals_node hFalse, links]
      exact (draws_graphList hBelow).cons (t := node e ts) hCaption ts

/-- The graph of a row of trees writes those of the trees. -/
theorem draws_graphList {ts : List ParseTree} {graph : Graph}
    (h : graphList g ts = .ok graph) :
    Draws g graph (ts.flatMap innerNodes) (ts.flatMap terminals)
      (linksList ts) := by
  match ts with
  | [] =>
    rw [graphList] at h
    cases h
    exact draws_empty
  | t :: ts =>
    rw [graphList] at h
    obtain ⟨first, hFirst, h⟩ := bind_eq_ok.1 h
    obtain ⟨rest, hRest, h⟩ := bind_eq_ok.1 h
    cases h
    exact (draws_graph hFirst).append (draws_graphList hRest)

end

/-! ## What is read -/

/-- The fields of the record, each with its port and its text. -/
def fields (symbols : List (Entry × Symbol)) :
    List (List Char × List Char) :=
  symbols.map fun x => (Text.writeInt x.1.id, x.2.fieldText)

/-- The strings that the text of a graph is meant to hold: the label of the
record, the numbers and captions of the inner nodes, and the numbers at the ends
of the edges. -/
def shownStrings (captions : List (Entry × String))
    (symbols : List (Entry × Symbol)) (links : List (Entry × ParseTree)) :
    List (List Char) :=
  recordText (fields symbols) ::
    (captions.flatMap fun x => [Text.writeInt x.1.id, x.2.toList]) ++
      links.flatMap fun l => [Text.writeInt l.1.id, Text.writeInt l.2.entry.id]

/-- The number of a terminal is the name of a port. -/
theorem isPort_writeInt (i : Int) : IsPort (Text.writeInt i) := by
  have hPlain : ∀ c ∈ Text.writeInt i, c ∉ recordMarks ∧ c ≠ '\\' := by
    intro c hc
    rcases Text.mem_writeInt hc with rfl | ⟨d, hd, rfl⟩
    · decide
    · exact Text.of_digitChar (P := fun c => c ∉ recordMarks ∧ c ≠ '\\')
        (by decide) hd
  exact ⟨fun c hc => (hPlain c hc).1, fun hc => (hPlain _ hc).2 rfl⟩

theorem spells_number (i : Int) :
    Spells (Graph.quote (Text.intText i)).toList [Text.writeInt i] := by
  have hClosed : Closed (Text.intText i).toList := by
    rw [Text.intText, String.toList_ofList]
    exact closed_of_notMem (isPort_writeInt i).no_backslash
  have hSpells := spells_quote hClosed
  rwa [Text.intText, String.toList_ofList] at hSpells

theorem spells_nodeLine {x : Entry × String} (h : Closed x.2.toList) :
    Spells (nodeLine x).toList [Text.writeInt x.1.id, x.2.toList] := by
  simp only [nodeLine, String.toList_append]
  exact ((((spells_of_notMem (by decide)).append (spells_number _)).append
    (spells_of_notMem (by decide))).append (spells_quote h)).append
    (spells_of_notMem (by decide))

theorem spells_graphEdge (e : Entry) (t : ParseTree) :
    Spells (graphEdge e t).toList
      [Text.writeInt e.id, Text.writeInt t.entry.id] := by
  have hRecord :
      '"' ∉ (if t.isTerminalLeaf then "str:" else "").toList := by
    split <;> decide
  simp only [graphEdge, String.toList_append]
  exact (((((spells_of_notMem (by decide)).append (spells_number _)).append
    (spells_of_notMem (by decide))).append
    (spells_of_notMem hRecord)).append (spells_number _)).append
    (spells_of_notMem (by decide))

theorem toList_intercalate_fields (symbols : List (Entry × Symbol)) :
    (" | ".intercalate
      (symbols.map fun x => String.ofList (field x))).toList =
      recordText (fields symbols) := by
  rw [String.toList_intercalate, recordText, fields, List.map_map, List.map_map]
  simp [Function.comp_def, field]

/-- The line of the record is read for its label. -/
theorem spells_record {label : String} (h : Closed label.toList) (width : Nat) :
    Spells ("  str [shape=record width=" ++ Text.natText width ++
      ", label=" ++ Graph.quote label ++ "];").toList [label.toList] := by
  have hWidth : '"' ∉ (Text.natText width).toList := by
    intro hQuote
    rw [Text.natText, String.toList_ofList] at hQuote
    obtain ⟨d, hd, hChar⟩ := Text.mem_writeNat hQuote
    exact Graph.digitChar_ne_quote hd hChar.symm
  simp only [String.toList_append]
  exact ((((spells_of_notMem (by decide)).append
    (spells_of_notMem hWidth)).append
    (spells_of_notMem (by decide))).append (spells_quote h)).append
    (spells_of_notMem (by decide))

/-- If no string is left open, the text of a graph holds the strings that it is
meant to hold. -/
theorem quotedStrings?_text {captions : List (Entry × String)}
    {symbols : List (Entry × Symbol)} {links : List (Entry × ParseTree)}
    {name : String} (hName : '"' ∉ name.toList)
    (hRecord : Closed (recordText (fields symbols)))
    (hCaptions : ∀ x ∈ captions, Closed x.2.toList) :
    quotedStrings? ((drawn captions symbols links).text name).toList =
      some (shownStrings captions symbols links) := by
  rw [← toList_intercalate_fields] at hRecord
  have hFirst : Spells ("digraph " ++ name ++ " \x7b").toList [] := by
    refine spells_of_notMem ?_
    simp only [String.toList_append, List.mem_append, not_or]
    exact ⟨⟨by decide, hName⟩, by decide⟩
  have hNodes := spells_flatMap fun x hx =>
    (spells_nodeLine (hCaptions x hx)).line
  have hEdges := spells_flatMap fun l (_ : l ∈ links) =>
    (spells_graphEdge l.1 l.2).line
  have hLast : Spells "\x7d".toList [] := spells_of_notMem (by decide)
  have hStr := (spells_record hRecord
    (drawn captions symbols links).fields.length).line
  have hAll := hFirst.line.append
    (hStr.append ((hNodes.append hEdges).append hLast.line))
  rw [Graph.text, String.toList_append, String.toList_intercalate,
    intercalate_append_self "\n".toList (by simp)]
  convert hAll.quotedStrings?_eq using 2
  · simp [drawn, List.flatMap_map]
  · rw [toList_intercalate_fields]
    simp [shownStrings]

/-! ## Legible texts -/

/-- No caption leaves its string open, and the labels and descriptions of
terminals leave their strings and the fields of the record alone.  There is a
terminal, and what is shown of the last one does not end in a backslash that
would reach beyond. -/
structure Legible (captions : List (Entry × String))
    (symbols : List (Entry × Symbol)) : Prop where
  caption : ∀ x ∈ captions, Closed x.2.toList
  quotable : ∀ x ∈ symbols, ∀ s ∈ x.2.shownTexts, Quotable s.toList
  plain : ∀ x ∈ symbols, ∀ s ∈ x.2.shownTexts, Plain s.toList
  last : ∀ x ∈ symbols.getLast?, ∀ s ∈ x.2.shownTexts.getLast?,
    escapedAfter false s.toList = false
  ne_nil : symbols ≠ []

theorem quotable_fieldText_iff (s : Symbol) :
    Quotable s.fieldText ↔ ∀ x ∈ s.shownTexts, Quotable x.toList := by
  rw [Quotable, Symbol.fieldText,
    allowed_intercalate_lines (by decide) (by decide)]
  simp [Quotable]

theorem plain_fieldText_iff (s : Symbol) :
    Plain s.fieldText ↔ ∀ x ∈ s.shownTexts, Plain x.toList := by
  rw [Plain, Symbol.fieldText,
    allowed_intercalate_lines (by decide) (by decide)]
  simp [Plain]

theorem escapedAfter_fieldText_iff (s : Symbol) :
    escapedAfter false s.fieldText = false ↔
      ∀ x ∈ s.shownTexts.getLast?, escapedAfter false x.toList = false := by
  rw [Symbol.fieldText, escapedAfter_intercalate_lines, List.getLast?_map]
  simp

theorem isPort_of_mem_fields {symbols : List (Entry × Symbol)} :
    ∀ f ∈ fields symbols, IsPort f.1 :=
  List.forall_mem_map.2 fun x _ => isPort_writeInt x.1.id

/-- The label of the record is closed if what it shows of the terminals is. -/
theorem closed_recordText_fields_iff (symbols : List (Entry × Symbol)) :
    Closed (recordText (fields symbols)) ↔
      (∀ x ∈ symbols, ∀ s ∈ x.2.shownTexts, Quotable s.toList) ∧
        ∀ x ∈ symbols.getLast?, ∀ s ∈ x.2.shownTexts.getLast?,
          escapedAfter false s.toList = false := by
  rw [closed_recordText_iff isPort_of_mem_fields]
  refine and_congr ?_ ?_
  · rw [fields, List.forall_mem_map]
    exact forall₂_congr fun x _ => quotable_fieldText_iff x.2
  · rw [fields, List.getLast?_map]
    cases symbols.getLast? with
    | none => simp
    | some x => simpa using escapedAfter_fieldText_iff x.2

/-- The record has its fields if what it shows of the terminals is plain. -/
theorem ports?_fields_iff (symbols : List (Entry × Symbol)) :
    ports? (recordText (fields symbols)) =
        some (symbols.map fun x => some (Text.writeInt x.1.id)) ↔
      symbols ≠ [] ∧ ∀ x ∈ symbols, ∀ s ∈ x.2.shownTexts, Plain s.toList := by
  have hRead := ports?_recordText_iff (@isPort_of_mem_fields symbols) 0
  rw [List.replicate_zero, List.nil_append, fields, List.map_map,
    List.forall_mem_map, ne_eq, List.map_eq_nil_iff] at hRead
  exact hRead.trans (and_congr_right fun _ =>
    forall₂_congr fun x _ => plain_fieldText_iff x.2)

/-- The graph of a tree shows its terminals: the strings of its text are those
that it is meant to hold, and the record has one field for each terminal, in
order and with its number as port. -/
structure ShowsTerminals (t : ParseTree) (text : String)
    (captions : List (Entry × String)) (symbols : List (Entry × Symbol)) :
    Prop where
  strings : quotedStrings? text.toList =
    some (shownStrings captions symbols t.links)
  ports : ports? (recordText (fields symbols)) =
    some (t.terminals.map fun u => some (Text.writeInt u.entry.id))

/-- Every tree over a grammar has a text in the DOT language.  If the name of
the graph has no quote, the text shows the terminals of the tree exactly if its
labels and descriptions are legible and it has a terminal. -/
theorem dotText_shows_iff {t : ParseTree} (h : t.Over g) {name : String}
    (hName : '"' ∉ name.toList) :
    ∃ text captions symbols, t.dotText g name = .ok text ∧
      Contents g t.innerNodes t.terminals captions symbols ∧
      (ShowsTerminals t text captions symbols ↔ Legible captions symbols) := by
  obtain ⟨graph, hGraph⟩ := h.exists_graph
  obtain ⟨captions, symbols, hContents, rfl⟩ := draws_graph hGraph
  refine ⟨_, captions, symbols, by rw [dotText, hGraph]; rfl, hContents, ?_⟩
  have hPorts : (t.terminals.map fun u => some (Text.writeInt u.entry.id)) =
      symbols.map fun x => some (Text.writeInt x.1.id) := by
    have hEntries := congrArg
      (List.map fun e : Entry => some (Text.writeInt e.id)) hContents.leaves
    rw [List.map_map, List.map_map] at hEntries
    exact hEntries.symm
  constructor
  · rintro ⟨hStrings, hRecord⟩
    have hClosed := closed_of_quotedStrings? hStrings
    rw [shownStrings, List.cons_append, List.forall_mem_cons,
      List.forall_mem_append] at hClosed
    obtain ⟨hQuotable, hLast⟩ := (closed_recordText_fields_iff _).1 hClosed.1
    obtain ⟨hNe, hPlain⟩ :=
      (ports?_fields_iff _).1 (hRecord.trans (by rw [hPorts]))
    refine ⟨fun x hx => hClosed.2.1 _ ?_, hQuotable, hPlain, hLast, hNe⟩
    exact List.mem_flatMap.2 ⟨x, hx, by simp⟩
  · intro hLegible
    refine ⟨quotedStrings?_text hName ?_ hLegible.caption, ?_⟩
    · exact (closed_recordText_fields_iff _).2
        ⟨hLegible.quotable, hLegible.last⟩
    · rw [hPorts]
      exact (ports?_fields_iff _).2 ⟨hLegible.ne_nil, hLegible.plain⟩

/-! ## One letter -/

/-- One letter with a label and a description: `S -> x`. -/
def lettered (label : String) (description : Option String) :
    Grammar Float where
  alphabet := ⟨Alphabet.initial.nonterminals,
    Alphabet.initial.terminals ++ [⟨2, label, description⟩], 3⟩
  rules := [⟨startId, [2], Float.ofBits 0x3ff0000000000000⟩]

/-- Its tree. -/
def letteredTree : ParseTree :=
  .node ⟨.earley, 1, some 0, startId⟩ [.leafOf ⟨.leaf, 2, none, 2⟩]

theorem over_letteredTree (label : String) (description : Option String) :
    letteredTree.Over (lettered label description) := by
  refine .node rfl (by simp [lettered]; rfl) fun t ht => ?_
  obtain rfl := List.mem_singleton.1 ht
  exact .node rfl (by simp) (by simp)

/-- What the graph of the tree shows. -/
theorem contents_letteredTree (label : String) (description : Option String) :
    Contents (lettered label description) letteredTree.innerNodes
      letteredTree.terminals [(⟨.earley, 1, some 0, startId⟩, "S [1.0]")]
      [(⟨.leaf, 2, none, 2⟩, ⟨2, label, description⟩)] := by
  have hNumber : numberText (Float.ofBits 0x3ff0000000000000) =
      "1.0" := by decide +kernel
  refine ⟨by decide, ?_, rfl, ?_⟩
  · rw [List.forall_mem_singleton]
    show Except.ok ("S" ++ (" [" ++ numberText
      (Float.ofBits 0x3ff0000000000000) ++ "]")) = _
    rw [hNumber]
    rfl
  · rw [List.forall_mem_singleton]
    rfl

theorem dotText_shows_iff_punctuation :
    letteredTree.Over (lettered "\"b\\|c" (some "x\\<y\\>")) ∧
      '"' ∉ "tree".toList ∧
      ∃ text captions symbols,
        letteredTree.dotText (lettered "\"b\\|c" (some "x\\<y\\>")) "tree" =
          .ok text ∧
        Contents (lettered "\"b\\|c" (some "x\\<y\\>"))
          letteredTree.innerNodes letteredTree.terminals captions symbols ∧
        ShowsTerminals letteredTree text captions symbols := by
  have hOver := over_letteredTree "\"b\\|c" (some "x\\<y\\>")
  have hName : '"' ∉ "tree".toList := by decide
  obtain ⟨text, captions, symbols, hText, hContents, hIff⟩ :=
    dotText_shows_iff hOver hName
  refine ⟨hOver, hName, text, captions, symbols, hText, hContents, hIff.2 ?_⟩
  obtain ⟨rfl, rfl⟩ := hContents.unique (contents_letteredTree _ _)
  exact ⟨by decide, by decide, by decide, by decide, by decide⟩

theorem isDerivation_letteredTree (label : String)
    (description : Option String) :
    letteredTree.shape.IsDerivation (lettered label description) := by
  have hLetter : (terminal 2).IsDerivation (lettered label description) :=
    .terminal rfl
  have hChildren : ∀ t ∈ [terminal 2],
      t.IsDerivation (lettered label description) :=
    List.forall_mem_singleton.2 hLetter
  have hRule : (lettered label description).rules[0]? =
      some ⟨startId, [2], Float.ofBits 0x3ff0000000000000⟩ := rfl
  exact .branch hRule rfl hChildren

theorem built_lettered {label : String} {description : Option String}
    (h : Alphabet.initial.add .terminal label description =
      .ok (2, (lettered label description).alphabet)) :
    (lettered label description).Built := by
  refine (Grammar.Built.initial.symbol h).addRules fun r hr => ?_
  obtain rfl := List.mem_singleton.1 hr
  rfl

/-- The text of the graph if this is what is written for the letter. -/
def letteredText (written : String) : String :=
  "\n".intercalate ["digraph tree \x7b",
    "  str [shape=record width=1, label=\"<2> " ++ written ++ "\"];",
    "  \"1\"[label=\"S [1.0]\"];", "  \"1\" -> str:\"2\";", "\x7d", ""]

/-- A bar as a letter gives the record a second field, and a backslash leaves the
label of the record open. -/
theorem letteredTree_misread :
    ((lettered "|" none).Built ∧
      letteredTree.shape.IsDerivation (lettered "|" none) ∧
      letteredTree.dotText (lettered "|" none) "tree" =
        .ok (letteredText "|") ∧
      quotedStrings? (letteredText "|").toList = some ["<2> |".toList,
        "1".toList, "S [1.0]".toList, "1".toList, "2".toList] ∧
      ports? "<2> |".toList = some [some "2".toList, none]) ∧
    (lettered "\\" none).Built ∧
      letteredTree.shape.IsDerivation (lettered "\\" none) ∧
      letteredTree.dotText (lettered "\\" none) "tree" =
        .ok (letteredText "\\") ∧
      quotedStrings? (letteredText "\\").toList = none :=
  ⟨⟨built_lettered rfl, isDerivation_letteredTree _ _, by decide +kernel,
    by decide +kernel, by decide +kernel⟩, built_lettered rfl,
    isDerivation_letteredTree _ _, by decide +kernel, by decide +kernel⟩

end ParseTree

end StochasticGrammar
