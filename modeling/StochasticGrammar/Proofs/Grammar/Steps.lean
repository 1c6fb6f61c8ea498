import StochasticGrammar.Proofs.Alphabet.Lookup
import StochasticGrammar.Proofs.Grammar.Reading

/-!
# Readers step by step

A reader is made of small steps: it takes an item of a list, converts a text
into a number, looks a symbol up, asks for the next line.  Each kind of step
fails in a way of its own, and a reader that is to report every failure as an
error of the grammar has to see to each of them, by a check made before the step
or by a handler around it.

Here the two readers are written as such steps, each with its own lapse.  They
agree with the readers that run, for every text.  So no lapse of another kind
gets through, whatever the text holds.

Main results: `Steps.idLines_eq`, `Steps.labelLines_eq`.
-/

namespace StochasticGrammar.Grammar

/-- What a step of a reader fails with. -/
inductive Lapse (α : Type) where
  /-- A text is not a number. -/
  | notNumber
  /-- A list has no item at the position. -/
  | noItem
  /-- Nothing is left to be taken. -/
  | exhausted
  /-- A table has no entry under the key. -/
  | noEntry
  /-- A symbol could not be added or found. -/
  | symbol (error : SymbolError)
  /-- The grammar or its text is wrong. -/
  | grammar (error : GrammarError α)

namespace Steps

open Text

variable {α β : Type} {file : Option String}

/-! ## Steps -/

/-- Takes the item at a position. -/
def item (xs : List β) (i : Nat) : Except (Lapse α) β :=
  match xs[i]? with
  | some x => .ok x
  | none => .error .noItem

/-- Converts a text into an integer. -/
def integer (s : List Char) : Except (Lapse α) Int :=
  match readInt? s with
  | some n => .ok n
  | none => .error .notNumber

/-- Converts a text into a probability. -/
def number [NumberText α] (s : List Char) : Except (Lapse α) α :=
  match NumberText.read? s with
  | some p => .ok p
  | none => .error .notNumber

/-- Takes the next line. -/
def next : List Content → Except (Lapse α) (Content × List Content)
  | [] => .error .exhausted
  | c :: rest => .ok (c, rest)

/-- Takes what a table holds under a key. -/
def entry (found : Option β) : Except (Lapse α) β :=
  match found with
  | some x => .ok x
  | none => .error .noEntry

/-! ## Handlers -/

/-- Puts another lapse in the place of one about a number. -/
def ifNotNumber (instead : Lapse α) : Lapse α → Lapse α
  | .notNumber => instead
  | lapse => lapse

/-- Puts another lapse in the place of one about a missing entry. -/
def ifNoEntry (instead : Lapse α) : Lapse α → Lapse α
  | .noEntry => instead
  | lapse => lapse

/-- Puts another lapse in the place of one about the end of the lines. -/
def ifExhausted (instead : Lapse α) : Lapse α → Lapse α
  | .exhausted => instead
  | lapse => lapse

/-- Turns an error about a symbol into one of the grammar. -/
def ifSymbol (file : Option String) (line : Nat) : Lapse α → Lapse α
  | .symbol e => .grammar ⟨.symbol e, file, line⟩
  | lapse => lapse

/-! ## Symbols -/

/-- Finds the number of the symbol with a label. -/
def idOfLabel (al : Alphabet) (label : String) : Except (Lapse α) SymbolId :=
  (entry ((al.findLabel? label).map (·.id))).mapError
    (ifNoEntry (.symbol (.unknownLabel label)))

/-- Finds the symbol with a number. -/
def symbol (al : Alphabet) (id : SymbolId) : Except (Lapse α) Symbol :=
  (entry (al.find? id)).mapError (ifNoEntry (.symbol (.unknownId id)))

/-- Finds out whether a symbol is a terminal. -/
def isTerminal (al : Alphabet) (id : SymbolId) : Except (Lapse α) Bool := do
  let s ← symbol al id
  return al.isTerminal s.id

theorem idOfLabel_eq (al : Alphabet) (label : String) :
    (idOfLabel al label : Except (Lapse α) SymbolId) =
      (al.idOfLabel label).mapError .symbol := by
  unfold idOfLabel Alphabet.idOfLabel
  cases al.findLabel? label <;> rfl

/-- Checks that the symbols of a rule exist, one after another. -/
def requireIds (al : Alphabet) (r : Rule α) :
    List SymbolId → Except (Lapse α) Unit
  | [] => .ok ()
  | id :: ids =>
    if al.hasId id then requireIds al r ids
    else .error (.grammar ⟨.unknownSymbol r id, none, 0⟩)

/-- Adds a rule at the end, after it has been checked. -/
def addRule (g : Grammar α) (r : Rule α) : Except (Lapse α) (Grammar α) := do
  requireIds g.alphabet r (r.lhs :: r.rhs)
  if ← isTerminal g.alphabet r.lhs then
    let s ← symbol g.alphabet r.lhs
    .error (.grammar ⟨.terminalHead r s.label, none, 0⟩)
  else
    return ⟨g.alphabet, g.rules ++ [r]⟩

theorem requireIds_eq (al : Alphabet) (r : Rule α) (ids : List SymbolId) :
    requireIds al r ids =
      match ids.find? (!al.hasId ·) with
      | some id => .error (.grammar ⟨.unknownSymbol r id, none, 0⟩)
      | none => .ok () := by
  induction ids with
  | nil => rfl
  | cons id ids ih =>
      rw [requireIds, List.find?_cons]
      cases al.hasId id with
      | true => exact ih
      | false => rfl

/-- The checks of a rule raise nothing but errors of the grammar: the look-ups
come after the check that the symbols exist. -/
theorem addRule_eq {g : Grammar α} (h : g.alphabet.Distinct) (r : Rule α) :
    addRule g r = (g.addRule r).mapError .grammar := by
  unfold addRule Grammar.addRule ruleFault?
  rw [requireIds_eq]
  cases hUnknown : (r.lhs :: r.rhs).find? (!g.alphabet.hasId ·) with
  | some id => rfl
  | none =>
      have hId : g.alphabet.hasId r.lhs = true := by
        simpa using List.find?_eq_none.1 hUnknown r.lhs (by simp)
      obtain ⟨s, hs, hEq⟩ := (Alphabet.hasId_iff _ _).1 hId
      have hFind := h.find?_eq_some_iff.2 ⟨hs, hEq⟩
      have hSymbol : (symbol g.alphabet r.lhs : Except (Lapse α) Symbol) =
          .ok s := by
        rw [symbol, hFind]
        rfl
      have hIs : (isTerminal g.alphabet r.lhs : Except (Lapse α) Bool) =
          .ok (g.alphabet.isTerminal r.lhs) := by
        rw [isTerminal, hSymbol, ← hEq]
        rfl
      show (isTerminal g.alphabet r.lhs >>= _) = _
      rw [hIs]
      show (if g.alphabet.isTerminal r.lhs then _ else _) = _
      cases hTerminal : g.alphabet.terminals.find? (·.id == r.lhs) with
      | some t =>
          have hMem := List.mem_of_find?_eq_some hTerminal
          have hId : t.id = r.lhs := by simpa using List.find?_some hTerminal
          have hSame : g.alphabet.find? r.lhs = some t :=
            h.find?_eq_some_iff.2 ⟨List.mem_append_right _ hMem, hId⟩
          rw [hFind] at hSame
          cases hSame
          have hYes : g.alphabet.isTerminal r.lhs = true :=
            List.any_eq_true.2 ⟨s, hMem, by simp [hId]⟩
          rw [if_pos hYes, hSymbol]
          rfl
      | none =>
          have hNo : g.alphabet.isTerminal r.lhs = false :=
            List.any_eq_false.2 (List.find?_eq_none.1 hTerminal)
          rw [if_neg (by simp [hNo])]
          rfl

/-! ## The format with symbol numbers -/

/-- Reads the third field, if there are three. -/
def thirdField (fields : List (List Char)) :
    Except (Lapse α) (Option String) :=
  if fields.length = 3 then do
    let d ← item fields 2
    return Alphabet.nonempty? (trim d)
  else return none

/-- Reads the line of a symbol. -/
def symbolLine (line : String) : Except (Lapse α) Symbol :=
  let fields := splitSpaces 2 (trim line.toList)
  if fields.length < 2 then .error (.symbol (.invalidLine line))
  else do
    let id ← (item fields 0 >>= integer).mapError
      (ifNotNumber (.symbol (.invalidLineId line)))
    let description ← thirdField fields
    let label ← item fields 1
    return ⟨id, String.ofList label, description⟩

/-- A third field is the last one. -/
theorem thirdField_eq (first second : List Char) {rest : List (List Char)}
    (h : rest.length ≤ 1) :
    (thirdField (first :: second :: rest) :
      Except (Lapse α) (Option String)) =
        .ok (rest.head?.bind fun d => Alphabet.nonempty? (trim d)) := by
  match rest, h with
  | [], _ => rfl
  | [_], _ => rfl

theorem symbolLine_eq (line : String) :
    (symbolLine line : Except (Lapse α) Symbol) =
      (Alphabet.readSymbolLine line).mapError .symbol := by
  have hLength := length_splitSpaces_le 2 (trim line.toList)
  unfold symbolLine Alphabet.readSymbolLine
  match hFields : splitSpaces 2 (trim line.toList) with
  | [] => rfl
  | [_] => rfl
  | id :: label :: rest =>
      have hRest : rest.length ≤ 1 := by
        rw [hFields, List.length_cons, List.length_cons] at hLength
        omega
      have hTwo : ¬(id :: label :: rest).length < 2 := by simp
      dsimp only
      rw [if_neg hTwo, thirdField_eq id label hRest]
      show ((integer id).mapError _ >>= _) = _
      unfold integer
      cases readInt? id <;> rfl

/-- Adds the symbol of a line to a category. -/
def insertLine (c : Category) (al : Alphabet) (line : String) :
    Except (Lapse α) Alphabet := do
  let s ← symbolLine line
  (al.insert c s).mapError .symbol

/-- Reads an alphabet from the lines of its nonterminals and terminals. -/
def alphabet (nonterminals terminals : List String) :
    Except (Lapse α) Alphabet := do
  let al ← nonterminals.foldlM (insertLine .nonterminal) .empty
  let al ← terminals.foldlM (insertLine .terminal) al
  (al.requireReserved .nonterminal startId startLabel).mapError .symbol
  (al.requireReserved .terminal emptyId emptyLabel).mapError .symbol
  return al

theorem alphabet_eq (nonterminals terminals : List String) :
    (alphabet nonterminals terminals : Except (Lapse α) Alphabet) =
      (Alphabet.ofLines nonterminals terminals).mapError .symbol := by
  have hLine (c : Category) (al : Alphabet) (line : String) :
      (insertLine c al line : Except (Lapse α) Alphabet) =
        (do al.insert c (← Alphabet.readSymbolLine line)).mapError .symbol := by
    rw [insertLine, symbolLine_eq, mapError_bind]
  unfold alphabet Alphabet.ofLines Alphabet.insertLines
  simp only [mapError_bind, foldlM_mapError (hLine _)]
  rfl

/-- Reads the count at a position and checks that so many lines follow. -/
def count (file : Option String) (lines : List String) (pos : Nat) :
    Except (Lapse α) Nat :=
  if lines.length ≤ pos then .error (.grammar ⟨.unexpectedEnd, file, pos⟩)
  else do
    let n ← (do integer (trim (← item lines pos).toList)).mapError
      (ifNotNumber (.grammar ⟨.expectedCount, file, pos + 1⟩))
    if n < 0 ∨ (lines.length : Int) < pos + 1 + n then
      .error (.grammar ⟨.invalidCount n, file, pos + 1⟩)
    else return n.toNat

/-- The lines from a position on. -/
def slice (lines : List String) (pos n : Nat) : List String :=
  (lines.drop pos).take n

/-- What remains from a position on is the line there and what follows it. -/
theorem of_drop_eq_cons {lines rest : List String} {pos : Nat} {line : String}
    (h : lines.drop pos = line :: rest) :
    lines[pos]? = some line ∧ lines.drop (pos + 1) = rest ∧
      lines.length = pos + 1 + rest.length := by
  have hRest : lines.drop (pos + 1) = rest := by
    rw [← List.tail_drop, h, List.tail_cons]
  have hAll := congrArg List.length h
  rw [List.length_drop, List.length_cons] at hAll
  exact ⟨by rw [← List.head?_drop, h, List.head?_cons], hRest, by omega⟩

/-- Counts and slices take the blocks that a reader of blocks takes. -/
theorem takeBlock_eq (lines : List String) (pos : Nat) :
    (takeBlock file ⟨lines.drop pos, pos⟩ :
      Except (GrammarError α) (List String × Reader)).mapError .grammar =
      (count file lines pos).map fun n =>
        (slice lines (pos + 1) n, ⟨lines.drop (pos + 1 + n), pos + 1 + n⟩) := by
  unfold takeBlock count
  cases hLines : lines.drop pos with
  | nil =>
      have hEnd : lines.length ≤ pos := List.drop_eq_nil_iff.1 hLines
      rw [if_pos hEnd]
      rfl
  | cons line rest =>
      obtain ⟨hLine, hRest, hLength⟩ := of_drop_eq_cons hLines
      have hMore : ¬lines.length ≤ pos := by omega
      have hItem : (item lines pos : Except (Lapse α) String) = .ok line := by
        rw [item, hLine]
      rw [if_neg hMore, hItem]
      show _ = Except.map _ ((integer (trim line.toList)).mapError _ >>= _)
      dsimp only
      cases hCount : readInt? (trim line.toList) with
      | none =>
          rw [integer, hCount]
          rfl
      | some n =>
          have hBound : (n < 0 ∨ (rest.length : Int) < n) ↔
              (n < 0 ∨ (lines.length : Int) < pos + 1 + n) := by
            omega
          rw [integer, hCount]
          show Except.mapError _ (ite _ _ _) = Except.map _ (ite _ _ _)
          by_cases hInvalid : n < 0 ∨ (rest.length : Int) < n
          · rw [if_pos hInvalid, if_pos (hBound.1 hInvalid)]
            rfl
          · rw [if_neg hInvalid, if_neg (hInvalid ∘ hBound.2)]
            have hSlice : slice lines (pos + 1) n.toNat = rest.take n.toNat :=
              congrArg (List.take n.toNat) hRest
            have hDrop : lines.drop (pos + 1 + n.toNat) = rest.drop n.toNat := by
              rw [← hRest, List.drop_drop]
            show _ = Except.ok (slice lines (pos + 1) n.toNat,
              Reader.mk (lines.drop (pos + 1 + n.toNat)) _)
            rw [hSlice, hDrop]
            rfl

/-- Fields are integers one by one. -/
theorem mapM_integer_cases (ws : List (List Char)) :
    (∃ ids, ws.mapM readInt? = some ids ∧
      ws.mapM integer = (.ok ids : Except (Lapse α) (List Int))) ∨
    ws.mapM readInt? = none ∧
      ws.mapM integer = (.error .notNumber : Except (Lapse α) (List Int)) := by
  induction ws with
  | nil => exact .inl ⟨[], rfl, rfl⟩
  | cons w ws ih =>
      rw [List.mapM_cons, List.mapM_cons, integer]
      cases readInt? w with
      | none => exact .inr ⟨rfl, rfl⟩
      | some n =>
          rcases ih with ⟨ids, hRead, hSteps⟩ | ⟨hRead, hSteps⟩
          · rw [hRead, hSteps]
            exact .inl ⟨n :: ids, rfl, rfl⟩
          · rw [hRead, hSteps]
            exact .inr ⟨rfl, rfl⟩

section Rules

variable [NumberText α]

/-- Reads the rule of a line. -/
def rule (row : String) : Except (Lapse α) (Rule α) := do
  let fields := words row.toList
  let lhs ← item fields 1 >>= integer
  let p ← item fields 0 >>= number
  let rhs ← (fields.drop 2).mapM integer
  return ⟨lhs, rhs, p⟩

/-- Whatever keeps a line from being a rule is a missing field or a field that
is no number. -/
theorem rule_cases (row : String) :
    (∃ r, readRule? row = some r ∧ rule row = .ok (r : Rule α)) ∨
      (readRule? row : Option (Rule α)) = none ∧
        (rule row = .error (.noItem : Lapse α) ∨
          rule row = .error (.notNumber : Lapse α)) := by
  unfold readRule?
  match hWords : words row.toList with
  | [] => exact .inr ⟨rfl, .inl (by rw [rule, hWords]; rfl)⟩
  | [_] => exact .inr ⟨rfl, .inl (by rw [rule, hWords]; rfl)⟩
  | probability :: lhs :: rhs =>
      have hRule : rule row = integer lhs >>= fun lhs =>
          number probability >>= fun p =>
            rhs.mapM integer >>= fun rhs =>
              (.ok ⟨lhs, rhs, p⟩ : Except (Lapse α) (Rule α)) := by
        rw [rule, hWords]
        rfl
      dsimp only
      rw [hRule, integer, number]
      cases hLhs : readInt? lhs with
      | none => exact .inr ⟨rfl, .inr rfl⟩
      | some n =>
          cases hNumber : (NumberText.read? probability : Option α) with
          | none =>
              refine .inr ⟨?_, .inr rfl⟩
              rcases mapM_integer_cases (α := α) rhs with ⟨ids, hRead, -⟩ | ⟨hRead, -⟩
              · rw [hRead]
                rfl
              · rw [hRead]
                rfl
          | some p =>
              rcases mapM_integer_cases (α := α) rhs with ⟨ids, hRead, hSteps⟩ | ⟨hRead, hSteps⟩
              · rw [hRead, hSteps]
                exact .inl ⟨⟨n, ids, p⟩, rfl, rfl⟩
              · rw [hRead, hSteps]
                exact .inr ⟨rfl, .inr rfl⟩

/-- Turns what keeps a line from being a rule into one error, and fills in the
position of an error of the rule. -/
def ifRuleLine (file : Option String) (line : Nat) (row : String) :
    Lapse α → Lapse α
  | .notNumber | .noItem => .grammar ⟨.invalidRule row, file, line⟩
  | .grammar e => .grammar (e.located file line)
  | lapse => lapse

/-- Adds the rules of a list of lines; `line` is the number of the first. -/
def addRuleLines (file : Option String) (g : Grammar α) (line : Nat) :
    List String → Except (Lapse α) (Grammar α)
  | [] => .ok g
  | row :: rest => do
    let extended ← (rule row >>= addRule g).mapError (ifRuleLine file line row)
    addRuleLines file extended (line + 1) rest

theorem addRuleLines_eq (rows : List String) :
    ∀ {g : Grammar α} {line : Nat}, g.alphabet.Distinct →
      addRuleLines file g line rows =
        (Grammar.addRuleLines file g line rows).mapError .grammar := by
  induction rows with
  | nil => exact fun _ => rfl
  | cons row rows ih =>
      intro g line h
      rw [addRuleLines, Grammar.addRuleLines]
      rcases rule_cases (α := α) row with ⟨r, hRead, hRule⟩ | ⟨hRead, hRule | hRule⟩
      · have hAdd : rule row >>= addRule g =
            (g.addRule r).mapError .grammar := by
          rw [hRule, ← addRule_eq h r]
          rfl
        rw [hRead, hAdd]
        dsimp only
        cases hResult : g.addRule r with
        | error e => rfl
        | ok extended =>
            have hRest : extended.alphabet.Distinct := by
              rwa [alphabet_of_addRule hResult]
            exact ih hRest
      · rw [hRead, hRule]
        rfl
      · rw [hRead, hRule]
        rfl

/-- Reads a grammar from its lines: counts and slices, with the position moved
along. -/
def idLines (file : Option String) (lines : List String) :
    Except (Lapse α) (Grammar α) := do
  let n ← count file lines 0
  let nonterminals := slice lines 1 n
  let pos := 1 + n
  let n ← count file lines pos
  let terminals := slice lines (pos + 1) n
  let pos := pos + 1 + n
  let al ← (alphabet nonterminals terminals).mapError (ifSymbol file 0)
  let n ← count file lines pos
  let rules := slice lines (pos + 1) n
  let pos := pos + 1 + n
  addRuleLines file (empty al) (pos - n + 1) rules

/-- The steps of the reader agree with it: whatever lapses, an error of the
grammar is reported. -/
theorem idLines_eq (file : Option String) (lines : List String) :
    (idLines file lines : Except (Lapse α) (Grammar α)) =
      (ofIdLines lines file).mapError .grammar := by
  have hStart : (⟨lines, 0⟩ : Reader) = ⟨lines.drop 0, 0⟩ := rfl
  unfold idLines ofIdLines
  rw [hStart, mapError_bind, takeBlock_eq, map_bind]
  refine congrArg _ (funext fun n => ?_)
  dsimp only
  rw [mapError_bind, Nat.zero_add, takeBlock_eq, map_bind]
  refine congrArg _ (funext fun m => ?_)
  dsimp only
  rw [alphabet_eq]
  cases hAl : Alphabet.ofLines (slice lines 1 n)
      (slice lines (1 + n + 1) m) with
  | error e => rfl
  | ok al =>
      have hDistinct := (Alphabet.wellFormed_ofLines hAl).distinct
      show _ = Except.mapError Lapse.grammar
        (takeBlock file ⟨lines.drop (1 + n + 1 + m), 1 + n + 1 + m⟩ >>= fun x =>
          Grammar.addRuleLines file (empty al) (1 + n + 1 + m + 2) x.1)
      rw [mapError_bind, takeBlock_eq, map_bind]
      show (count file lines (1 + n + 1 + m) >>= _) = _
      refine congrArg _ (funext fun k => ?_)
      have hLine : 1 + n + 1 + m + 1 + k - k + 1 = 1 + n + 1 + m + 2 := by
        omega
      dsimp only
      rw [hLine, addRuleLines_eq _ hDistinct]

end Rules

/-! ## The format with labels -/

/-- Reads the number of something. -/
def numberOf (file : Option String) (what : String) (cs : List Content) :
    Except (Lapse α) (Int × List Content) := do
  let (c, rest) ← (next cs).mapError
    (ifExhausted (.grammar ⟨.missingNumber what, file, 0⟩))
  let n ← (integer c.text).mapError
    (ifNotNumber (.grammar ⟨.expectedNumber what, file, c.line⟩))
  return (n, rest)

theorem numberOf_eq (what : String) (cs : List Content) :
    (numberOf file what cs : Except (Lapse α) (Int × List Content)) =
      (takeNumber file what cs).mapError .grammar := by
  cases cs with
  | nil => rfl
  | cons c rest =>
      show ((integer c.text).mapError _ >>= _) = _
      rw [integer, takeNumber]
      cases readInt? c.text <;> rfl

/-- Adds the symbol that a line defines. -/
def definition (file : Option String) (al : Alphabet) (c : Content) :
    Except (Lapse α) Alphabet :=
  let fields := splitSpaces 2 c.text
  let malformed : Lapse α :=
    .grammar ⟨.invalidSymbolDefinition (String.ofList c.text), file, c.line⟩
  if fields.length < 2 then .error malformed
  else do
    let kind ← item fields 0
    match readCategory? kind with
    | none => .error malformed
    | some category =>
      let description ← thirdField fields
      let label ← item fields 1
      (((al.add category (String.ofList label) description).map (·.2)).mapError
        .symbol).mapError (ifSymbol file c.line)

theorem definition_eq (al : Alphabet) (c : Content) :
    (definition file al c : Except (Lapse α) Alphabet) =
      (addDefinition file al c).mapError .grammar := by
  have hLength := length_splitSpaces_le 2 c.text
  unfold definition addDefinition
  match hFields : splitSpaces 2 c.text with
  | [] => rfl
  | [_] => rfl
  | kind :: label :: rest =>
      have hRest : rest.length ≤ 1 := by
        rw [hFields, List.length_cons, List.length_cons] at hLength
        omega
      have hTwo : ¬(kind :: label :: rest).length < 2 := by simp
      dsimp only
      rw [if_neg hTwo]
      show (match readCategory? kind with | none => _ | some category => _) = _
      cases readCategory? kind with
      | none => rfl
      | some category =>
          dsimp only
          rw [thirdField_eq kind label hRest]
          show Except.mapError _ (Except.mapError _ (Except.map _
            (al.add category (String.ofList label) _))) = _
          cases al.add category (String.ofList label) _ <;> rfl

/-- Adds the symbols that the next lines define. -/
def definitions (file : Option String) :
    Nat → Alphabet → List Content → Except (Lapse α) (Alphabet × List Content)
  | 0, al, rest => .ok (al, rest)
  | n + 1, al, rest => do
    let (c, rest) := nextContent rest
    let al ← definition file al c
    definitions file n al rest

theorem definitions_eq (n : Nat) :
    ∀ (al : Alphabet) (cs : List Content),
      (definitions file n al cs :
        Except (Lapse α) (Alphabet × List Content)) =
          (addDefinitions file n al cs).mapError .grammar := by
  induction n with
  | zero => exact fun al cs => rfl
  | succ n ih =>
      intro al cs
      rw [definitions, addDefinitions]
      dsimp only
      rw [mapError_bind, definition_eq]
      exact congrArg _ (funext fun extended => ih extended _)

variable [NumberText α]

/-- Looks up the symbols of a rule. -/
def named (al : Alphabet) (lhs : List Char) (rhs : List (List Char)) (p : α) :
    Except (Lapse α) (Rule α) := do
  let lhs ← idOfLabel al (String.ofList lhs)
  let rhs ← rhs.mapM fun w => idOfLabel al (String.ofList w)
  return ⟨lhs, rhs, p⟩

omit [NumberText α] in
theorem named_eq (al : Alphabet) (lhs : List Char) (rhs : List (List Char))
    (p : α) : named al lhs rhs p = (namedRule al lhs rhs p).mapError .symbol := by
  unfold named namedRule
  rw [mapError_bind, idOfLabel_eq]
  refine congrArg _ (funext fun id => ?_)
  rw [mapError_bind, mapM_mapError fun w => idOfLabel_eq al _]
  rfl

/-- Turns what may be wrong with the statement of a rule into an error of the
grammar. -/
def ifStatement (file : Option String) (line : Nat) (probability : List Char) :
    Lapse α → Lapse α
  | .notNumber =>
    .grammar ⟨.invalidProbability (String.ofList probability), file, line⟩
  | .symbol e => .grammar ⟨.symbol e, file, line⟩
  | .grammar e => .grammar (e.located file line)
  | lapse => lapse

/-- Adds the rule that a line states. -/
def statement (file : Option String) (g : Grammar α) (c : Content) :
    Except (Lapse α) (Grammar α) :=
  let fields := words c.text
  if fields.length < 2 then
    .error (.grammar ⟨.invalidRule (String.ofList c.text), file, c.line⟩)
  else do
    let probability ← item fields 0
    (do
      let p ← number probability
      let lhs ← item fields 1
      let r ← named g.alphabet lhs (fields.drop 2) p
      addRule g r).mapError (ifStatement file c.line probability)

theorem statement_eq {g : Grammar α} (h : g.alphabet.Distinct) (c : Content) :
    statement file g c = (addStatement file g c).mapError .grammar := by
  unfold statement addStatement
  match words c.text with
  | [] => rfl
  | [_] => rfl
  | probability :: lhs :: rhs =>
      have hTwo : ¬(probability :: lhs :: rhs).length < 2 := by simp
      dsimp only
      rw [if_neg hTwo]
      show Except.mapError _ (number probability >>= _) = _
      rw [number]
      cases (NumberText.read? probability : Option α) with
      | none => rfl
      | some p =>
          show Except.mapError _ (named g.alphabet lhs rhs p >>= addRule g) = _
          rw [named_eq]
          dsimp only
          cases namedRule g.alphabet lhs rhs p with
          | error e => rfl
          | ok r =>
              show Except.mapError _ (addRule g r) = _
              rw [addRule_eq h]
              dsimp only
              cases g.addRule r <;> rfl

/-- Adds the rules that the next lines state. -/
def statements (file : Option String) :
    Nat → Grammar α → List Content → Except (Lapse α) (Grammar α)
  | 0, g, _ => .ok g
  | n + 1, g, rest => do
    let (c, rest) := nextContent rest
    let g ← statement file g c
    statements file n g rest

theorem statements_eq (n : Nat) :
    ∀ {g : Grammar α} (cs : List Content), g.alphabet.Distinct →
      statements file n g cs = (addStatements file n g cs).mapError .grammar := by
  induction n with
  | zero => exact fun cs _ => rfl
  | succ n ih =>
      intro g cs h
      rw [statements, addStatements]
      dsimp only
      rw [mapError_bind, statement_eq h]
      cases hAdd : addStatement file g (nextContent cs).1 with
      | error e => rfl
      | ok extended =>
          obtain ⟨r, hRule⟩ := addStatement_cases hAdd
          have hRest : extended.alphabet.Distinct := by
            rwa [alphabet_of_addRule hRule]
          exact ih (nextContent cs).2 hRest

/-- Reads a grammar from its lines. -/
def labelLines (file : Option String) (rows : List String) :
    Except (Lapse α) (Grammar α) := do
  let (symbols, rest) ← numberOf file "symbols" (contents 1 rows)
  let (al, rest) ← definitions file symbols.toNat .initial rest
  let (rules, rest) ← numberOf file "rules" rest
  statements file rules.toNat (empty al) rest

/-- The steps of the reader agree with it: whatever lapses, an error of the
grammar is reported. -/
theorem labelLines_eq (file : Option String) (rows : List String) :
    (labelLines file rows : Except (Lapse α) (Grammar α)) =
      (ofLabelLines rows file).mapError .grammar := by
  unfold labelLines ofLabelLines
  rw [mapError_bind, numberOf_eq]
  refine congrArg _ (funext fun (symbols, rest) => ?_)
  dsimp only
  rw [mapError_bind, definitions_eq]
  cases hAl : (addDefinitions file symbols.toNat .initial rest :
      Except (GrammarError α) (Alphabet × List Content)) with
  | error e => rfl
  | ok result =>
      obtain ⟨al, rest⟩ := result
      have hDistinct : al.Distinct := by
        refine Alphabet.WellFormed.distinct ?_
        exact addDefinitions_preserves (fun h hAdd _ => h.add hAdd)
          Alphabet.wellFormed_initial hAl
      show (numberOf file "rules" rest >>= _) = Except.mapError Lapse.grammar
        (takeNumber file "rules" rest >>= fun x =>
          addStatements file x.1.toNat (empty al) x.2)
      rw [mapError_bind, numberOf_eq]
      exact congrArg _ (funext fun (rules, rest) =>
        statements_eq rules.toNat rest hDistinct)

end Steps

end StochasticGrammar.Grammar
