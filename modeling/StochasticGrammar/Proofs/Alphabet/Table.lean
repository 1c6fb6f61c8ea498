import StochasticGrammar.Proofs.Alphabet.Listing
import StochasticGrammar.Proofs.Alphabet.Lookup

/-!
# Symbol tables with indexes

An alphabet is two rows of symbols, and to find a symbol is to go through them.
A table that is to answer at once keeps the same facts several times: the
symbols by number, each with its category and its rank; the numbers by label;
and the numbers of each category by rank.  Nothing in such a table makes these
collections agree, so every operation has to change all of them alike.

The operations are written as the steps that they are, each of which changes
one collection.  An operation that fails leaves what was changed before that: an
insertion or an addition leaves the table as it was, since it fails before its
first change (`on_insert`, `on_add`), while a reader stops in the middle.

`Indexes` says what the collections of a table have to say about an alphabet.
Each operation on tables is then compared with the one on alphabets: it fails
for the same reason, or it ends in a table that indexes the new alphabet.

Main results: `follows_insert`, `agrees_ofLines`, `Indexes.on_add`,
`Indexes.answers`.
-/

namespace StochasticGrammar

namespace Alphabet

/-- A place that is taken after a symbol was added was taken before, or it is
the place of the new symbol. -/
theorem getElem?_row_push {al : Alphabet} {c d : Category} {i : Nat}
    {s r : Symbol} : ((al.push c s).row d)[i]? = some r ↔
      (al.row d)[i]? = some r ∨ d = c ∧ i = (al.row c).length ∧ r = s := by
  by_cases hd : d = c
  · subst hd
    rw [row_push, List.getElem?_append]
    split <;> rename_i hi
    · simp [Nat.ne_of_lt hi]
    · have hLe := Nat.le_of_not_lt hi
      rw [List.getElem?_eq_none hLe, List.getElem?_singleton]
      split <;> rename_i hZero
      · have hLength : i = (al.row d).length := by omega
        simp [hLength, eq_comm]
      · have hLength : i ≠ (al.row d).length := by omega
        simp [hLength]
  · rw [row_push_of_ne al s hd]
    simp [hd]

end Alphabet

/-- A symbol with its place. -/
structure SymbolTable.Entry extends Symbol where
  /-- The kind of the symbol. -/
  category : Category
  /-- The rank among the symbols of its category. -/
  rank : Nat
  deriving DecidableEq, Repr

/-- A symbol table whose facts are kept in several collections. -/
structure SymbolTable where
  /-- The symbols by number. -/
  entries : Std.HashMap SymbolId SymbolTable.Entry
  /-- The numbers by label. -/
  numbers : Std.HashMap String SymbolId
  /-- The numbers of the nonterminals by rank. -/
  nonterminals : List SymbolId
  /-- The numbers of the terminals by rank. -/
  terminals : List SymbolId
  /-- The number that the next symbol gets. -/
  nextId : SymbolId

namespace SymbolTable

/-- The table without any symbol. -/
def empty : SymbolTable := ⟨∅, ∅, [], [], 0⟩

/-- The numbers of a category, by rank. -/
def row (t : SymbolTable) : Category → List SymbolId
  | .nonterminal => t.nonterminals
  | .terminal => t.terminals

/-! ## Looking up -/

/-- The symbol with a number, or an error. -/
def entry (t : SymbolTable) (id : SymbolId) : Except SymbolError Entry :=
  match t.entries[id]? with
  | some e => .ok e
  | none => .error (.unknownId id)

/-- The number of the symbol with a label, or an error. -/
def idOfLabel (t : SymbolTable) (label : String) :
    Except SymbolError SymbolId :=
  match t.numbers[label]? with
  | some id => .ok id
  | none => .error (.unknownLabel label)

/-- The number of the symbol with a rank; ranks may be counted from the end. -/
def idOfRank? (t : SymbolTable) (c : Category) (rank : Int) :
    Option SymbolId :=
  atSigned? (t.row c) rank

theorem entry_eq_ok_iff {t : SymbolTable} {id : SymbolId} {e : Entry} :
    t.entry id = .ok e ↔ t.entries[id]? = some e := by
  unfold entry
  cases t.entries[id]? <;> simp

theorem idOfLabel_eq_ok_iff {t : SymbolTable} {label : String} {id : SymbolId} :
    t.idOfLabel label = .ok id ↔ t.numbers[label]? = some id := by
  unfold idOfLabel
  cases t.numbers[label]? <;> simp

/-! ## Operations -/

/-- A procedure that changes a table and may fail. -/
abbrev Operation (α : Type) := ExceptT SymbolError (StateM SymbolTable) α

/-- What becomes of a table, and what the operation answers. -/
def Operation.on {α : Type} (x : Operation α) (t : SymbolTable) :
    Except SymbolError α × SymbolTable :=
  x.run.run t

/-- A number at the end of a row. -/
def appendId (c : Category) (id : SymbolId) (t : SymbolTable) : SymbolTable :=
  match c with
  | .nonterminal => { t with nonterminals := t.nonterminals ++ [id] }
  | .terminal => { t with terminals := t.terminals ++ [id] }

/-- Puts a symbol into a table: one change for each collection. -/
def store (c : Category) (s : Symbol) : Operation Unit := do
  let rank := ((← get).row c).length
  modify fun t => { t with entries := t.entries.insert s.id ⟨s, c, rank⟩ }
  modify fun t => { t with numbers := t.numbers.insert s.label s.id }
  modify (appendId c s.id)
  modify fun t => { t with nextId := max t.nextId (s.id + 1) }

/-- Adds a symbol under a given number. -/
def insert (c : Category) (s : Symbol) : Operation Unit := do
  if (← get).numbers.contains s.label then throw (.duplicateLabel s.label)
  if (← get).entries.contains s.id then throw (.duplicateId s.id s.label)
  store c s

/-- Adds a symbol under the next number and returns that number. -/
def add (c : Category) (label : String) (description : Option String) :
    Operation SymbolId := do
  unless Alphabet.isLabel label do throw (.invalidLabel label)
  let id := (← get).nextId
  insert c ⟨id, label, description⟩
  return id

/-- Fills a table with the two reserved symbols. -/
def reserve : Operation Unit := do
  insert .nonterminal ⟨startId, startLabel, some "start symbol"⟩
  insert .terminal ⟨emptyId, emptyLabel, some "empty string"⟩

/-- Adds the symbol of a line to a category. -/
def insertLine (c : Category) (line : String) : Operation Unit :=
  match Alphabet.readSymbolLine line with
  | .ok s => insert c s
  | .error e => throw e

/-- Adds the symbols of a list of lines to a category. -/
def insertLines (c : Category) (rows : List String) : Operation Unit :=
  rows.forM (insertLine c)

/-- Fails unless a reserved symbol is there in its category. -/
def requireReserved (c : Category) (id : SymbolId) (label : String) :
    Operation Unit := do
  match (← get).entries[id]? with
  | some e => unless e.category = c do throw (.missingReserved label id)
  | none => throw (.missingReserved label id)

/-- Fills a table from the lines of its nonterminals and terminals. -/
def ofLines (nonterminals terminals : List String) : Operation Unit := do
  insertLines .nonterminal nonterminals
  insertLines .terminal terminals
  requireReserved .nonterminal startId startLabel
  requireReserved .terminal emptyId emptyLabel

/-! ## Running an operation -/

namespace Operation

variable {α β : Type} (t : SymbolTable)

theorem on_pure (a : α) : on (pure a) t = (.ok a, t) := rfl

theorem on_throw (e : SymbolError) :
    on (throw e : Operation α) t = (.error e, t) := rfl

theorem on_get : on get t = (.ok t, t) := rfl

theorem on_bind (x : Operation α) (f : α → Operation β) :
    on (x >>= f) t =
      match x.on t with
      | (.ok a, u) => (f a).on u
      | (.error e, u) => (.error e, u) := by
  rw [on, ExceptT.run_bind, StateT.run_bind, on]
  rcases x.run.run t with ⟨_ | _, _⟩ <;> rfl

end Operation

open Operation

/-- The table with one more symbol in each of its collections. -/
def stored (t : SymbolTable) (c : Category) (s : Symbol) : SymbolTable :=
  appendId c s.id
    { t with
      entries := t.entries.insert s.id ⟨s, c, (t.row c).length⟩
      numbers := t.numbers.insert s.label s.id
      nextId := max t.nextId (s.id + 1) }

theorem on_store (c : Category) (s : Symbol) (t : SymbolTable) :
    (store c s).on t = (.ok (), t.stored c s) := by
  cases c <;> rfl

section Stored

variable (t : SymbolTable) (c : Category) (s : Symbol)

theorem getElem?_entries_stored {id : SymbolId} {e : Entry} :
    (t.stored c s).entries[id]? = some e ↔
      s.id = id ∧ e = ⟨s, c, (t.row c).length⟩ ∨
        s.id ≠ id ∧ t.entries[id]? = some e := by
  have hEntries : (t.stored c s).entries =
      t.entries.insert s.id ⟨s, c, (t.row c).length⟩ := by cases c <;> rfl
  rw [hEntries, Std.HashMap.getElem?_insert]
  by_cases hId : s.id = id
  · simp [hId, eq_comm]
  · simp [hId]

theorem getElem?_numbers_stored {label : String} {id : SymbolId} :
    (t.stored c s).numbers[label]? = some id ↔
      s.label = label ∧ id = s.id ∨
        s.label ≠ label ∧ t.numbers[label]? = some id := by
  have hNumbers : (t.stored c s).numbers = t.numbers.insert s.label s.id := by
    cases c <;> rfl
  rw [hNumbers, Std.HashMap.getElem?_insert]
  by_cases hLabel : s.label = label
  · simp [hLabel, eq_comm]
  · simp [hLabel]

theorem row_stored : (t.stored c s).row c = t.row c ++ [s.id] := by
  cases c <;> rfl

theorem row_stored_of_ne {d : Category} (h : d ≠ c) :
    (t.stored c s).row d = t.row d := by
  cases c <;> cases d <;> first | rfl | exact absurd rfl h

theorem nextId_stored : (t.stored c s).nextId = max t.nextId (s.id + 1) := by
  cases c <;> rfl

end Stored

/-- An insertion changes all collections or none. -/
theorem on_insert (c : Category) (s : Symbol) (t : SymbolTable) :
    (insert c s).on t =
      if s.label ∈ t.numbers then (.error (.duplicateLabel s.label), t)
      else if s.id ∈ t.entries then (.error (.duplicateId s.id s.label), t)
      else (.ok (), t.stored c s) := by
  by_cases hLabel : s.label ∈ t.numbers
  · simp [insert, on_bind, on_get, on_throw, hLabel]
  · by_cases hId : s.id ∈ t.entries
    · simp [insert, on_bind, on_get, on_throw, hLabel, hId]
    · simp [insert, on_bind, on_get, on_store, hLabel, hId]

/-- An addition, too, changes all collections or none. -/
theorem on_add (c : Category) (label : String) (description : Option String)
    (t : SymbolTable) :
    (add c label description).on t =
      if Alphabet.isLabel label = false then (.error (.invalidLabel label), t)
      else if label ∈ t.numbers then (.error (.duplicateLabel label), t)
      else if t.nextId ∈ t.entries then
        (.error (.duplicateId t.nextId label), t)
      else (.ok t.nextId, t.stored c ⟨t.nextId, label, description⟩) := by
  by_cases hLabel : Alphabet.isLabel label = false
  · simp [add, on_throw, hLabel]
  · have hRun := on_insert c ⟨t.nextId, label, description⟩ t
    by_cases hUsed : label ∈ t.numbers
    · simp [add, on_bind, on_get, hLabel, hRun, hUsed, -bind_pure_comp]
    · by_cases hId : t.nextId ∈ t.entries <;>
        simp [add, on_bind, on_get, on_pure, hLabel, hRun, hUsed, hId,
          -bind_pure_comp]

/-! ## Tables that index an alphabet -/

/-- What the collections of a table have to say about an alphabet. -/
structure Indexes (t : SymbolTable) (al : Alphabet) : Prop where
  /-- No two symbols share a number or a label. -/
  distinct : al.Distinct
  /-- An entry is a symbol of the alphabet with its place. -/
  entry_iff : ∀ {id : SymbolId} {e : Entry}, t.entries[id]? = some e ↔
    e.id = id ∧ (al.row e.category)[e.rank]? = some e.toSymbol
  /-- The number of a label is that of its symbol. -/
  number_iff : ∀ {label : String} {id : SymbolId},
    t.numbers[label]? = some id ↔
      ∃ s ∈ al.symbols, s.label = label ∧ s.id = id
  row_eq : ∀ c, t.row c = al.ids c
  nextId_eq : t.nextId = al.nextId

theorem indexes_empty : empty.Indexes .empty where
  distinct := by constructor <;> decide
  entry_iff {id e} := by
    cases e.category <;> simp [empty, Alphabet.empty, Alphabet.row]
  number_iff := by simp [empty, Alphabet.empty, Alphabet.symbols]
  row_eq c := by cases c <;> rfl
  nextId_eq := rfl

namespace Indexes

variable {t : SymbolTable} {al : Alphabet} (h : t.Indexes al)

include h

theorem entry_iff_ok {id : SymbolId} {e : Entry} : t.entry id = .ok e ↔
    e.id = id ∧ (al.row e.category)[e.rank]? = some e.toSymbol :=
  entry_eq_ok_iff.trans h.entry_iff

theorem idOfLabel_iff_ok {label : String} {id : SymbolId} :
    t.idOfLabel label = .ok id ↔ ∃ s ∈ al.symbols, s.label = label ∧ s.id = id :=
  idOfLabel_eq_ok_iff.trans h.number_iff

/-- A row of the alphabet holds the numbers that have its category. -/
theorem mem_ids_iff {c : Category} {id : SymbolId} :
    id ∈ al.ids c ↔ ∃ e, t.entry id = .ok e ∧ e.category = c := by
  simp only [h.entry_iff_ok]
  constructor
  · intro hMem
    obtain ⟨s, hs, hId⟩ := List.mem_map.1 hMem
    obtain ⟨i, hi⟩ := List.mem_iff_getElem?.1 hs
    exact ⟨⟨s, c, i⟩, ⟨hId, hi⟩, rfl⟩
  · rintro ⟨e, ⟨hId, hRow⟩, rfl⟩
    exact List.mem_map.2 ⟨_, List.mem_of_getElem? hRow, hId⟩

theorem find?_eq (id : SymbolId) :
    t.entries[id]?.map (·.toSymbol) = al.find? id := by
  refine Option.ext fun s => ?_
  rw [Option.map_eq_some_iff, h.distinct.find?_eq_some_iff,
    Alphabet.mem_symbols_iff]
  constructor
  · rintro ⟨e, hEntry, rfl⟩
    obtain ⟨hId, hRow⟩ := h.entry_iff.1 hEntry
    exact ⟨⟨_, _, hRow⟩, hId⟩
  · rintro ⟨⟨c, i, hRow⟩, hId⟩
    exact ⟨⟨s, c, i⟩, h.entry_iff.2 ⟨hId, hRow⟩, rfl⟩

theorem rank?_eq (id : SymbolId) :
    t.entries[id]?.map (·.rank) = al.rank? id := by
  refine Option.ext fun i => ?_
  rw [Option.map_eq_some_iff, h.distinct.rank?_eq_some_iff]
  constructor
  · rintro ⟨e, hEntry, rfl⟩
    obtain ⟨hId, hRow⟩ := h.entry_iff.1 hEntry
    exact ⟨_, _, hRow, hId⟩
  · rintro ⟨c, s, hRow, hId⟩
    exact ⟨⟨s, c, i⟩, h.entry_iff.2 ⟨hId, hRow⟩, rfl⟩

theorem findLabel?_eq (label : String) :
    t.numbers[label]? = (al.findLabel? label).map (·.id) := by
  refine Option.ext fun id => ?_
  rw [h.number_iff, Option.map_eq_some_iff]
  simp only [h.distinct.findLabel?_eq_some_iff, and_assoc]

theorem mem_entries_iff (id : SymbolId) :
    id ∈ t.entries ↔ al.hasId id = true := by
  rw [Std.HashMap.mem_iff_isSome_getElem?, Alphabet.hasId, ← h.find?_eq,
    Option.isSome_map]

theorem mem_numbers_iff (label : String) :
    label ∈ t.numbers ↔ al.hasLabel label = true := by
  rw [Std.HashMap.mem_iff_isSome_getElem?, Alphabet.hasLabel, h.findLabel?_eq,
    Option.isSome_map]

section New

variable {c : Category} {s : Symbol}

theorem entry_stored_iff (hId : al.hasId s.id = false) {id : SymbolId}
    {e : Entry} : (t.stored c s).entries[id]? = some e ↔
      e.id = id ∧ ((al.push c s).row e.category)[e.rank]? = some e.toSymbol := by
  have hLength : (t.row c).length = (al.row c).length := by
    rw [h.row_eq, Alphabet.ids, List.length_map]
  rw [getElem?_entries_stored, Alphabet.getElem?_row_push, hLength]
  constructor
  · rintro (⟨rfl, rfl⟩ | ⟨_, hOld⟩)
    · exact ⟨rfl, .inr ⟨rfl, rfl, rfl⟩⟩
    · obtain ⟨hId, hRow⟩ := h.entry_iff.1 hOld
      exact ⟨hId, .inl hRow⟩
  · rintro ⟨rfl, hRow | ⟨hc, hi, hs⟩⟩
    · -- an old entry does not have the number of the new symbol
      have hUsed := (Alphabet.hasId_iff al e.id).2
        ⟨_, Alphabet.mem_symbols_iff.2 ⟨_, _, hRow⟩, rfl⟩
      refine .inr ⟨fun hEq => ?_, h.entry_iff.2 ⟨rfl, hRow⟩⟩
      rw [hEq, hUsed] at hId
      cases hId
    · rw [← hs, ← hi, ← hc]
      exact .inl ⟨rfl, rfl⟩

theorem number_stored_iff (hLabel : al.hasLabel s.label = false)
    {label : String} {id : SymbolId} :
    (t.stored c s).numbers[label]? = some id ↔
      ∃ r ∈ (al.push c s).symbols, r.label = label ∧ r.id = id := by
  rw [getElem?_numbers_stored, h.number_iff]
  simp only [Alphabet.mem_symbols_push]
  constructor
  · rintro (⟨rfl, rfl⟩ | ⟨_, r, hr, hEq⟩)
    · exact ⟨s, .inl rfl, rfl, rfl⟩
    · exact ⟨r, .inr hr, hEq⟩
  · rintro ⟨r, rfl | hr, rfl, rfl⟩
    · exact .inl ⟨rfl, rfl⟩
    · have hUsed := (Alphabet.hasLabel_iff al r.label).2 ⟨r, hr, rfl⟩
      refine .inr ⟨fun hEq => ?_, r, hr, rfl, rfl⟩
      rw [hEq, hUsed] at hLabel
      cases hLabel

theorem row_stored_eq (d : Category) :
    (t.stored c s).row d = (al.push c s).ids d := by
  by_cases hd : d = c
  · subst hd
    rw [row_stored, h.row_eq, Alphabet.ids, Alphabet.ids, Alphabet.row_push,
      List.map_append]
    rfl
  · rw [row_stored_of_ne t c s hd, h.row_eq, Alphabet.ids, Alphabet.ids,
      Alphabet.row_push_of_ne al s hd]

/-- Both take up a new symbol. -/
theorem stored (hLabel : al.hasLabel s.label = false)
    (hId : al.hasId s.id = false) : (t.stored c s).Indexes (al.push c s) where
  distinct := h.distinct.insert (Alphabet.insert_eq_ok_iff.2 ⟨hLabel, hId, rfl⟩)
  entry_iff := h.entry_stored_iff hId
  number_iff := h.number_stored_iff hLabel
  row_eq := h.row_stored_eq
  nextId_eq := by rw [nextId_stored, Alphabet.nextId_push, h.nextId_eq]

end New

end Indexes

/-! ## Operations on tables follow those on alphabets -/

/-- Two results agree: the same error, or a table that indexes the alphabet. -/
def Agrees : Except SymbolError Unit × SymbolTable →
    Except SymbolError Alphabet → Prop
  | (.ok _, t), .ok al => t.Indexes al
  | (.error e, _), .error e' => e = e'
  | _, _ => False

/-- An operation does to tables what a procedure does to alphabets. -/
def Follows (x : Operation Unit) (f : Alphabet → Except SymbolError Alphabet) :
    Prop :=
  ∀ (t : SymbolTable) (al : Alphabet), t.Indexes al → Agrees (x.on t) (f al)

theorem Follows.bind {x y : Operation Unit}
    {f g : Alphabet → Except SymbolError Alphabet} (hx : Follows x f)
    (hy : Follows y g) : Follows (do x; y) fun al => f al >>= g := by
  intro t al h
  have hFirst := hx t al h
  rw [on_bind]
  rcases hOn : x.on t with ⟨e | _, u⟩ <;> rcases hf : f al with e' | extended <;>
    rw [hOn, hf] at hFirst <;> simp only [hf]
  · exact hFirst
  · exact hFirst.elim
  · exact hFirst.elim
  · exact hy u extended hFirst

theorem follows_insert (c : Category) (s : Symbol) :
    Follows (insert c s) (·.insert c s) := by
  intro t al h
  simp only [on_insert, Alphabet.insert, h.mem_numbers_iff, h.mem_entries_iff]
  by_cases hLabel : al.hasLabel s.label = true
  · rw [if_pos hLabel, if_pos hLabel]
    rfl
  · by_cases hId : al.hasId s.id = true
    · rw [if_neg hLabel, if_neg hLabel, if_pos hId, if_pos hId]
      rfl
    · rw [if_neg hLabel, if_neg hLabel, if_neg hId, if_neg hId]
      exact h.stored (by simpa using hLabel) (by simpa using hId)

theorem follows_insertLine (c : Category) (line : String) :
    Follows (insertLine c line)
      (fun al => do al.insert c (← Alphabet.readSymbolLine line)) := by
  unfold insertLine
  cases Alphabet.readSymbolLine line with
  | error e => exact fun _ _ _ => rfl
  | ok s => exact follows_insert c s

theorem follows_insertLines (c : Category) (rows : List String) :
    Follows (insertLines c rows) (·.insertLines c rows) := by
  induction rows with
  | nil => exact fun _ _ h => h
  | cons row rows ih =>
      intro t al h
      have hRun := (follows_insertLine c row).bind ih t al h
      simp only [Alphabet.insertLines, List.foldlM_cons] at hRun ⊢
      exact hRun

theorem follows_requireReserved (c : Category) (id : SymbolId)
    (label : String) : Follows (requireReserved c id label)
      fun al => do al.requireReserved c id label; return al := by
  intro t al h
  have hAny : (al.row c).any (·.id == id) = true ↔
      ∃ e, t.entries[id]? = some e ∧ e.category = c := by
    simp only [← entry_eq_ok_iff, ← h.mem_ids_iff]
    simp [Alphabet.ids]
  simp only [Alphabet.requireReserved, hAny, requireReserved, on_bind, on_get]
  cases hEntry : t.entries[id]? with
  | none => simp [on_throw, Agrees, bind, Except.bind]
  | some e =>
      by_cases hc : e.category = c
      · simp only [Option.some.injEq, exists_eq_left', hc, if_true]
        exact h
      · simp [hc, on_throw, Agrees, bind, Except.bind]

/-- Reading a table fails as reading an alphabet does, or it gives a table that
indexes the alphabet. -/
theorem agrees_ofLines (nonterminals terminals : List String) :
    Agrees ((ofLines nonterminals terminals).on empty)
      (Alphabet.ofLines nonterminals terminals) := by
  have hRun := (follows_insertLines .nonterminal nonterminals).bind
    ((follows_insertLines .terminal terminals).bind
      ((follows_requireReserved .nonterminal startId startLabel).bind
        (follows_requireReserved .terminal emptyId emptyLabel)))
    _ _ indexes_empty
  simpa [ofLines, Alphabet.ofLines] using hRun

theorem agrees_reserve : Agrees (reserve.on empty) (.ok .initial) :=
  (follows_insert .nonterminal _).bind (follows_insert .terminal _)
    _ _ indexes_empty

/-- An addition to a table answers as one to the alphabet does, with a number
or with an error, and the two results still say the same. -/
theorem Indexes.on_add {t : SymbolTable} {al : Alphabet} (h : t.Indexes al)
    (c : Category) (label : String) (description : Option String) :
    match al.add c label description with
    | .ok (id, extended) => ∃ u,
        (add c label description).on t = (.ok id, u) ∧ u.Indexes extended
    | .error e => (add c label description).on t = (.error e, t) := by
  rw [SymbolTable.on_add, h.nextId_eq]
  simp only [Alphabet.add, Alphabet.insert, h.mem_numbers_iff,
    h.mem_entries_iff]
  by_cases hWord : Alphabet.isLabel label = true
  · by_cases hUsed : al.hasLabel label = true
    · simp [hWord, hUsed, bind, Except.bind]
    · by_cases hTaken : al.hasId al.nextId = true
      · simp [hWord, hUsed, hTaken, bind, Except.bind]
      · have hStored := h.stored (c := c)
          (s := ⟨al.nextId, label, description⟩) (by simpa using hUsed)
          (by simpa using hTaken)
        simpa [hWord, hUsed, hTaken, bind, Except.bind, pure, Except.pure]
          using hStored
  · simp [hWord]

/-! ## Look-ups answer alike -/

/-- What is looked up in a table is what is looked up in an alphabet. -/
structure Answers (t : SymbolTable) (al : Alphabet) : Prop where
  symbol : ∀ id, (t.entry id).map (·.toSymbol) = al.symbol id
  idOfLabel : ∀ label, t.idOfLabel label = al.idOfLabel label
  isTerminal : ∀ id, al.isTerminal id = true ↔
    ∃ e, t.entry id = .ok e ∧ e.category = .terminal
  rank? : ∀ id, (t.entry id).toOption.map (·.rank) = al.rank? id
  idOfRank? : ∀ c rank, t.idOfRank? c rank = al.idOfRank? c rank
  ids : ∀ c, t.row c = al.ids c

namespace Indexes

variable {t : SymbolTable} {al : Alphabet} (h : t.Indexes al)

include h

/-- Every look-up in a table that indexes an alphabet answers as it does in the
alphabet. -/
theorem answers : t.Answers al where
  symbol id := by
    rw [Alphabet.symbol, ← h.find?_eq, entry]
    cases t.entries[id]? <;> rfl
  idOfLabel label := by
    rw [idOfLabel, Alphabet.idOfLabel, h.findLabel?_eq]
    cases al.findLabel? label <;> rfl
  isTerminal id := by rw [Alphabet.isTerminal_iff, h.mem_ids_iff]
  rank? id := by
    rw [← h.rank?_eq, entry]
    cases t.entries[id]? <;> rfl
  idOfRank? c rank := by
    rw [idOfRank?, Alphabet.idOfRank?, h.row_eq, Alphabet.ids, atSigned?_map]
  ids := h.row_eq

end Indexes

end SymbolTable

end StochasticGrammar
