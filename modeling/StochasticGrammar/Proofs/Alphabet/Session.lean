import Mathlib.Data.List.Forall2
import StochasticGrammar.Proofs.Alphabet.Table

/-!
# Programs that work with symbol tables

A program starts from one symbol table, the one with the reserved symbols or one
that it reads from lines.  It adds symbols and copies tables, and it may go on
adding to a table as well as to its copies.  Additions may be refused, and the
program goes on after that.

Such a program cannot tell the table with indexes from the alphabet: it is
answered alike, with the same numbers and the same errors (`runCalls_alike`).
In all tables that it gets, the collections are in step with each other
(`SymbolTable.InStep`), whatever numbers the lines had that it started from.

Main results: `Indexes.inStep`, `Indexes.added`, `inStep_of_runCalls`.
-/

namespace StochasticGrammar

/-! ## Runs -/

/-- A call of a program that holds some tables, each with its place. -/
inductive Call where
  /-- Adds a symbol to the table at a place. -/
  | add (place : Nat) (c : Category) (label : String)
      (description : Option String)
  /-- Puts a copy of the table at a place after all tables. -/
  | clone (place : Nat)
  deriving DecidableEq, Repr

/-- How a symbol is added to a table of some kind: the answer, and what becomes
of the table. -/
abbrev Adder (σ : Type) :=
  Category → String → Option String → σ → Except SymbolError SymbolId × σ

section Runs

variable {σ τ : Type}

/-- What a call answers, unless it copies or there is no table at its place, and
the tables that the program has then. -/
def Call.run (adder : Adder σ) (tables : List σ) :
    Call → Option (Except SymbolError SymbolId) × List σ
  | .add place c label description =>
    match tables[place]? with
    | some t =>
      ((adder c label description t).1,
        tables.set place (adder c label description t).2)
    | none => (none, tables)
  | .clone place => (none, tables ++ tables[place]?.toList)

/-- The answers to some calls, and the tables at the end. -/
def runCalls (adder : Adder σ) (tables : List σ) :
    List Call → List (Option (Except SymbolError SymbolId)) × List σ
  | [] => ([], tables)
  | call :: calls =>
    let (answer, next) := call.run adder tables
    let (answers, last) := runCalls adder next calls
    (answer :: answers, last)

theorem forall₂_set {R : σ → τ → Prop} {xs : List σ} {ys : List τ}
    (h : List.Forall₂ R xs ys) {x : σ} {y : τ} (hxy : R x y) :
    ∀ i, List.Forall₂ R (xs.set i x) (ys.set i y) := by
  induction h with
  | nil => exact fun _ => .nil
  | cons hHead hTail ih =>
      intro i
      cases i with
      | zero => exact .cons hxy hTail
      | succ i => exact .cons hHead (ih i)

theorem rel_getElem? {R : σ → τ → Prop} {xs : List σ} {ys : List τ}
    (h : List.Forall₂ R xs ys) : ∀ i : Nat, Option.Rel R xs[i]? ys[i]? := by
  induction h with
  | nil => exact fun _ => .none
  | cons hHead _ ih =>
      intro i
      cases i with
      | zero => exact .some hHead
      | succ i => simpa using ih i

theorem exists_rel_of_mem {R : σ → τ → Prop} {xs : List σ} {ys : List τ}
    (h : List.Forall₂ R xs ys) : ∀ x ∈ xs, ∃ y, R x y := by
  induction h with
  | nil => simp
  | cons hHead _ ih =>
      intro x hx
      rcases List.mem_cons.1 hx with rfl | hx
      · exact ⟨_, hHead⟩
      · exact ih x hx

/-- Two kinds of tables that are added to alike. -/
def Alike (R : σ → τ → Prop) (adder : Adder σ) (other : Adder τ) : Prop :=
  ∀ {s : σ} {t : τ}, R s t → ∀ c label description,
    (adder c label description s).1 = (other c label description t).1 ∧
      R (adder c label description s).2 (other c label description t).2

variable {R : σ → τ → Prop} {adder : Adder σ} {other : Adder τ}
  {ss : List σ} {ts : List τ}

/-- One call is answered alike, and the tables go on being alike. -/
theorem run_alike (hAlike : Alike R adder other) (h : List.Forall₂ R ss ts)
    (call : Call) : (call.run adder ss).1 = (call.run other ts).1 ∧
      List.Forall₂ R (call.run adder ss).2 (call.run other ts).2 := by
  cases call with
  | add place c label description =>
      have hPlace := rel_getElem? h place
      simp only [Call.run]
      cases hs : ss[place]? <;> cases ht : ts[place]? <;>
        rw [hs, ht] at hPlace <;> cases hPlace
      · exact ⟨rfl, h⟩
      · rename_i hst
        obtain ⟨hAnswer, hNext⟩ := hAlike hst c label description
        exact ⟨congrArg some hAnswer, forall₂_set h hNext place⟩
  | clone place =>
      have hPlace := rel_getElem? h place
      refine ⟨rfl, List.rel_append h ?_⟩
      cases hs : ss[place]? <;> cases ht : ts[place]? <;>
        rw [hs, ht] at hPlace <;> cases hPlace
      · exact .nil
      · rename_i hst
        exact .cons hst .nil

/-- All calls are answered alike, whatever they are. -/
theorem runCalls_alike (hAlike : Alike R adder other) :
    ∀ {ss : List σ} {ts : List τ}, List.Forall₂ R ss ts → ∀ calls : List Call,
      (runCalls adder ss calls).1 = (runCalls other ts calls).1 ∧
        List.Forall₂ R (runCalls adder ss calls).2
          (runCalls other ts calls).2 := by
  intro ss ts h calls
  induction calls generalizing ss ts with
  | nil => exact ⟨rfl, h⟩
  | cons call calls ih =>
      obtain ⟨hAnswer, hNext⟩ := run_alike hAlike h call
      obtain ⟨hAnswers, hLast⟩ := ih hNext
      exact ⟨congrArg₂ _ hAnswer hAnswers, hLast⟩

/-- What additions keep holds of all tables at the end. -/
theorem runCalls_preserves {p : σ → Prop}
    (hAdd : ∀ {s}, p s → ∀ c label description,
      p (adder c label description s).2)
    (h : ∀ s ∈ ss, p s) (calls : List Call) :
    ∀ s ∈ (runCalls adder ss calls).2, p s := by
  have hAlike : Alike (fun s t => s = t ∧ p s) adder adder := by
    rintro s t ⟨rfl, hs⟩ c label description
    exact ⟨rfl, rfl, hAdd hs c label description⟩
  have hSame : List.Forall₂ (fun s t => s = t ∧ p s) ss ss :=
    List.forall₂_same.2 fun s hs => ⟨rfl, h s hs⟩
  have hLast := (runCalls_alike hAlike hSame calls).2
  exact fun s hs => (List.forall₂_same.1 hLast s hs).2

end Runs

/-! ## Where a program starts -/

/-- How the first table comes about. -/
inductive Origin where
  /-- The table with the reserved symbols. -/
  | reserved
  /-- The table that is read from lines. -/
  | lines (nonterminals terminals : List String)
  deriving DecidableEq, Repr

namespace Origin

/-- The alphabet that a program starts from. -/
def alphabet : Origin → Except SymbolError Alphabet
  | .reserved => .ok .initial
  | .lines nonterminals terminals => Alphabet.ofLines nonterminals terminals

/-- The table that a program starts from, if it comes about. -/
def table : Origin → Except SymbolError Unit × SymbolTable
  | .reserved => SymbolTable.reserve.on .empty
  | .lines nonterminals terminals =>
    (SymbolTable.ofLines nonterminals terminals).on .empty

theorem agrees (origin : Origin) :
    SymbolTable.Agrees origin.table origin.alphabet := by
  cases origin with
  | reserved => exact SymbolTable.agrees_reserve
  | lines nonterminals terminals =>
      exact SymbolTable.agrees_ofLines nonterminals terminals

theorem exists_table {origin : Origin} {al : Alphabet}
    (h : origin.alphabet = .ok al) :
    ∃ t, origin.table = (.ok (), t) ∧ t.Indexes al := by
  have hAgrees := origin.agrees
  rcases hTable : origin.table with ⟨_ | _, t⟩ <;> rw [hTable, h] at hAgrees
  · exact hAgrees.elim
  · exact ⟨t, rfl, hAgrees⟩

theorem wellFormed {origin : Origin} {al : Alphabet}
    (h : origin.alphabet = .ok al) : al.WellFormed := by
  cases origin with
  | reserved =>
      cases h
      exact Alphabet.wellFormed_initial
  | lines nonterminals terminals => exact Alphabet.wellFormed_ofLines h

end Origin

/-! ## Collections in step -/

namespace SymbolTable

/-- The collections of a table are in step with each other. -/
structure InStep (t : SymbolTable) : Prop where
  /-- From a number to its symbol and from its label back. -/
  idOfLabel_label : ∀ {id e}, t.entry id = .ok e →
    e.id = id ∧ t.idOfLabel e.label = .ok id
  /-- From a label to its number and from its symbol back. -/
  label_idOfLabel : ∀ {label id}, t.idOfLabel label = .ok id →
    ∃ e, t.entry id = .ok e ∧ e.label = label
  /-- The two rows hold no number twice. -/
  nodup : (t.row .nonterminal ++ t.row .terminal).Nodup
  /-- A row holds the numbers of its category. -/
  mem_row_iff : ∀ {c id}, id ∈ t.row c ↔ ∃ e, t.entry id = .ok e ∧ e.category = c
  /-- A symbol stands in the row of its category at its rank. -/
  idOfRank?_rank : ∀ {id e}, t.entry id = .ok e →
    t.idOfRank? e.category e.rank = some id
  start : ∃ e, t.entry startId = .ok e ∧ e.category = .nonterminal
  empty : ∃ e, t.entry emptyId = .ok e ∧ e.category = .terminal

/-- A table has what another one has, with the same numbers, labels, categories
and ranks. -/
structure Keeps (t u : SymbolTable) : Prop where
  entry : ∀ {id e}, t.entry id = .ok e → u.entry id = .ok e
  idOfLabel : ∀ {label id}, t.idOfLabel label = .ok id →
    u.idOfLabel label = .ok id
  row : ∀ c, t.row c <+: u.row c

theorem Keeps.refl (t : SymbolTable) : t.Keeps t :=
  ⟨id, id, fun _ => List.prefix_refl _⟩

theorem Keeps.trans {t u v : SymbolTable} (h : t.Keeps u) (h' : u.Keeps v) :
    t.Keeps v :=
  ⟨h'.entry ∘ h.entry, h'.idOfLabel ∘ h.idOfLabel,
    fun c => (h.row c).trans (h'.row c)⟩

namespace Indexes

variable {t : SymbolTable} {al : Alphabet}

/-- The collections of a table that indexes a well-formed alphabet are in
step. -/
theorem inStep (h : t.Indexes al) (hal : al.WellFormed) : t.InStep where
  idOfLabel_label hEntry := by
    obtain ⟨hId, hRow⟩ := h.entry_iff_ok.1 hEntry
    have hs := Alphabet.mem_symbols_iff.2 ⟨_, _, hRow⟩
    exact ⟨hId, h.idOfLabel_iff_ok.2 ⟨_, hs, rfl, hId⟩⟩
  label_idOfLabel hLabel := by
    obtain ⟨s, hs, hEq, hId⟩ := h.idOfLabel_iff_ok.1 hLabel
    obtain ⟨c, i, hRow⟩ := Alphabet.mem_symbols_iff.1 hs
    exact ⟨⟨s, c, i⟩, h.entry_iff_ok.2 ⟨hId, hRow⟩, hEq⟩
  nodup := by
    rw [h.row_eq, h.row_eq, ← Alphabet.map_id_symbols]
    exact hal.nodup_ids
  mem_row_iff {c id} := by rw [h.row_eq, h.mem_ids_iff]
  idOfRank?_rank hEntry := by
    obtain ⟨hId, hRow⟩ := h.entry_iff_ok.1 hEntry
    rw [h.answers.idOfRank?, Alphabet.idOfRank?, atSigned?_ofNat, hRow, ← hId]
    rfl
  start := h.mem_ids_iff.1 hal.start_mem
  empty := h.mem_ids_iff.1 hal.empty_mem

end Indexes

theorem keeps_stored {t : SymbolTable} {c : Category} {s : Symbol}
    (hLabel : s.label ∉ t.numbers) (hId : s.id ∉ t.entries) :
    t.Keeps (t.stored c s) where
  entry {id e} hEntry := by
    rw [entry_eq_ok_iff] at hEntry ⊢
    refine (getElem?_entries_stored t c s).2 (.inr ⟨?_, hEntry⟩)
    rintro rfl
    exact hId (Std.HashMap.mem_iff_isSome_getElem?.2 (hEntry ▸ rfl))
  idOfLabel {label id} hNumber := by
    rw [idOfLabel_eq_ok_iff] at hNumber ⊢
    refine (getElem?_numbers_stored t c s).2 (.inr ⟨?_, hNumber⟩)
    rintro rfl
    exact hLabel (Std.HashMap.mem_iff_isSome_getElem?.2 (hNumber ▸ rfl))
  row d := by
    by_cases hd : d = c
    · subst hd
      rw [row_stored]
      exact List.prefix_append _ _
    · have hRow := row_stored_of_ne t c s hd
      exact hRow ▸ List.prefix_refl _

/-- What may come of adding a symbol to a table: a number above all others, and
a table that holds the symbol at the end of its row beside all that was there; or
an error, and the table as it was. -/
def Added (t : SymbolTable) (c : Category) (label : String)
    (description : Option String) :
    Except SymbolError SymbolId × SymbolTable → Prop
  | (.ok id, u) => (∀ x e, t.entry x = .ok e → x < id) ∧
    u.entry id = .ok ⟨⟨id, label, description⟩, c, (t.row c).length⟩ ∧ t.Keeps u
  | (.error _, u) => u = t

theorem Added.keeps {t : SymbolTable} {c : Category} {label : String}
    {description : Option String}
    {result : Except SymbolError SymbolId × SymbolTable}
    (h : t.Added c label description result) : t.Keeps result.2 := by
  rcases result with ⟨_ | _, u⟩
  · rw [show u = t from h]
    exact .refl t
  · exact h.2.2

theorem Indexes.added {t : SymbolTable} {al : Alphabet} (h : t.Indexes al)
    (c : Category) (label : String) (description : Option String) :
    t.Added c label description ((add c label description).on t) := by
  rw [SymbolTable.on_add]
  split_ifs with hWord hLabel hId
  · rfl
  · rfl
  · rfl
  · have hNew := (getElem?_entries_stored t c ⟨t.nextId, label, description⟩).2
      (.inl ⟨rfl, rfl⟩)
    refine ⟨fun x e hEntry => ?_, entry_eq_ok_iff.2 hNew,
      keeps_stored hLabel hId⟩
    obtain ⟨rfl, hRow⟩ := h.entry_iff_ok.1 hEntry
    rw [h.nextId_eq]
    exact h.distinct.lt_nextId _ (Alphabet.mem_symbols_iff.2 ⟨_, _, hRow⟩)

/-- The way in which tables are added to. -/
def adder : Adder SymbolTable := fun c label description t =>
  (add c label description).on t

end SymbolTable

namespace Alphabet

/-- The way in which alphabets are added to. -/
def adder : Adder Alphabet := fun c label description al =>
  match al.add c label description with
  | .ok (id, extended) => (.ok id, extended)
  | .error e => (.error e, al)

theorem WellFormed.adder {al : Alphabet} (h : al.WellFormed) (c : Category)
    (label : String) (description : Option String) :
    (Alphabet.adder c label description al).2.WellFormed := by
  unfold Alphabet.adder
  split
  · rename_i hAdd
    exact h.add hAdd
  · exact h

end Alphabet

/-- An addition is answered alike by a table and by the alphabet that it
indexes. -/
theorem SymbolTable.Indexes.adder {t : SymbolTable} {al : Alphabet}
    (h : t.Indexes al) (c : Category) (label : String)
    (description : Option String) :
    (SymbolTable.adder c label description t).1 =
        (Alphabet.adder c label description al).1 ∧
      (SymbolTable.adder c label description t).2.Indexes
        (Alphabet.adder c label description al).2 := by
  have hAdd := h.on_add c label description
  unfold SymbolTable.adder Alphabet.adder
  cases hRun : al.add c label description with
  | error e =>
      simp only [hRun] at hAdd ⊢
      rw [hAdd]
      exact ⟨rfl, h⟩
  | ok result =>
      simp only [hRun] at hAdd ⊢
      obtain ⟨u, hOn, hu⟩ := hAdd
      rw [hOn]
      exact ⟨rfl, hu⟩

/-- Tables that keep what a first one has are added to as well-formed alphabets
are. -/
theorem alike_adder (first : SymbolTable) :
    Alike (fun t al => t.Indexes al ∧ al.WellFormed ∧ first.Keeps t)
      SymbolTable.adder Alphabet.adder := by
  rintro t al ⟨h, hal, hKeeps⟩ c label description
  obtain ⟨hAnswer, hNext⟩ := h.adder c label description
  exact ⟨hAnswer, hNext, hal.adder c label description,
    hKeeps.trans (h.added c label description).keeps⟩

/-- In every run, successful or not, from the reserved symbols or from lines
with any numbers, the tables answer as the alphabets do, all symbols of the first
table are in them as they were, their collections are in step, and each further
addition gives a number above all others and keeps what is there, or changes
nothing. -/
theorem inStep_of_runCalls (origin : Origin) {al : Alphabet}
    (h : origin.alphabet = .ok al) (calls : List Call) :
    ∃ t, origin.table = (.ok (), t) ∧
      (runCalls SymbolTable.adder [t] calls).1 =
        (runCalls Alphabet.adder [al] calls).1 ∧
      List.Forall₂ SymbolTable.Answers
        (runCalls SymbolTable.adder [t] calls).2
        (runCalls Alphabet.adder [al] calls).2 ∧
      ∀ u ∈ (runCalls SymbolTable.adder [t] calls).2, t.Keeps u ∧ u.InStep ∧
        ∀ c label description, u.Added c label description
          (SymbolTable.adder c label description u) := by
  obtain ⟨t, hTable, hIndexes⟩ := Origin.exists_table h
  have hStart : List.Forall₂
      (fun u al => u.Indexes al ∧ al.WellFormed ∧ t.Keeps u) [t] [al] :=
    .cons ⟨hIndexes, Origin.wellFormed h, .refl t⟩ .nil
  obtain ⟨hAnswers, hLast⟩ := runCalls_alike (alike_adder t) hStart calls
  refine ⟨t, hTable, hAnswers, hLast.imp fun _ _ hu => hu.1.answers, ?_⟩
  intro u hu
  obtain ⟨_, hIndexes, hWellFormed, hKeeps⟩ := exists_rel_of_mem hLast u hu
  exact ⟨hKeeps, hIndexes.inStep hWellFormed, hIndexes.added⟩

/-- An alphabet whose numbers are neither dense nor in order, nor all positive. -/
def sparse : Alphabet :=
  ⟨[⟨-3, "A", none⟩, ⟨startId, "S", none⟩],
    [⟨7, "x", some "a letter"⟩, ⟨emptyId, "e", none⟩], 8⟩

/-- The lines of this alphabet. -/
def sparseLines : Origin := .lines ["-3 A", "0 S"] ["7 x a letter", "1 e"]

/-- Additions to the alphabet and to a copy of it, some of them refused. -/
def sparseCalls : List Call :=
  [.add 0 .nonterminal "B" none, .clone 0, .add 1 .terminal "B" none,
    .add 1 .terminal "b c" none, .add 1 .terminal "b" none]

theorem alphabet_sparseLines : sparseLines.alphabet = .ok sparse := by
  decide

theorem inStep_of_runCalls_sparse :
    (runCalls Alphabet.adder [sparse] sparseCalls).1 =
        [some (.ok 8), none, some (.error (.duplicateLabel "B")),
          some (.error (.invalidLabel "b c")), some (.ok 9)] ∧
      ∃ t, sparseLines.table = (.ok (), t) ∧
        (runCalls SymbolTable.adder [t] sparseCalls).1 =
          (runCalls Alphabet.adder [sparse] sparseCalls).1 ∧
        List.Forall₂ SymbolTable.Answers
          (runCalls SymbolTable.adder [t] sparseCalls).2
          (runCalls Alphabet.adder [sparse] sparseCalls).2 ∧
        ∀ u ∈ (runCalls SymbolTable.adder [t] sparseCalls).2,
          t.Keeps u ∧ u.InStep ∧
            ∀ c label description, u.Added c label description
              (SymbolTable.adder c label description u) :=
  ⟨by decide,
    inStep_of_runCalls sparseLines alphabet_sparseLines sparseCalls⟩

end StochasticGrammar
