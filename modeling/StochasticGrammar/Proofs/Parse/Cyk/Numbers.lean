import StochasticGrammar.Proofs.Parse.Cyk.Filled
import StochasticGrammar.Proofs.Tree.Nodes

/-!
# The numbers in trees of the chart

The entries of a chart are numbered in the order in which they are added, so
the numbers of a cell lie before those of the cells that are filled later.  The
nodes of a tree come from cells of different spans, except that a rule to a
lone terminal stands in the cell of the terminal, at a position of its own.

Main results: the nodes of every tree that is read off a chart have pairwise
different numbers (`Parse.nodup_ids`).
-/

namespace StochasticGrammar.Cyk

variable {α : Type} {rules : List BinaryRule}

/-! ## Cells in the order of their numbers -/

/-- The cells of a chart, in the order in which they are filled. -/
def Chart.cells (c : Chart) : List Cell := c.toList.flatMap (·.toList)

/-- The numbers of a cell lie before those of another. -/
def Cell.Before (a b : Cell) : Prop := a.nextId ≤ b.firstId

/-- The entries of a cell that lead to an entry of the same cell do not lead to
themselves. -/
def Cell.Grounded (cell : Cell) : Prop :=
  ∀ {pos : Nat} {s : SymbolId} {left rule : Nat},
    cell.entries[pos]? = some ⟨s, .single left rule⟩ → left ≠ pos

/-- The cells of a chart are numbered one after the other. -/
structure Counted (c : Chart) : Prop where
  before : c.cells.Pairwise Cell.Before
  le_nextId : ∀ cell ∈ c.cells, cell.nextId ≤ c.nextId
  grounded : ∀ cell ∈ c.cells, cell.Grounded

theorem le_of_mem_numbered {id : Nat} {rows : List (List CellEntry)}
    {cell : Cell} (h : cell ∈ numbered id rows) :
    id ≤ cell.firstId ∧ cell.nextId ≤ id + rows.flatten.length := by
  induction rows generalizing id with
  | nil => cases h
  | cons entries rows ih =>
      rw [List.flatten_cons, List.length_append]
      rcases List.mem_cons.1 h with rfl | h
      · refine ⟨Nat.le_refl id, ?_⟩
        show id + entries.toArray.size ≤ _
        rw [List.size_toArray]
        omega
      · have hRest := ih h
        omega

theorem pairwise_numbered (id : Nat) (rows : List (List CellEntry)) :
    (numbered id rows).Pairwise Cell.Before := by
  induction rows generalizing id with
  | nil => exact .nil
  | cons entries rows ih =>
      refine .cons (fun cell hCell => ?_) (ih _)
      have hFrom := (le_of_mem_numbered hCell).1
      rwa [Cell.Before, Cell.nextId, List.size_toArray]

theorem nextId_getLast?_numbered (id : Nat) {rows : List (List CellEntry)}
    (h : rows ≠ []) : (numbered id rows).getLast?.map Cell.nextId =
      some (id + rows.flatten.length) := by
  induction rows generalizing id with
  | nil => exact absurd rfl h
  | cons entries rows ih =>
      cases rows with
      | nil => simp [numbered, Cell.nextId]
      | cons next rows =>
          have hRest := ih (id + entries.length) (List.cons_ne_nil _ _)
          rw [numbered] at hRest ⊢
          rw [numbered, List.getLast?_cons_cons, hRest]
          simp [Nat.add_assoc]

/-- Adding a row that is not empty goes on counting. -/
theorem Counted.push {c : Chart} (h : Counted c)
    (rows : List (List CellEntry)) (hRows : rows ≠ [])
    (hGrounded : ∀ cell ∈ numbered c.nextId rows, cell.Grounded) :
    Counted (c.push (numbered c.nextId rows).toArray) := by
  have hCells : Chart.cells (c.push (numbered c.nextId rows).toArray) =
      c.cells ++ numbered c.nextId rows := by
    simp [Chart.cells]
  have hNext : Chart.nextId (c.push (numbered c.nextId rows).toArray) =
      c.nextId + rows.flatten.length := by
    have hLast := nextId_getLast?_numbered c.nextId hRows
    rw [Chart.nextId, Array.back?_push, Option.bind_some,
      List.back?_toArray, hLast]
    rfl
  constructor
  · rw [hCells, List.pairwise_append]
    refine ⟨h.before, pairwise_numbered _ _, fun a ha b hb => ?_⟩
    exact Nat.le_trans (h.le_nextId a ha) (le_of_mem_numbered hb).1
  · intro cell hCell
    rw [hCells, List.mem_append] at hCell
    rw [hNext]
    rcases hCell with hCell | hCell
    · have := h.le_nextId cell hCell
      omega
    · exact (le_of_mem_numbered hCell).2
  · intro cell hCell
    rw [hCells, List.mem_append] at hCell
    rcases hCell with hCell | hCell
    · exact h.grounded cell hCell
    · exact hGrounded cell hCell

/-! ## The chart of an input -/

theorem counted_empty : Counted #[] where
  before := .nil
  le_nextId := by simp [Chart.cells]
  grounded := by simp [Chart.cells]

/-- The entries of a numbered row are those it was made from. -/
theorem exists_of_mem_numbered {id : Nat} {rows : List (List CellEntry)}
    {cell : Cell} (h : cell ∈ numbered id rows) :
    cell.entries.toList ∈ rows := by
  rw [← map_entries_numbered id rows]
  exact List.mem_map_of_mem h

theorem grounded_of_pairs {cell : Cell}
    (h : ∀ e ∈ cell.entries.toList, ∀ left rule, e.source ≠ .single left rule) :
    cell.Grounded := by
  intro pos s left rule hEntry
  have hMem : (⟨s, .single left rule⟩ : CellEntry) ∈ cell.entries.toList :=
    Array.mem_toList_iff.2 (Array.mem_of_getElem? hEntry)
  exact absurd rfl (h _ hMem left rule)

theorem Counted.addRow {c : Chart} (h : Counted c) {n d : Nat} (hLt : d < n) :
    Counted (c.addRow rules n d) := by
  refine h.push _ ?_ fun cell hCell => grounded_of_pairs fun e he left rule => ?_
  · simp only [ne_eq, List.map_eq_nil_iff, List.range_eq_nil]
    omega
  · obtain ⟨start, _, hEntries⟩ :=
      List.mem_map.1 (exists_of_mem_numbered hCell)
    rw [← hEntries] at he
    obtain ⟨_, _, _, he⟩ := mem_spanEntries.1 he
    obtain ⟨_, _, _, _, _, _, _, _, _, _, rfl⟩ := mem_splitEntries.1 he
    simp

theorem counted_diagonal {input : List SymbolId} (hInput : input ≠ []) :
    Counted #[diagonal input] := by
  refine counted_empty.push _ (by simpa using hInput) fun cell hCell =>
    grounded_of_pairs fun e he left rule => ?_
  obtain ⟨t, _, hEntries⟩ := List.mem_map.1 (exists_of_mem_numbered hCell)
  rw [← hEntries, List.mem_singleton] at he
  rw [he]
  simp

/-- A rule to a lone terminal stands after the terminal. -/
theorem grounded_loneCell (g : Grammar α) (terminal : SymbolId) :
    (loneCell g terminal).Grounded := by
  intro pos s left rule hEntry
  rw [loneCell, List.getElem?_toArray] at hEntry
  cases pos with
  | zero => simp at hEntry
  | succ pos =>
      rw [List.getElem?_cons_succ] at hEntry
      obtain ⟨_, _, hEntry⟩ := List.mem_map.1 (List.mem_of_getElem? hEntry)
      simp only [CellEntry.mk.injEq, Source.single.injEq] at hEntry
      omega

/-- The cells of the chart of an input are numbered one after the other. -/
theorem counted_make (g : Grammar α) (input : List SymbolId) :
    Counted (.make g input) := by
  unfold Chart.make
  split
  · exact counted_empty
  · rename_i terminal
    refine counted_empty.push [(loneCell g terminal).entries.toList]
      (by simp) fun cell hCell => ?_
    rw [List.mem_singleton.1 hCell]
    exact grounded_loneCell g terminal
  · rename_i hNe _
    have hFold : ∀ m, m < input.length → Counted ((List.range m).foldl
        (fun c d => c.addRow (binaryRules g) input.length (d + 1))
        #[diagonal input]) := by
      intro m
      induction m with
      | zero =>
          intro _
          exact counted_diagonal hNe
      | succ m ih =>
          intro hLt
          rw [List.range_succ, List.foldl_append]
          exact (ih (by omega)).addRow hLt
    have hPos := List.length_pos_iff.2 hNe
    exact hFold _ (by omega)

/-! ## Numbers and spans -/

/-- The cell of a span has a number. -/
def Chart.Numbers (c : Chart) (stop start : Nat) (id : Int) : Prop :=
  ∃ cell, c.cell? stop start = some cell ∧ (cell.firstId : Int) ≤ id ∧
    id < cell.nextId

theorem rel_of_getElem? {β : Type} {R : β → β → Prop} {xs : List β}
    (h : xs.Pairwise R) {i j : Nat} {a b : β} (ha : xs[i]? = some a)
    (hb : xs[j]? = some b) (hLt : i < j) : R a b := by
  obtain ⟨hi, rfl⟩ := List.getElem?_eq_some_iff.1 ha
  obtain ⟨hj, rfl⟩ := List.getElem?_eq_some_iff.1 hb
  exact List.pairwise_iff_getElem.1 h i j hi hj hLt

theorem exists_row {c : Chart} {stop start : Nat} {cell : Cell}
    (h : c.cell? stop start = some cell) : start ≤ stop ∧ ∃ row,
      c.toList[stop - start]? = some row ∧ row.toList[start]? = some cell := by
  unfold Chart.cell? at h
  split at h
  · rename_i hLe
    obtain ⟨row, hRow, hCell⟩ := Option.bind_eq_some_iff.1 h
    exact ⟨hLe, row, by rwa [Array.getElem?_toList],
      by rwa [Array.getElem?_toList]⟩
  · cases h

theorem mem_cells {c : Chart} {stop start : Nat} {cell : Cell}
    (h : c.cell? stop start = some cell) : cell ∈ c.cells := by
  obtain ⟨_, row, hRow, hCell⟩ := exists_row h
  exact List.mem_flatMap.2
    ⟨row, List.mem_of_getElem? hRow, List.mem_of_getElem? hCell⟩

/-- A cell is numbered before those of longer spans and before those of spans
of its length further right. -/
theorem Counted.before_of_lt {c : Chart} (h : Counted c)
    {stop start stop' start' : Nat} {a b : Cell}
    (ha : c.cell? stop start = some a) (hb : c.cell? stop' start' = some b)
    (hLt : stop - start < stop' - start' ∨
      stop - start = stop' - start' ∧ start < start') : a.Before b := by
  obtain ⟨_, row, hRow, hCell⟩ := exists_row ha
  obtain ⟨_, row', hRow', hCell'⟩ := exists_row hb
  obtain ⟨hSame, hRows⟩ := List.pairwise_flatMap.1 h.before
  rcases hLt with hShorter | ⟨hLength, hLeft⟩
  · exact rel_of_getElem? hRows hRow hRow' hShorter a
      (List.mem_of_getElem? hCell) b (List.mem_of_getElem? hCell')
  · rw [← hLength, hRow, Option.some.injEq] at hRow'
    rw [← hRow'] at hCell'
    exact rel_of_getElem? (hSame row (List.mem_of_getElem? hRow)) hCell hCell'
      hLeft

/-- A number belongs to one span. -/
theorem Counted.span_eq {c : Chart} (h : Counted c)
    {stop start stop' start' : Nat} {id : Int} (ha : c.Numbers stop start id)
    (hb : c.Numbers stop' start' id) : stop = stop' ∧ start = start' := by
  obtain ⟨a, hCell, hFrom, hTo⟩ := ha
  obtain ⟨b, hCell', hFrom', hTo'⟩ := hb
  have hLe := (exists_row hCell).1
  have hLe' := (exists_row hCell').1
  have hNot : ¬ a.Before b := by
    rw [Cell.Before]
    omega
  have hNot' : ¬ b.Before a := by
    rw [Cell.Before]
    omega
  have hFirst := mt (h.before_of_lt hCell hCell') hNot
  have hSecond := mt (h.before_of_lt hCell' hCell) hNot'
  omega

/-! ## Trees -/

/-- A number of a cell within a span. -/
def Chart.NumbersWithin (c : Chart) (stop start : Nat) (id : Int) : Prop :=
  ∃ stop' start', start ≤ start' ∧ stop' ≤ stop ∧ c.Numbers stop' start' id

theorem Chart.numbers_entry {c : Chart} {stop start pos : Nat} {cell : Cell}
    {e : CellEntry} (hCell : c.cell? stop start = some cell)
    (hEntry : cell.entries[pos]? = some e) :
    c.Numbers stop start (cell.firstId + pos) := by
  have hLt := (Array.getElem?_eq_some_iff.1 hEntry).1
  refine ⟨cell, hCell, by omega, ?_⟩
  rw [Cell.nextId]
  omega

theorem Chart.Numbers.within {c : Chart} {stop start : Nat} {id : Int}
    (h : c.Numbers stop start id) : c.NumbersWithin stop start id :=
  ⟨stop, start, Nat.le_refl _, Nat.le_refl _, h⟩

theorem Chart.NumbersWithin.mono {c : Chart} {stop start stop' start' : Nat}
    {id : Int} (h : c.NumbersWithin stop' start' id) (hFrom : start ≤ start')
    (hTo : stop' ≤ stop) : c.NumbersWithin stop start id := by
  obtain ⟨a, b, hb, ha, hId⟩ := h
  exact ⟨a, b, Nat.le_trans hFrom hb, Nat.le_trans ha hTo, hId⟩

/-- Spans side by side share no numbers. -/
theorem Counted.ne_of_beside {c : Chart} (h : Counted c)
    {stop start stop' start' : Nat} {id id' : Int} (hLt : stop < start')
    (hId : c.NumbersWithin stop start id)
    (hId' : c.NumbersWithin stop' start' id') : id ≠ id' := by
  rintro rfl
  obtain ⟨a, b, _, ha, hCell⟩ := hId
  obtain ⟨a', b', hb', _, hCell'⟩ := hId'
  obtain ⟨cell, hGet, _⟩ := hCell
  have hLe := (exists_row hGet).1
  have hSpan := h.span_eq ⟨cell, hGet, ‹_›⟩ hCell'
  omega

/-- A span shares no numbers with its proper parts. -/
theorem Counted.ne_of_part {c : Chart} (h : Counted c)
    {stop start stop' start' : Nat} {id id' : Int}
    (hPart : stop' < stop ∨ start < start') (hId : c.Numbers stop start id)
    (hId' : c.NumbersWithin stop' start' id') : id ≠ id' := by
  rintro rfl
  obtain ⟨a', b', hb', ha', hCell'⟩ := hId'
  have hSpan := h.span_eq hId hCell'
  omega

/-- The numbers of a list belong to cells within a span and are pairwise
different. -/
def Chart.Separates (c : Chart) (stop start : Nat) (ids : List Int) : Prop :=
  (∀ id ∈ ids, c.NumbersWithin stop start id) ∧ ids.Nodup

/-- The number of a span joins those of its two parts. -/
theorem Counted.separates_pair {c : Chart} (h : Counted c)
    {stop start split : Nat} (hFrom : start ≤ split) (hTo : split < stop)
    {id : Int} {ids ids' : List Int} (hId : c.Numbers stop start id)
    (hIds : c.Separates split start ids)
    (hIds' : c.Separates stop (split + 1) ids') :
    c.Separates stop start (id :: (ids ++ ids')) := by
  constructor
  · intro i hi
    rcases List.mem_cons.1 hi with rfl | hi
    · exact hId.within
    · rcases List.mem_append.1 hi with hi | hi
      · exact (hIds.1 i hi).mono (Nat.le_refl _) (Nat.le_of_lt hTo)
      · exact (hIds'.1 i hi).mono (by omega) (Nat.le_refl _)
  · rw [List.nodup_cons, List.nodup_append]
    refine ⟨fun hi => ?_, hIds.2, hIds'.2, fun i hi j hj => ?_⟩
    · rcases List.mem_append.1 hi with hi | hi
      · exact h.ne_of_part (.inl hTo) hId (hIds.1 _ hi) rfl
      · exact h.ne_of_part (.inr (by omega)) hId (hIds'.1 _ hi) rfl
    · exact h.ne_of_beside (Nat.lt_succ_self split) (hIds.1 i hi)
        (hIds'.1 j hj)

/-- The nodes of a tree that is read off a chart have numbers of cells within
the span, pairwise different. -/
theorem Counted.separates_buildAt {c : Chart} (h : Counted c)
    {stop start pos : Nat} {t : ParseTree}
    (hBuild : Parse.buildAt c stop start pos = some t) :
    c.Separates stop start t.ids := by
  generalize hLength : stop - start = n
  induction n using Nat.strongRecOn generalizing stop start pos t with
  | _ n ih =>
      rw [Parse.buildAt] at hBuild
      obtain ⟨cell, hCell, hBuild⟩ := Option.bind_eq_some_iff.1 hBuild
      obtain ⟨⟨s, source⟩, hEntry, hBuild⟩ := Option.bind_eq_some_iff.1 hBuild
      have hRoot := Chart.numbers_entry hCell hEntry
      cases source with
      | terminal =>
          cases hBuild
          simpa [Chart.Separates, ParseTree.leafOf] using hRoot.within
      | single left rule =>
          obtain ⟨below, hBelow, hBuild⟩ := Option.bind_eq_some_iff.1 hBuild
          cases hBuild
          have hNe := h.grounded cell (mem_cells hCell) hEntry
          have hLeaf := Chart.numbers_entry hCell hBelow
          have hIds : (ParseTree.node
              ⟨.cyk, cell.firstId + pos, some rule, s⟩ [.leafOf
                ⟨.cyk, cell.firstId + left, none, below.symbol⟩]).ids =
              [(cell.firstId : Int) + pos, cell.firstId + left] := by
            simp [ParseTree.leafOf]
          rw [hIds]
          exact ⟨List.forall_mem_cons.2 ⟨hRoot.within,
            List.forall_mem_singleton.2 hLeaf.within⟩,
            by simpa [Int.natCast_inj] using hNe.symm⟩
      | pair split left right rule =>
          dsimp only at hBuild
          split at hBuild
          · rename_i hSplit
            obtain ⟨first, hFirst, hBuild⟩ := Option.bind_eq_some_iff.1 hBuild
            obtain ⟨second, hSecond, hBuild⟩ :=
              Option.bind_eq_some_iff.1 hBuild
            cases hBuild
            rw [ParseTree.ids_node, List.flatMap_cons, List.flatMap_singleton]
            exact h.separates_pair hSplit.1 hSplit.2 hRoot
              (ih _ (by omega) hFirst rfl) (ih _ (by omega) hSecond rfl)
          · cases hBuild

/-- The trees of a parse have pairwise different numbers at their nodes,
whatever numbers were drawn before. -/
theorem Parse.nodup_ids {g : Grammar α} {input : List SymbolId}
    {p : Parse α} (h : Parse.make g input = .ok p) {ix n m : Nat}
    {t : ParseTree}
    (hBuild : (p.derivations.build ix).run.run n = (.ok t, m)) :
    t.ids.Nodup := by
  unfold Parse.make at h
  split at h
  · cases h
  · cases h
    unfold derivations at hBuild
    split at hBuild
    · -- the nodes of the trees of the empty input are numbered anew
      unfold emptyDerivations at hBuild
      dsimp only at hBuild
      split at hBuild
      · cases hBuild
        simp [ParseTree.leafOf, Int.ne_of_lt (Int.lt_succ n)]
      · cases hBuild
    · unfold chartDerivations at hBuild
      dsimp only at hBuild
      split at hBuild
      · rename_i hSome
        cases hBuild
        obtain ⟨pos, _, hTree⟩ := Option.bind_eq_some_iff.1 hSome
        exact ((counted_make g input).separates_buildAt hTree).2
      · cases hBuild

end StochasticGrammar.Cyk
