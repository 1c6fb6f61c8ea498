import Mathlib.Data.List.Nodup
import StochasticGrammar.Parse.Cyk.Basic

/-!
# The filled chart

Adding a row leaves the cells of the shorter spans alone, and the entries of a
span are made from shorter spans only.  So the cells of a filled chart satisfy
one equation, in which the order of filling no longer shows: the entries of a
span are the `spanEntries` of the chart itself.

Main results: the equation holds of the chart of every input of two and more
terminals (`filled_make`), and no entry of a span occurs twice
(`nodup_spanEntries`).
-/

namespace StochasticGrammar.Cyk

variable {α : Type} {rules : List BinaryRule} {input : List SymbolId}

/-! ## Entries of a span -/

/-- The entries of the cell of a span. -/
def Chart.entries? (c : Chart) (stop start : Nat) : Option (List CellEntry) :=
  (c.cell? stop start).map (·.entries.toList)

/-- The chart satisfies the equation of a filled chart on the spans of at most
`d` terminals. -/
structure Filled (rules : List BinaryRule) (input : List SymbolId)
    (c : Chart) (d : Nat) : Prop where
  size_eq : c.size = d
  pos : 0 < d
  diagonal : ∀ {i : Nat} {t : SymbolId}, input[i]? = some t →
    c.entries? i i = some [⟨t, .terminal⟩]
  span : ∀ {start stop : Nat}, start < stop → stop < input.length →
    stop - start < d →
    c.entries? stop start = some (spanEntries rules c stop start)

theorem map_entries_numbered (id : Nat) (rows : List (List CellEntry)) :
    (numbered id rows).map (·.entries.toList) = rows := by
  induction rows generalizing id with
  | nil => rfl
  | cons entries rows ih => simp [numbered, ih]

/-- The numbers of the entries do not matter for the entries of a row. -/
theorem entries_numbered (id : Nat) (rows : List (List CellEntry)) (i : Nat) :
    ((numbered id rows).toArray[i]?).map (·.entries.toList) = rows[i]? := by
  rw [List.getElem?_toArray, ← List.getElem?_map, map_entries_numbered]

/-! ## Adding a row -/

section AddRow

variable {c : Chart} {n d : Nat}

theorem cell?_addRow (stop start : Nat) (hShort : stop - start < c.size) :
    (c.addRow rules n d).cell? stop start = c.cell? stop start := by
  unfold Chart.cell? Chart.addRow
  by_cases hLe : start ≤ stop
  · rw [if_pos hLe, if_pos hLe, Array.getElem?_push_lt hShort,
      ← Array.getElem?_eq_getElem hShort]
  · rw [if_neg hLe, if_neg hLe]

/-- The entries of a span do not change with the row of the span. -/
theorem spanEntries_addRow {stop start : Nat}
    (hShort : stop - start ≤ c.size) :
    spanEntries rules (c.addRow rules n d) stop start =
      spanEntries rules c stop start := by
  unfold spanEntries
  apply List.flatMap_congr
  intro k hk
  rw [List.mem_range] at hk
  unfold splitEntries
  rw [cell?_addRow (start + k) start (by omega),
    cell?_addRow stop (start + k + 1) (by omega)]

theorem entries?_addRow_last (hSize : c.size = d) {start : Nat}
    (hStart : start < n - d) :
    (c.addRow rules n d).entries? (start + d) start =
      some (spanEntries rules c (start + d) start) := by
  unfold Chart.entries? Chart.cell? Chart.addRow
  rw [if_pos (Nat.le_add_right start d), Nat.add_sub_cancel_left, ← hSize,
    Array.getElem?_push_size, Option.bind_some, entries_numbered,
    List.getElem?_map, List.getElem?_range (by omega)]
  rfl

/-- Adding the row of the next length extends the equation to it. -/
theorem Filled.addRow (h : Filled rules input c d) :
    Filled rules input (c.addRow rules input.length d) (d + 1) := by
  have hSize := h.size_eq
  have hPos := h.pos
  refine ⟨by simp [Chart.addRow, hSize], by omega, fun {i t} hInput => ?_,
    fun {start stop} hLt hStop hShort => ?_⟩
  · rw [Chart.entries?, cell?_addRow _ _ (by omega)]
    exact h.diagonal hInput
  · rw [spanEntries_addRow (by omega)]
    by_cases hBefore : stop - start < d
    · rw [Chart.entries?, cell?_addRow _ _ (by omega)]
      exact h.span hLt hStop hBefore
    · have hStart : stop = start + d := by omega
      rw [hStart]
      exact entries?_addRow_last hSize (by omega)

end AddRow

theorem filled_diagonal (rules : List BinaryRule) (input : List SymbolId) :
    Filled rules input #[diagonal input] 1 := by
  refine ⟨rfl, by omega, fun {i t} hInput => ?_,
    fun {start stop} hLt _ hShort => by omega⟩
  rw [Chart.entries?, Chart.cell?, if_pos (Nat.le_refl i), Nat.sub_self]
  show ((diagonal input)[i]?).map (·.entries.toList) = _
  rw [diagonal, entries_numbered, List.getElem?_map, hInput]
  rfl

/-- The chart of an input of two and more terminals is filled. -/
theorem filled_make (g : Grammar α) {input : List SymbolId}
    (hLong : 2 ≤ input.length) :
    Filled (binaryRules g) input (.make g input) input.length := by
  have hFold : ∀ m, Filled (binaryRules g) input
      ((List.range m).foldl (fun c d =>
        c.addRow (binaryRules g) input.length (d + 1)) #[diagonal input])
      (m + 1) := by
    intro m
    induction m with
    | zero => exact filled_diagonal _ input
    | succ m ih =>
        rw [List.range_succ, List.foldl_append]
        exact ih.addRow
  have hMake : Chart.make g input = (List.range (input.length - 1)).foldl
      (fun (c : Chart) d => c.addRow (binaryRules g) input.length (d + 1))
      #[diagonal input] := by
    unfold Chart.make
    split
    · simp at hLong
    · simp at hLong
    · rfl
  have hLast := hFold (input.length - 1)
  rwa [← hMake, Nat.sub_add_cancel (by omega)] at hLast

theorem Filled.exists_cell {c : Chart} {d start stop : Nat}
    (h : Filled rules input c d) (hLe : start ≤ stop)
    (hStop : stop < input.length) (hShort : stop - start < d) :
    ∃ cell, c.cell? stop start = some cell := by
  have hSome : ∃ es, c.entries? stop start = some es := by
    by_cases hLt : start < stop
    · exact ⟨_, h.span hLt hStop hShort⟩
    · have hEq : start = stop := by omega
      rw [hEq]
      exact ⟨_, h.diagonal (List.getElem?_eq_getElem hStop)⟩
  obtain ⟨es, hEntries⟩ := hSome
  obtain ⟨cell, hCell, _⟩ := Option.map_eq_some_iff.1 hEntries
  exact ⟨cell, hCell⟩

/-! ## Which entries a span has -/

theorem mem_binaryRules {g : Grammar α} {b : BinaryRule} :
    b ∈ binaryRules g ↔ ∃ r, g.rules[b.rule]? = some r ∧ r.lhs = b.lhs ∧
      r.rhs = [b.first, b.second] := by
  simp only [binaryRules, List.mem_filterMap, Prod.exists,
    List.mk_mem_zipIdx_iff_getElem?]
  constructor
  · rintro ⟨r, ix, hRule, hMatch⟩
    split at hMatch
    · rename_i first second hRhs
      cases hMatch
      exact ⟨r, hRule, rfl, hRhs⟩
    · cases hMatch
  · rintro ⟨r, hRule, hLhs, hRhs⟩
    exact ⟨r, b.rule, hRule, by simp [hRhs, hLhs]⟩

theorem pairwise_zipIdx {β : Type} (xs : List β) :
    xs.zipIdx.Pairwise fun x y => x.2 ≠ y.2 := by
  rw [← List.pairwise_map (f := Prod.snd) (R := (· ≠ ·)),
    List.zipIdx_map_snd]
  exact List.nodup_range'

theorem pairwise_binaryRules (g : Grammar α) :
    (binaryRules g).Pairwise fun b c => b.rule ≠ c.rule := by
  refine List.Pairwise.filterMap _ ?_ (pairwise_zipIdx g.rules)
  rintro ⟨r, i⟩ ⟨s, j⟩ hNe b hb c hc
  dsimp only at hb hc
  split at hb <;> cases hb
  split at hc <;> cases hc
  exact hNe

theorem mem_startRulesTo {g : Grammar α} {symbol : SymbolId} {ix : Nat} :
    ix ∈ startRulesTo g symbol ↔ ∃ r, g.rules[ix]? = some r ∧
      r.lhs = startId ∧ r.rhs = [symbol] := by
  simp [startRulesTo, List.mk_mem_zipIdx_iff_getElem?]

theorem nodup_startRulesTo (g : Grammar α) (symbol : SymbolId) :
    (startRulesTo g symbol).Nodup := by
  rw [startRulesTo, List.Nodup, List.pairwise_map]
  exact (pairwise_zipIdx g.rules).filter _

theorem mem_positions {cell : Cell} {symbol : SymbolId} {pos : Nat} :
    pos ∈ cell.positions symbol ↔
      ∃ e, cell.entries[pos]? = some e ∧ e.symbol = symbol := by
  simp only [Cell.positions, List.mem_filter, List.mem_range, beq_iff_eq,
    Option.map_eq_some_iff]
  constructor
  · rintro ⟨_, h⟩
    exact h
  · rintro ⟨e, he, hSymbol⟩
    exact ⟨(Array.getElem?_eq_some_iff.1 he).1, e, he, hSymbol⟩

theorem nodup_positions (cell : Cell) (symbol : SymbolId) :
    (cell.positions symbol).Nodup :=
  List.nodup_range.filter _

/-- The entries that a split point contributes. -/
theorem mem_splitEntries {c : Chart} {stop start split : Nat}
    {e : CellEntry} :
    e ∈ splitEntries rules c stop start split ↔
      ∃ left right, c.cell? split start = some left ∧
        c.cell? stop (split + 1) = some right ∧
        ∃ r ∈ rules, ∃ l ∈ left.positions r.first,
          ∃ k ∈ right.positions r.second,
            e = ⟨r.lhs, .pair split l k r.rule⟩ := by
  unfold splitEntries
  cases hLeft : c.cell? split start with
  | none => simp
  | some left =>
      cases hRight : c.cell? stop (split + 1) with
      | none => simp
      | some right =>
          simp [eq_comm]

theorem nodup_splitEntries {c : Chart} {stop start split : Nat}
    (hRules : rules.Pairwise fun b c => b.rule ≠ c.rule) :
    (splitEntries rules c stop start split).Nodup := by
  unfold splitEntries
  split
  · rename_i left right _ _
    rw [List.nodup_flatMap]
    refine ⟨fun r _ => ?_, hRules.imp fun {b c} hNe => ?_⟩
    · rw [List.nodup_flatMap]
      refine ⟨fun l _ => ?_, (nodup_positions left r.first).imp
        fun {l m} hNe => ?_⟩
      · refine (nodup_positions right r.second).map ?_
        intro k m hSame
        simpa using hSame
      · refine List.disjoint_left.2 ?_
        intro e he he'
        obtain ⟨_, _, rfl⟩ := List.mem_map.1 he
        obtain ⟨_, _, hSame⟩ := List.mem_map.1 he'
        simp only [CellEntry.mk.injEq, Source.pair.injEq] at hSame
        exact hNe hSame.2.2.1.symm
    · refine List.disjoint_left.2 ?_
      intro e he he'
      simp only [List.mem_flatMap, List.mem_map] at he he'
      obtain ⟨_, _, _, _, rfl⟩ := he
      obtain ⟨_, _, _, _, hSame⟩ := he'
      simp only [CellEntry.mk.injEq, Source.pair.injEq] at hSame
      exact hNe hSame.2.2.2.2.symm
  · exact List.nodup_nil

theorem mem_spanEntries {c : Chart} {stop start : Nat} {e : CellEntry} :
    e ∈ spanEntries rules c stop start ↔
      ∃ split, start ≤ split ∧ split < stop ∧
        e ∈ splitEntries rules c stop start split := by
  simp only [spanEntries, List.mem_flatMap, List.mem_range]
  constructor
  · rintro ⟨k, hk, he⟩
    exact ⟨start + k, by omega, by omega, he⟩
  · rintro ⟨split, hFrom, hTo, he⟩
    refine ⟨split - start, by omega, ?_⟩
    rwa [Nat.add_sub_cancel' hFrom]

/-- No entry of a span occurs twice: the split point, the positions of the
children and the rule tell the entries apart. -/
theorem nodup_spanEntries {c : Chart} {stop start : Nat}
    (hRules : rules.Pairwise fun b c => b.rule ≠ c.rule) :
    (spanEntries rules c stop start).Nodup := by
  rw [spanEntries, List.nodup_flatMap]
  refine ⟨fun k _ => nodup_splitEntries hRules,
    List.nodup_range.imp fun {k m} hNe => ?_⟩
  refine List.disjoint_left.2 ?_
  intro e he he'
  obtain ⟨_, _, _, _, _, _, _, _, _, _, rfl⟩ := mem_splitEntries.1 he
  obtain ⟨_, _, _, _, _, _, _, _, _, _, hSame⟩ := mem_splitEntries.1 he'
  simp only [CellEntry.mk.injEq, Source.pair.injEq] at hSame
  omega

end StochasticGrammar.Cyk
