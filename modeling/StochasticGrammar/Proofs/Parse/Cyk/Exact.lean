import StochasticGrammar.Proofs.Parse.Listing
import StochasticGrammar.Proofs.Parse.Cyk.Filled

/-!
# Exactness of Cocke-Younger-Kasami parsing

The entries of the cell of a span are the derivation trees of the span whose
nodes have two children each (`exact_of_filled`): the tree of every entry is
one, different entries have different trees, and no tree is missing.  The
induction is on the length of the span, since the entries of a span refer to
positions in the cells of shorter spans.

Main results: the trees that are offered are pairwise different, and they are
the derivation trees of the input of the kinds that the parser knows
(`Parse.make_lists`).
-/

namespace StochasticGrammar

/-- Every node with a rule has two children. -/
inductive ParseTree.Binary : ParseTree → Prop
  | terminal (s : SymbolId) : Binary (.terminal s)
  | branch (rule : Nat) (s : SymbolId) {t u : ParseTree} :
      Binary t → Binary u → Binary (.branch rule s [t, u])

theorem ParseTree.Binary.length_yield_pos {t : ParseTree} (h : t.Binary) :
    0 < t.yield.length := by
  induction h with
  | terminal s => simp
  | branch rule s _ _ ih _ =>
      simp only [ParseTree.yield_branch, ParseTree.yieldList_cons,
        List.length_append]
      omega

namespace Cyk

variable {α : Type}

/-! ## Spans of the input -/

/-- The part of the input from `start` to `stop`, both included. -/
def span (input : List SymbolId) (start stop : Nat) : List SymbolId :=
  (input.take (stop + 1)).drop start

theorem span_self {input : List SymbolId} {i : Nat} {t : SymbolId}
    (h : input[i]? = some t) : span input i i = [t] := by
  obtain ⟨hLt, rfl⟩ := List.getElem?_eq_some_iff.1 h
  have hLength : (input.take i).length = i :=
    List.length_take_of_le (Nat.le_of_lt hLt)
  rw [span, List.take_succ_eq_append_getElem hLt,
    List.drop_append_of_le_length (Nat.le_of_eq hLength.symm),
    List.drop_eq_nil_of_le (Nat.le_of_eq hLength)]
  rfl

theorem span_append (input : List SymbolId) {start split stop : Nat}
    (hFrom : start ≤ split) (hTo : split < stop) :
    span input start split ++ span input (split + 1) stop =
      span input start stop := by
  unfold span
  have hTake : input.take (split + 1) =
      (input.take (stop + 1)).take (split + 1) := by
    rw [List.take_take, Nat.min_eq_left (by omega)]
  rw [hTake]
  generalize input.take (stop + 1) = xs
  rw [List.drop_take]
  have hDrop : xs.drop (split + 1) =
      (xs.drop start).drop (split + 1 - start) := by
    rw [List.drop_drop, Nat.add_sub_cancel' (by omega)]
  rw [hDrop, List.take_append_drop]

theorem length_span {input : List SymbolId} {start stop : Nat}
    (hStop : stop < input.length) :
    (span input start stop).length = stop + 1 - start := by
  rw [span, List.length_drop, List.length_take, Nat.min_eq_left (by omega)]

/-- The trees that the cell of a span is to hold. -/
structure SpanTree (g : Grammar α) (input : List SymbolId)
    (start stop : Nat) (t : ParseTree) : Prop where
  isDerivation : t.IsDerivation g
  binary : t.Binary
  yield_eq : t.yield = span input start stop

/-! ## Shapes of built trees -/

/-- The shape of the tree of an entry. -/
def shape? (c : Chart) (stop start pos : Nat) : Option ParseTree :=
  (Parse.buildAt c stop start pos).map ParseTree.shape

section Shape

variable {c : Chart} {stop start pos : Nat} {cell : Cell} {s : SymbolId}

theorem shape?_terminal (hCell : c.cell? stop start = some cell)
    (hEntry : cell.entries[pos]? = some ⟨s, .terminal⟩) :
    shape? c stop start pos = some (.terminal s) := by
  rw [shape?, Parse.buildAt, hCell]
  simp [hEntry, ParseTree.leafOf, ParseTree.shape, ParseTree.shapeList,
    ParseTree.terminal]

theorem shape?_single {left rule : Nat} {below : CellEntry}
    (hCell : c.cell? stop start = some cell)
    (hEntry : cell.entries[pos]? = some ⟨s, .single left rule⟩)
    (hBelow : cell.entries[left]? = some below) :
    shape? c stop start pos =
      some (.branch rule s [.terminal below.symbol]) := by
  rw [shape?, Parse.buildAt, hCell]
  simp [hEntry, hBelow, ParseTree.leafOf, ParseTree.shape,
    ParseTree.shapeList, ParseTree.terminal, ParseTree.branch]

theorem shape?_pair {split left right rule : Nat} {t u : ParseTree}
    (hCell : c.cell? stop start = some cell)
    (hEntry : cell.entries[pos]? = some ⟨s, .pair split left right rule⟩)
    (hFrom : start ≤ split) (hTo : split < stop)
    (hLeft : shape? c split start left = some t)
    (hRight : shape? c stop (split + 1) right = some u) :
    shape? c stop start pos = some (.branch rule s [t, u]) := by
  obtain ⟨first, hFirst, rfl⟩ := Option.map_eq_some_iff.1 hLeft
  obtain ⟨second, hSecond, rfl⟩ := Option.map_eq_some_iff.1 hRight
  rw [shape?, Parse.buildAt, hCell]
  simp [hEntry, hFrom, hTo, hFirst, hSecond, ParseTree.shape,
    ParseTree.shapeList, ParseTree.branch]

/-- Only entries have trees. -/
theorem exists_entry {t : ParseTree}
    (hShape : shape? c stop start pos = some t) :
    ∃ cell e, c.cell? stop start = some cell ∧
      cell.entries[pos]? = some e := by
  obtain ⟨u, hBuild, _⟩ := Option.map_eq_some_iff.1 hShape
  rw [Parse.buildAt] at hBuild
  obtain ⟨cell, hCell, hBuild⟩ := Option.bind_eq_some_iff.1 hBuild
  obtain ⟨e, hEntry, _⟩ := Option.bind_eq_some_iff.1 hBuild
  exact ⟨cell, e, hCell, hEntry⟩

end Shape

/-! ## The trees of a cell -/

/-- The entries of a cell are the trees of its span. -/
structure CellExact (g : Grammar α) (input : List SymbolId) (c : Chart)
    (stop start : Nat) (cell : Cell) : Prop where
  sound : ∀ {pos : Nat} {e : CellEntry}, cell.entries[pos]? = some e →
    ∃ t, shape? c stop start pos = some t ∧ t.symbol = e.symbol ∧
      SpanTree g input start stop t
  distinct : ∀ {pos pos' : Nat} {t : ParseTree},
    shape? c stop start pos = some t → shape? c stop start pos' = some t →
    pos = pos'
  complete : ∀ {t : ParseTree}, SpanTree g input start stop t →
    ∃ pos, shape? c stop start pos = some t

theorem getElem?_entries {c : Chart} {stop start : Nat} {cell : Cell}
    {es : List CellEntry} (hCell : c.cell? stop start = some cell)
    (hEntries : c.entries? stop start = some es) (pos : Nat) :
    cell.entries[pos]? = es[pos]? := by
  rw [Chart.entries?, hCell, Option.map_some, Option.some.injEq] at hEntries
  rw [← hEntries, Array.getElem?_toList]

/-- A tree is found at a position of its symbol. -/
theorem CellExact.exists_position {g : Grammar α} {input : List SymbolId}
    {c : Chart} {stop start : Nat} {cell : Cell}
    (h : CellExact g input c stop start cell)
    (hCell : c.cell? stop start = some cell) {t : ParseTree}
    (ht : SpanTree g input start stop t) :
    ∃ pos ∈ cell.positions t.symbol, shape? c stop start pos = some t := by
  obtain ⟨pos, hShape⟩ := h.complete ht
  obtain ⟨cell', e, hCell', hEntry⟩ := exists_entry hShape
  rw [hCell, Option.some.injEq] at hCell'
  subst hCell'
  obtain ⟨t', hShape', hSymbol, _⟩ := h.sound hEntry
  rw [hShape, Option.some.injEq] at hShape'
  exact ⟨pos, mem_positions.2 ⟨e, hEntry, by rw [hShape', hSymbol]⟩, hShape⟩

section Filled

variable {g : Grammar α} {input : List SymbolId} {c : Chart}

/-- The cell of a terminal holds its leaf. -/
theorem exact_diagonal (h : Filled (binaryRules g) input c input.length)
    {i : Nat} {s : SymbolId} (hInput : input[i]? = some s)
    (hTerminal : g.alphabet.isTerminal s = true) {cell : Cell}
    (hCell : c.cell? i i = some cell) : CellExact g input c i i cell := by
  have hEntries := getElem?_entries hCell (h.diagonal hInput)
  have hFirst : cell.entries[0]? = some ⟨s, .terminal⟩ := by
    rw [hEntries]
    rfl
  have hShape := shape?_terminal hCell hFirst
  have hOnly : ∀ {pos : Nat} {e : CellEntry}, cell.entries[pos]? = some e →
      pos = 0 ∧ e = ⟨s, .terminal⟩ := by
    intro pos e he
    rw [hEntries] at he
    obtain ⟨hLt, rfl⟩ := List.getElem?_eq_some_iff.1 he
    have hZero : pos = 0 := by simpa using hLt
    subst hZero
    exact ⟨rfl, rfl⟩
  have hZero : ∀ {pos : Nat} {t : ParseTree},
      shape? c i i pos = some t → pos = 0 := by
    intro pos t ht
    obtain ⟨cell', e, hCell', he⟩ := exists_entry ht
    rw [hCell, Option.some.injEq] at hCell'
    exact (hOnly (hCell' ▸ he)).1
  refine ⟨fun he => ?_, fun ht ht' => ?_, fun {t} ht => ⟨0, ?_⟩⟩
  · obtain ⟨rfl, rfl⟩ := hOnly he
    exact ⟨_, hShape, rfl, .terminal hTerminal, .terminal s, by
      rw [ParseTree.yield_terminal, span_self hInput]⟩
  · rw [hZero ht, hZero ht']
  · rw [hShape]
    have hYield := ht.yield_eq
    rw [span_self hInput] at hYield
    cases ht.binary with
    | terminal s' =>
        rw [ParseTree.yield_terminal, List.singleton_inj] at hYield
        rw [hYield]
    | branch rule s' hLeft hRight =>
        have hCount := congrArg List.length hYield
        have := hLeft.length_yield_pos
        have := hRight.length_yield_pos
        simp at hCount
        omega

/-- An entry of a longer span stands for a rule over the trees of two entries
of shorter spans. -/
structure PairEntry (g : Grammar α) (input : List SymbolId) (c : Chart)
    (stop start pos : Nat) (e : CellEntry) (split left right : Nat)
    (r : BinaryRule) (t u : ParseTree) : Prop where
  start_le : start ≤ split
  lt_stop : split < stop
  rule_mem : r ∈ binaryRules g
  entry_eq : e = ⟨r.lhs, .pair split left right r.rule⟩
  left_shape : shape? c split start left = some t
  left_symbol : t.symbol = r.first
  left_tree : SpanTree g input start split t
  right_shape : shape? c stop (split + 1) right = some u
  right_symbol : u.symbol = r.second
  right_tree : SpanTree g input (split + 1) stop u
  shape_eq : shape? c stop start pos = some (.branch r.rule r.lhs [t, u])

/-- What the induction gives for the shorter spans. -/
def ExactBelow (g : Grammar α) (input : List SymbolId) (c : Chart)
    (d : Nat) : Prop :=
  ∀ {start stop : Nat} {cell : Cell}, start ≤ stop → stop < input.length →
    stop - start < d → c.cell? stop start = some cell →
    CellExact g input c stop start cell

variable {start stop : Nat} {cell : Cell}

theorem exists_pairEntry (h : Filled (binaryRules g) input c input.length)
    (hLt : start < stop) (hStop : stop < input.length)
    (hBelow : ExactBelow g input c (stop - start))
    (hCell : c.cell? stop start = some cell) {pos : Nat} {e : CellEntry}
    (hEntry : cell.entries[pos]? = some e) :
    ∃ split left right r t u,
      PairEntry g input c stop start pos e split left right r t u := by
  have hEntries := getElem?_entries hCell (h.span hLt hStop (by omega))
  rw [hEntries] at hEntry
  obtain ⟨split, hFrom, hTo, hMem⟩ :=
    mem_spanEntries.1 (List.mem_of_getElem? hEntry)
  obtain ⟨leftCell, rightCell, hLeftCell, hRightCell, r, hr, l, hl, k, hk,
    rfl⟩ := mem_splitEntries.1 hMem
  obtain ⟨d, hd, hFirst⟩ := mem_positions.1 hl
  obtain ⟨d', hd', hSecond⟩ := mem_positions.1 hk
  obtain ⟨t, hShape, hSymbol, ht⟩ :=
    (hBelow hFrom (by omega) (by omega) hLeftCell).sound hd
  obtain ⟨u, hShape', hSymbol', hu⟩ :=
    (hBelow (by omega) hStop (by omega) hRightCell).sound hd'
  refine ⟨split, l, k, r, t, u, hFrom, hTo, hr, rfl, hShape,
    hSymbol.trans hFirst, ht, hShape', hSymbol'.trans hSecond, hu, ?_⟩
  exact shape?_pair hCell ((hEntries pos).trans hEntry) hFrom hTo hShape
    hShape'

theorem PairEntry.spanTree {pos split left right : Nat} {e : CellEntry}
    {r : BinaryRule} {t u : ParseTree}
    (h : PairEntry g input c stop start pos e split left right r t u) :
    SpanTree g input start stop (.branch r.rule r.lhs [t, u]) := by
  obtain ⟨s, hRule, hLhs, hRhs⟩ := mem_binaryRules.1 h.rule_mem
  refine ⟨?_, .branch _ _ h.left_tree.binary h.right_tree.binary, ?_⟩
  · rw [← hLhs]
    refine .branch hRule ?_ fun v hv => ?_
    · simp [hRhs, h.left_symbol, h.right_symbol]
    · simp only [List.mem_cons, List.not_mem_nil, or_false] at hv
      rcases hv with rfl | rfl
      · exact h.left_tree.isDerivation
      · exact h.right_tree.isDerivation
  · simp [h.left_tree.yield_eq, h.right_tree.yield_eq,
      span_append input h.start_le h.lt_stop]

/-- Entries of a span with one tree are equal: the yields of the children give
the split point, and their trees give the positions. -/
theorem PairEntry.entry_injective (hStop : stop < input.length)
    (hBelow : ExactBelow g input c (stop - start))
    {pos pos' split split' left left' right right' : Nat}
    {e e' : CellEntry} {r r' : BinaryRule} {t t' u u' : ParseTree}
    (h : PairEntry g input c stop start pos e split left right r t u)
    (h' : PairEntry g input c stop start pos' e' split' left' right' r' t' u')
    (hTree : ParseTree.branch r.rule r.lhs [t, u] =
      .branch r'.rule r'.lhs [t', u']) :
    e = e' := by
  simp only [ParseTree.branch, ParseTree.node.injEq, Entry.mk.injEq,
    Option.some.injEq, Int.natCast_inj, List.cons.injEq, true_and, and_true]
    at hTree
  obtain ⟨⟨hRule, hLhs⟩, rfl, rfl⟩ := hTree
  have hFrom := h.start_le
  have hTo := h.lt_stop
  have hFrom' := h'.start_le
  have hTo' := h'.lt_stop
  have hSplit : split = split' := by
    have hYield := congrArg List.length
      (h.left_tree.yield_eq.symm.trans h'.left_tree.yield_eq)
    rw [length_span (by omega), length_span (by omega)] at hYield
    omega
  subst hSplit
  obtain ⟨leftCell, _, hLeftCell, _⟩ := exists_entry h.left_shape
  obtain ⟨rightCell, _, hRightCell, _⟩ := exists_entry h.right_shape
  have hLeft : left = left' :=
    (hBelow hFrom (by omega) (by omega) hLeftCell).distinct h.left_shape
      h'.left_shape
  have hRight : right = right' :=
    (hBelow (by omega) hStop (by omega) hRightCell).distinct h.right_shape
      h'.right_shape
  rw [h.entry_eq, h'.entry_eq, hRule, hLhs, hLeft, hRight]

/-- A tree over a longer span splits it where the yield of its first child
ends. -/
theorem SpanTree.exists_split (hLt : start < stop) (hStop : stop < input.length)
    {t : ParseTree} (ht : SpanTree g input start stop t) :
    ∃ split, ∃ r ∈ binaryRules g, ∃ u v, start ≤ split ∧ split < stop ∧
      t = .branch r.rule r.lhs [u, v] ∧
      (u.symbol = r.first ∧ SpanTree g input start split u) ∧
      (v.symbol = r.second ∧ SpanTree g input (split + 1) stop v) := by
  obtain ⟨hDerivation, hBinary, hYield⟩ := ht
  have hCount := congrArg List.length hYield
  rw [length_span hStop] at hCount
  cases hBinary with
  | terminal s =>
      rw [ParseTree.yield_terminal, List.length_singleton] at hCount
      omega
  | branch ix s hLeft hRight =>
      rename_i u v
      have hu := hLeft.length_yield_pos
      have hv := hRight.length_yield_pos
      obtain ⟨r, hRule, hLhs, hSymbols, hRows⟩ :=
        ParseTree.isDerivation_branch_iff.1 hDerivation
      rw [ParseTree.yield_branch] at hYield hCount
      simp only [ParseTree.yieldList_cons, ParseTree.yieldList_nil,
        List.append_nil] at hYield hCount
      rw [List.length_append] at hCount
      obtain ⟨split, hSplit⟩ :
          ∃ split, split + 1 = start + u.yield.length :=
        ⟨start + u.yield.length - 1, by omega⟩
      have hFrom : start ≤ split := by omega
      have hTo : split < stop := by omega
      rw [← span_append input hFrom hTo] at hYield
      obtain ⟨huYield, hvYield⟩ := List.append_inj hYield
        (by rw [length_span (by omega)]; omega)
      have hMem : (⟨ix, s, u.symbol, v.symbol⟩ : BinaryRule) ∈
          binaryRules g :=
        mem_binaryRules.2 ⟨r, hRule, hLhs, hSymbols.symm⟩
      exact ⟨split, _, hMem, u, v, hFrom, hTo, rfl,
        ⟨rfl, hRows u (by simp), hLeft, huYield⟩,
        ⟨rfl, hRows v (by simp), hRight, hvYield⟩⟩

/-- A tree over a longer span has an entry, since its children have entries in
their spans. -/
theorem exists_shape?_of_spanTree
    (h : Filled (binaryRules g) input c input.length)
    (hLt : start < stop) (hStop : stop < input.length)
    (hBelow : ExactBelow g input c (stop - start))
    (hCell : c.cell? stop start = some cell) {t : ParseTree}
    (ht : SpanTree g input start stop t) :
    ∃ pos, shape? c stop start pos = some t := by
  obtain ⟨split, r, hr, u, v, hFrom, hTo, rfl, ⟨hFirst, hu⟩, hSecond, hv⟩ :=
    ht.exists_split hLt hStop
  obtain ⟨leftCell, hLeftCell⟩ :=
    h.exists_cell hFrom (by omega) (by omega)
  obtain ⟨rightCell, hRightCell⟩ :=
    h.exists_cell (Nat.succ_le_of_lt hTo) hStop (by omega)
  obtain ⟨l, hl, hLeftShape⟩ :=
    (hBelow hFrom (by omega) (by omega) hLeftCell).exists_position
      hLeftCell hu
  obtain ⟨k, hk, hRightShape⟩ :=
    (hBelow (by omega) hStop (by omega) hRightCell).exists_position
      hRightCell hv
  rw [hFirst] at hl
  rw [hSecond] at hk
  have hMem : (⟨r.lhs, .pair split l k r.rule⟩ : CellEntry) ∈
      spanEntries (binaryRules g) c stop start :=
    mem_spanEntries.2 ⟨split, hFrom, hTo, mem_splitEntries.2
      ⟨leftCell, rightCell, hLeftCell, hRightCell, r, hr, l, hl, k, hk, rfl⟩⟩
  obtain ⟨pos, hPos⟩ := List.getElem?_of_mem hMem
  rw [← getElem?_entries hCell (h.span hLt hStop (by omega))] at hPos
  exact ⟨pos, shape?_pair hCell hPos hFrom hTo hLeftShape hRightShape⟩

theorem exact_span (h : Filled (binaryRules g) input c input.length)
    (hLt : start < stop) (hStop : stop < input.length)
    (hBelow : ExactBelow g input c (stop - start))
    (hCell : c.cell? stop start = some cell) :
    CellExact g input c stop start cell := by
  have hEntries := getElem?_entries hCell (h.span hLt hStop (by omega))
  refine ⟨fun he => ?_, fun {pos pos' t} ht ht' => ?_,
    exists_shape?_of_spanTree h hLt hStop hBelow hCell⟩
  · obtain ⟨split, l, r, b, t, u, hOne⟩ :=
      exists_pairEntry h hLt hStop hBelow hCell he
    exact ⟨_, hOne.shape_eq, by rw [hOne.entry_eq]; rfl, hOne.spanTree⟩
  · obtain ⟨cell₁, e, hCell₁, he⟩ := exists_entry ht
    obtain ⟨cell₂, e', hCell₂, he'⟩ := exists_entry ht'
    rw [hCell, Option.some.injEq] at hCell₁ hCell₂
    subst hCell₁ hCell₂
    obtain ⟨_, _, _, _, _, _, hOne⟩ :=
      exists_pairEntry h hLt hStop hBelow hCell he
    obtain ⟨_, _, _, _, _, _, hTwo⟩ :=
      exists_pairEntry h hLt hStop hBelow hCell he'
    have hTree := ht.symm.trans hOne.shape_eq
    have hTree' := ht'.symm.trans hTwo.shape_eq
    have hSame := hOne.entry_injective hStop hBelow hTwo
      (Option.some.inj (hTree.symm.trans hTree'))
    rw [hEntries] at he he'
    exact (List.getElem?_inj (List.getElem?_eq_some_iff.1 he).1
      (nodup_spanEntries (pairwise_binaryRules g))).1
      (he.trans (hSame ▸ he'.symm))

/-- The cells of a filled chart hold the trees of their spans. -/
theorem exact_of_filled (h : Filled (binaryRules g) input c input.length)
    (hInput : ∀ id ∈ input, g.alphabet.isTerminal id = true) (d : Nat) :
    ExactBelow g input c d := by
  induction d using Nat.strongRecOn with
  | _ d ih =>
      intro start stop cell hLe hStop hShort hCell
      by_cases hLt : start < stop
      · exact exact_span h hLt hStop (ih _ hShort) hCell
      · have hEq : start = stop := by omega
        subst hEq
        have hGet := List.getElem?_eq_getElem hStop
        exact exact_diagonal h hGet (hInput _ (List.getElem_mem hStop)) hCell

end Filled

/-! ## The trees that are offered -/

/-- The trees of the start symbol in the cell of the whole input. -/
def Parse.rootTrees (p : Parse α) : List ParseTree :=
  p.roots.filterMap (shape? p.chart (p.input.length - 1) 0)

theorem Parse.mem_rootTrees {p : Parse α} {t : ParseTree} :
    t ∈ p.rootTrees ↔ ∃ pos ∈ p.roots,
      shape? p.chart (p.input.length - 1) 0 pos = some t :=
  List.mem_filterMap

theorem map_some_filterMap {β γ : Type} {f : β → Option γ} {xs : List β}
    (h : ∀ x ∈ xs, ∃ y, f x = some y) :
    (xs.filterMap f).map some = xs.map f := by
  induction xs with
  | nil => rfl
  | cons x xs ih =>
      obtain ⟨y, hy⟩ := h x (by simp)
      rw [List.filterMap_cons_some hy, List.map_cons, List.map_cons, hy,
        ih fun x hx => h x (by simp [hx])]

theorem Parse.yields_root {p : Parse α} {ix pos : Nat} {s : ParseTree}
    (hRoot : p.roots[ix]? = some pos)
    (hShape : shape? p.chart (p.input.length - 1) 0 pos = some s) :
    (p.chartDerivations.build ix).Yields fun t => t.shape = s := by
  obtain ⟨t, hBuild, rfl⟩ := Option.map_eq_some_iff.1 hShape
  unfold chartDerivations
  dsimp only
  rw [hRoot, Option.bind_some, hBuild]
  exact Drawing.yields_pure rfl

theorem Parse.lists_rootTrees {p : Parse α} (hInput : p.input ≠ [])
    (hBuilt : ∀ pos ∈ p.roots, ∃ t,
      shape? p.chart (p.input.length - 1) 0 pos = some t) :
    p.derivations.Lists p.rootTrees := by
  have hMap : p.rootTrees.map some =
      p.roots.map (shape? p.chart (p.input.length - 1) 0) :=
    map_some_filterMap hBuilt
  rw [derivations, if_neg (by simpa using hInput)]
  refine Derivations.lists_of_build ?_ fun ix s hs => ?_
  · have hLength := congrArg List.length hMap
    rw [List.length_map, List.length_map] at hLength
    exact hLength
  · have hGet : (p.rootTrees.map some)[ix]? = some (some s) := by
      rw [List.getElem?_map, hs, Option.map_some]
    rw [hMap, List.getElem?_map] at hGet
    obtain ⟨pos, hPos, hShape⟩ := Option.map_eq_some_iff.1 hGet
    exact yields_root hPos hShape

/-- The trees that the rules from the start symbol to one symbol allow. -/
def startTrees (g : Grammar α) (symbol : SymbolId) : List ParseTree :=
  (startRulesTo g symbol).map fun ix => .branch ix startId [.terminal symbol]

theorem mem_startTrees {g : Grammar α} {symbol : SymbolId} {t : ParseTree} :
    t ∈ startTrees g symbol ↔ ∃ ix r, g.rules[ix]? = some r ∧
      r.lhs = startId ∧ r.rhs = [symbol] ∧
      t = .branch ix startId [.terminal symbol] := by
  simp only [startTrees, List.mem_map, mem_startRulesTo]
  constructor
  · rintro ⟨ix, ⟨r, hRule, hLhs, hRhs⟩, rfl⟩
    exact ⟨ix, r, hRule, hLhs, hRhs, rfl⟩
  · rintro ⟨ix, r, hRule, hLhs, hRhs, rfl⟩
    exact ⟨ix, ⟨r, hRule, hLhs, hRhs⟩, rfl⟩

theorem nodup_startTrees (g : Grammar α) (symbol : SymbolId) :
    (startTrees g symbol).Nodup := by
  refine (nodup_startRulesTo g symbol).map fun i j h => ?_
  simp only [ParseTree.branch, ParseTree.node.injEq, Entry.mk.injEq,
    Option.some.injEq, Int.natCast_inj] at h
  exact h.1.2.2.1

/-- The empty input has the trees of the rules to the empty string symbol. -/
theorem Parse.lists_nil (g : Grammar α) :
    (ofChecked g []).derivations.Lists (startTrees g emptyId) := by
  refine Derivations.lists_of_build ?_ fun ix s hs => ?_
  · show _ = (startRulesTo g emptyId).length
    rw [startTrees, List.length_map]
  · rw [startTrees, List.getElem?_map, Option.map_eq_some_iff] at hs
    obtain ⟨rule, hRule, rfl⟩ := hs
    show ((ofChecked g []).emptyDerivations.build ix).Yields _
    have hRule : (startRulesTo (ofChecked g []).grammar emptyId)[ix]? =
        some rule := hRule
    unfold emptyDerivations
    dsimp only
    rw [hRule]
    refine Drawing.yields_fresh.bind fun root _ => ?_
    refine Drawing.yields_fresh.bind fun leaf _ => ?_
    exact Drawing.yields_pure (by simp [ParseTree.leafOf, ParseTree.shape,
      ParseTree.shapeList, ParseTree.terminal, ParseTree.branch])

/-- A lone terminal has the trees of the rules from the start symbol to it. -/
theorem Parse.lists_singleton (g : Grammar α) {a : SymbolId}
    (ha : a ≠ startId) :
    (ofChecked g [a]).derivations.Lists (startTrees g a) := by
  have hCell : (Chart.make g [a]).cell? 0 0 = some (loneCell g a) := rfl
  have hFirst : (loneCell g a).entries[0]? = some ⟨a, .terminal⟩ := rfl
  have hEntry : ∀ i, (loneCell g a).entries[i + 1]? =
      (startRulesTo g a)[i]?.map fun rule => ⟨startId, .single 0 rule⟩ := by
    intro i
    simp [loneCell]
  have hRoots : (ofChecked g [a]).roots =
      (List.range (startRulesTo g a).length).map (· + 1) := by
    show (loneCell g a).positions startId = _
    have hSize : (loneCell g a).entries.size =
        (startRulesTo g a).length + 1 := by
      simp [loneCell]
    rw [Cell.positions, hSize, List.range_succ_eq_map,
      List.filter_cons_of_neg (by simp [hFirst, ha]), List.filter_eq_self]
    intro pos hPos
    obtain ⟨i, hi, rfl⟩ := List.mem_map.1 hPos
    rw [hEntry, List.getElem?_eq_getElem (List.mem_range.1 hi)]
    exact beq_self_eq_true _
  refine Derivations.lists_of_build ?_ fun ix s hs => ?_
  · show _ = (ofChecked g [a]).roots.length
    rw [hRoots, startTrees]
    simp
  · rw [startTrees, List.getElem?_map, Option.map_eq_some_iff] at hs
    obtain ⟨rule, hRule, rfl⟩ := hs
    have hLt := (List.getElem?_eq_some_iff.1 hRule).1
    have hRoot : (ofChecked g [a]).roots[ix]? = some (ix + 1) := by
      rw [hRoots, List.getElem?_map, List.getElem?_range hLt]
      rfl
    have hSingle : (loneCell g a).entries[ix + 1]? =
        some ⟨startId, .single 0 rule⟩ := by
      rw [hEntry, hRule]
      rfl
    exact yields_root hRoot (shape?_single hCell hSingle hFirst)

/-- A longer input has the derivation trees with two children everywhere. -/
theorem Parse.lists_long {g : Grammar α} {input : List SymbolId}
    (hLong : 2 ≤ input.length)
    (hInput : ∀ id ∈ input, g.alphabet.isTerminal id = true) :
    ∃ shapes, (ofChecked g input).derivations.Lists shapes ∧ shapes.Nodup ∧
      ∀ t, t ∈ shapes ↔ g.Derives startId input t ∧ t.Binary := by
  have hFilled := filled_make g hLong
  have hLast : input.length - 1 < input.length := by omega
  obtain ⟨cell, hCell⟩ := hFilled.exists_cell (Nat.zero_le _) hLast
    (by omega)
  have hExact := exact_of_filled hFilled hInput input.length
    (Nat.zero_le _) hLast (by omega) hCell
  have hRoots : (ofChecked g input).roots = cell.positions startId := by
    have hCell : (ofChecked g input).chart.cell?
        ((ofChecked g input).input.length - 1) 0 = some cell := hCell
    rw [roots, hCell]
  have hSpan : span input 0 (input.length - 1) = input := by
    rw [span, List.drop_zero, List.take_of_length_le (by omega)]
  refine ⟨_, lists_rootTrees ?_ ?_, ?_, fun t => ?_⟩
  · rintro rfl
    simp at hLong
  · intro pos hPos
    rw [hRoots] at hPos
    obtain ⟨e, hEntry, _⟩ := mem_positions.1 hPos
    obtain ⟨t, hShape, _⟩ := hExact.sound hEntry
    exact ⟨t, hShape⟩
  · rw [rootTrees, hRoots]
    exact (nodup_positions cell startId).filterMap
      fun i j t hi hj => hExact.distinct hi hj
  · rw [mem_rootTrees, hRoots]
    constructor
    · rintro ⟨pos, hPos, hShape⟩
      obtain ⟨e, hEntry, hSymbol⟩ := mem_positions.1 hPos
      obtain ⟨t', hShape', hSymbol', ht⟩ := hExact.sound hEntry
      have hSame := Option.some.inj (hShape.symm.trans hShape')
      subst hSame
      exact ⟨⟨ht.isDerivation, hSymbol'.trans hSymbol,
        ht.yield_eq.trans hSpan⟩, ht.binary⟩
    · rintro ⟨ht, hBinary⟩
      have hTree : SpanTree g input 0 (input.length - 1) t :=
        ⟨ht.isDerivation, hBinary, ht.yield_eq.trans hSpan.symm⟩
      have hPosition := hExact.exists_position hCell hTree
      rwa [ht.symbol_eq] at hPosition

/-- For terminals other than the empty string symbol, parsing succeeds.  Its
trees are pairwise different, and they are the derivation trees of the input in
which every node has two children; for a lone terminal and for the empty input,
they are those of the rules from the start symbol to the terminal and to the
empty string symbol. -/
theorem Parse.make_lists {g : Grammar α} (hg : g.WellFormed)
    {input : List SymbolId}
    (hInput : ∀ id ∈ input, id ≠ emptyId ∧ g.alphabet.isTerminal id = true) :
    ∃ p, Parse.make g input = .ok p ∧ ∃ shapes,
      p.derivations.Lists shapes ∧ shapes.Nodup ∧
      (2 ≤ input.length → ∀ t, t ∈ shapes ↔
        g.Derives startId input t ∧ t.Binary) ∧
      (∀ a, input = [a] → ∀ t, t ∈ shapes ↔
        ∃ ix r, g.rules[ix]? = some r ∧ r.lhs = startId ∧ r.rhs = [a] ∧
          t = .branch ix startId [.terminal a]) ∧
      (input = [] → ∀ t, t ∈ shapes ↔
        ∃ ix r, g.rules[ix]? = some r ∧ r.lhs = startId ∧
          r.rhs = [emptyId] ∧
          t = .branch ix startId [.terminal emptyId]) := by
  refine ⟨ofChecked g input, ?_, ?_⟩
  · rw [Parse.make, (Parse.inputFault?_eq_none_iff _ 0 input).2 hInput]
  · match input, hInput with
    | [], _ =>
        exact ⟨_, lists_nil g, nodup_startTrees g emptyId, by simp, by simp,
          fun _ t => mem_startTrees⟩
    | [a], hInput =>
        have ha : a ≠ startId := by
          rintro rfl
          have hTerminal := (hInput startId (by simp)).2
          rw [hg.alphabet.isTerminal_startId] at hTerminal
          simp at hTerminal
        refine ⟨_, lists_singleton g ha, nodup_startTrees g a, by simp, ?_,
          by simp⟩
        intro b hb t
        rw [← List.singleton_inj.1 hb]
        exact mem_startTrees
    | a :: b :: rest, hInput =>
        have hLong : 2 ≤ (a :: b :: rest).length := by simp
        obtain ⟨shapes, hLists, hNodup, hMem⟩ :=
          lists_long (g := g) hLong fun id hId => (hInput id hId).2
        exact ⟨shapes, hLists, hNodup, fun _ => hMem, by simp, by simp⟩

theorem derives_growing (p q r : α) :
    (Grammar.growing p q r).Derives startId [2, 2, 2]
        (.branch 0 startId
          [.terminal 2, .branch 2 startId [.terminal 2, .terminal 2]]) ∧
      (Grammar.growing p q r).Derives startId [2, 2, 2]
        (.branch 1 startId
          [.branch 2 startId [.terminal 2, .terminal 2], .terminal 2]) := by
  have hLetter : ParseTree.IsDerivation (Grammar.growing p q r)
      (.terminal 2) := .terminal rfl
  have hPair : ParseTree.IsDerivation (Grammar.growing p q r)
      (.branch 2 startId [.terminal 2, .terminal 2]) :=
    .branch (r := ⟨startId, [2, 2], r⟩) rfl rfl (by simp [hLetter])
  refine ⟨⟨?_, rfl, rfl⟩, ⟨?_, rfl, rfl⟩⟩
  · exact .branch (r := ⟨startId, [2, startId], p⟩) rfl rfl
      (by simp [hLetter, hPair])
  · exact .branch (r := ⟨startId, [startId, 2], q⟩) rfl rfl
      (by simp [hLetter, hPair])

/-- Three letters have two trees, by the end at which a pair has grown. -/
theorem Parse.make_lists_growing :
    ∃ p, Parse.make (Grammar.growing 1 2 3) [2, 2, 2] = .ok p ∧ ∃ shapes,
      p.derivations.Lists shapes ∧ shapes.Nodup ∧
      .branch 0 startId [.terminal 2,
        .branch 2 startId [.terminal 2, .terminal 2]] ∈ shapes ∧
      .branch 1 startId [.branch 2 startId [.terminal 2, .terminal 2],
        .terminal 2] ∈ shapes := by
  obtain ⟨p, hMake, shapes, hLists, hNodup, hLong, _⟩ :=
    Parse.make_lists (Grammar.wellFormed_growing 1 2 3)
      (by decide : ∀ id ∈ [2, 2, 2], id ≠ emptyId ∧
        (Grammar.growing 1 2 3).alphabet.isTerminal id = true)
  have hPair := ParseTree.Binary.branch 2 startId (.terminal 2) (.terminal 2)
  obtain ⟨hFirst, hLast⟩ := derives_growing 1 2 3
  exact ⟨p, hMake, shapes, hLists, hNodup,
    (hLong (by decide) _).2 ⟨hFirst, .branch 0 startId (.terminal 2) hPair⟩,
    (hLong (by decide) _).2 ⟨hLast, .branch 1 startId hPair (.terminal 2)⟩⟩

end Cyk

end StochasticGrammar
