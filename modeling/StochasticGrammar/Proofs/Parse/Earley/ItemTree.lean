import StochasticGrammar.Proofs.Parse.Earley.Tiling

/-!
# The trees of completed Earley items

A completed item stands for a derivation tree (`itemTree`), which is what
rebuilding the item arrives at (`yields_expand`).

Main results: the tree is a derivation tree of the span of the item
(`isDerivation_itemTree`, `drop_itemTree`) in which no node repeats
(`repetitionFree_itemTree`), and different items that start at one state have
different trees (`itemTree_injective`).
-/

namespace StochasticGrammar.Earley

variable {α : Type} {task : Task α} {c : Chart}

open Chart (Sound repeats)

/-- The rule of an item, with its two sides as the task reads them. -/
theorem Task.Proper.exists_rule (hp : task.Proper) (hs : c.Sound task)
    {b : Nat} {d : Item} (hItem : c.items[b]? = some d) :
    ∃ r, task.grammar.rules[d.rule]? = some r ∧ r.lhs = task.lhs d.rule ∧
      r.rhs = task.rhs d.rule := by
  have hLt : d.rule < task.rules.size := (hs.key hItem).rule_lt
  have hGet := Array.getElem?_eq_getElem hLt
  refine ⟨task.rules[d.rule], ?_, ?_, ?_⟩
  · rw [← hp.getElem?_rules, hGet]
  · simp [Task.lhs, hGet]
  · simp [Task.rhs, hGet]

theorem matched_rhs (ht : Tiled task c) {b : Nat} {d : Item}
    (hItem : c.items[b]? = some d) (hNext : task.next? d = none) :
    Matched task c.items (task.rhs d.rule) d.back d.start d.state := by
  have hMatched := ht.matched hItem
  rwa [List.take_of_length_le (Chart.length_le_of_symbolAt? hNext)]
    at hMatched

theorem itemTree_eq (hs : c.Sound task) {b : Nat} {d : Item}
    (hItem : c.items[b]? = some d) :
    itemTree task c.items b = .branch d.rule d.head (symbolTrees task
      (itemTree task c.items) (task.rhs d.rule) d.back) :=
  itemTree_of_getElem? hItem (hs.back_lt hItem)

theorem symbol_itemTree (hs : c.Sound task) {b : Nat} {d : Item}
    (hItem : c.items[b]? = some d) :
    (itemTree task c.items b).symbol = d.head := by
  rw [itemTree_eq hs hItem, ParseTree.symbol_branch]

/-! ## Span and rules of the tree -/

/-- The tree of a completed item reads the input over the span of the
item. -/
theorem drop_itemTree (hs : c.Sound task) (ht : Tiled task c) (b : Nat) :
    ∀ d, c.items[b]? = some d → task.next? d = none →
      task.input.toList.drop d.start =
        (itemTree task c.items b).yield ++
          task.input.toList.drop d.state := by
  induction b using Nat.strongRecOn with
  | _ b ih =>
      intro d hItem hNext
      rw [itemTree_eq hs hItem, ParseTree.yield_branch]
      exact (matched_rhs ht hItem hNext).drop_eq fun child hMem =>
        ih child (hs.back_lt hItem child hMem)

theorem length_yield_itemTree (hs : c.Sound task) (ht : Tiled task c)
    {b : Nat} {d : Item} (hItem : c.items[b]? = some d)
    (hNext : task.next? d = none) :
    (itemTree task c.items b).yield.length = d.state - d.start := by
  have hLength := congrArg List.length (drop_itemTree hs ht b d hItem hNext)
  have hStart : d.start ≤ d.state := (hs.key hItem).start_le
  have hState : d.state ≤ task.input.size := (hs.key hItem).state_le
  simp only [List.length_append, List.length_drop, Array.length_toList]
    at hLength
  omega

/-- The tree of a completed item is a derivation tree of the grammar. -/
theorem isDerivation_itemTree (hp : task.Proper) (hs : c.Sound task)
    (ht : Tiled task c) (b : Nat) :
    ∀ d, c.items[b]? = some d → task.next? d = none →
      (itemTree task c.items b).IsDerivation task.grammar := by
  induction b using Nat.strongRecOn with
  | _ b ih =>
      intro d hItem hNext
      have hMatched := matched_rhs ht hItem hNext
      obtain ⟨r, hRule, hLhs, hRhs⟩ := hp.exists_rule hs hItem
      rw [itemTree_eq hs hItem, ht.head_eq hItem, ← hLhs]
      refine .branch hRule ?_ fun t hMem => ?_
      · rw [hRhs]
        exact hMatched.map_symbol fun child _ e hChild =>
          symbol_itemTree hs hChild
      · rcases hMatched.mem_symbolTrees hMem with
          ⟨s, hTerminal, rfl⟩ | ⟨child, hChild, rfl⟩
        · exact .terminal hTerminal
        · obtain ⟨e, hGet, hDone⟩ := hMatched.exists_item hChild
          exact ih child (hs.back_lt hItem child hChild) e hGet hDone

/-! ## Repetitions -/

/-- A rule is held by the trees of matched symbols exactly if it is held by
the tree of a back pointer. -/
theorem Matched.exists_holds_iff {symbols : List SymbolId} {back : List Nat}
    {start state rule n : Nat} {f : Nat → ParseTree}
    (h : Matched task c.items symbols back start state) :
    (∃ t ∈ symbolTrees task f symbols back, t.Holds rule n) ↔
      ∃ b ∈ back, (f b).Holds rule n := by
  constructor
  · rintro ⟨t, hMem, hHolds⟩
    rcases h.mem_symbolTrees hMem with ⟨s, _, rfl⟩ | ⟨b, hb, rfl⟩
    · exact absurd hHolds ParseTree.not_holds_terminal
    · exact ⟨b, hb, hHolds⟩
  · rintro ⟨b, hb, hHolds⟩
    exact ⟨_, h.mem_symbolTrees_of_mem hb, hHolds⟩

/-- The search for a repeated rule finds the nodes of the tree with this rule
over a span, if the item lies in the span. -/
theorem repeats_iff (hp : task.Proper) (hs : c.Sound task)
    (ht : Tiled task c) {rule start state : Nat} (b : Nat) :
    ∀ d, c.items[b]? = some d → task.next? d = none → start ≤ d.start →
      d.state ≤ state →
      (repeats c.items rule start state b = true ↔
        (itemTree task c.items b).Holds rule (state - start)) := by
  induction b using Nat.strongRecOn with
  | _ b ih =>
      intro d hItem hNext hFrom hTo
      have hMatched := matched_rhs ht hItem hNext
      have hLength := length_yield_itemTree hs ht hItem hNext
      have hSpan : d.start ≤ d.state := (hs.key hItem).start_le
      -- the children lie within the span, so the induction applies to them
      have hChild : ∀ child ∈ d.back,
          ((if child < b then repeats c.items rule start state child
            else false) = true ↔
          (itemTree task c.items child).Holds rule (state - start)) := by
        intro child hMem
        obtain ⟨e, hGet, hDone, hLeft, hRight⟩ :=
          ((hs.key hItem).child child hMem).exists_item
        have hLeft : d.start ≤ e.start := hLeft
        have hRight : e.state ≤ d.state := hRight
        have hLt := hs.back_lt hItem child hMem
        rw [if_pos hLt]
        exact ih child hLt e hGet hDone (by omega) (by omega)
      have hRoot := itemTree_eq hs hItem
      rw [hRoot, ParseTree.yield_branch] at hLength
      rw [repeats, hItem, hRoot, ParseTree.holds_branch_iff,
        hMatched.exists_holds_iff]
      simp only [Bool.and_eq_true, beq_iff_eq, Bool.or_eq_true,
        List.any_eq_true]
      constructor
      · rintro ⟨⟨hStart, hState⟩, hRule | ⟨child, hMem, hFound⟩⟩
        · exact .inl ⟨hRule, by omega⟩
        · exact .inr ⟨child, hMem, (hChild child hMem).1 hFound⟩
      · rintro (⟨hRule, hWide⟩ | ⟨child, hMem, hHolds⟩)
        · exact ⟨by omega, .inl hRule⟩
        · have hWide := (isDerivation_itemTree hp hs ht b d hItem hNext
            ).le_of_holds (hRoot ▸ ParseTree.holds_branch_iff.2
              (.inr (hMatched.exists_holds_iff.2 ⟨child, hMem, hHolds⟩)))
          rw [hRoot, ParseTree.yield_branch] at hWide
          exact ⟨by omega, .inr ⟨child, hMem, (hChild child hMem).2 hHolds⟩⟩

/-- The root of a tree over completed items repeats exactly if the search from
their numbers finds its rule. -/
theorem repeats_branch_iff_exists (hp : task.Proper) (hs : c.Sound task)
    (ht : Tiled task c) (rule : Nat) {start state : Nat}
    {symbols : List SymbolId} {back : List Nat}
    (hMatched : Matched task c.items symbols back start state)
    (hChild : ∀ b ∈ back, Chart.Child task c.items start state b)
    (hLength : (ParseTree.yieldList (symbolTrees task (itemTree task c.items)
      symbols back)).length = state - start) (symbol : SymbolId) :
    (ParseTree.branch rule symbol (symbolTrees task (itemTree task c.items)
      symbols back)).Repeats ↔
      ∃ b ∈ back, repeats c.items rule start state b = true := by
  have hRows : ∀ t ∈ symbolTrees task (itemTree task c.items) symbols back,
      t.IsDerivation task.grammar := by
    intro t hMem
    rcases hMatched.mem_symbolTrees hMem with ⟨s, hs, rfl⟩ | ⟨b, hb, rfl⟩
    · exact .terminal hs
    · obtain ⟨d, hGet, hDone⟩ := hMatched.exists_item hb
      exact isDerivation_itemTree hp hs ht b d hGet hDone
  rw [ParseTree.repeats_branch_iff hRows, hLength, hMatched.exists_holds_iff]
  refine exists_congr fun b => and_congr_right fun hb => ?_
  obtain ⟨d, hGet, hDone, hFrom, hTo⟩ := (hChild b hb).exists_item
  exact (repeats_iff hp hs ht b d hGet hDone hFrom hTo).symm

/-- No node of the tree of a completed item repeats. -/
theorem repetitionFree_itemTree (hp : task.Proper) (hs : c.Sound task)
    (ht : Tiled task c) (b : Nat) :
    ∀ d, c.items[b]? = some d → task.next? d = none →
      (itemTree task c.items b).RepetitionFree := by
  induction b using Nat.strongRecOn with
  | _ b ih =>
      intro d hItem hNext
      have hMatched := matched_rhs ht hItem hNext
      have hKey := hs.key hItem
      have hLength := length_yield_itemTree hs ht hItem hNext
      rw [itemTree_eq hs hItem] at hLength ⊢
      rw [ParseTree.yield_branch] at hLength
      refine ParseTree.repetitionFree_branch_iff.2 ⟨?_, fun t hMem => ?_⟩
      · rw [repeats_branch_iff_exists hp hs ht d.rule hMatched hKey.child
          hLength]
        rintro ⟨child, hMem, hFound⟩
        have hNot : repeats c.items d.rule d.start d.state child = false :=
          hKey.acyclic hNext child hMem
        simp [hNot] at hFound
      · rcases hMatched.mem_symbolTrees hMem with
          ⟨s, _, rfl⟩ | ⟨child, hChild, rfl⟩
        · exact ParseTree.repetitionFree_terminal s
        · obtain ⟨e, hGet, hDone⟩ := hMatched.exists_item hChild
          exact ih child (hs.back_lt hItem child hChild) e hGet hDone

/-! ## Different items, different trees -/

/-- Completed items with one start and one tree are the same item. -/
theorem itemTree_injective (hs : c.Sound task) (ht : Tiled task c)
    (b : Nat) : ∀ b' d d', c.items[b]? = some d → c.items[b']? = some d' →
      task.next? d = none → task.next? d' = none → d.start = d'.start →
      itemTree task c.items b = itemTree task c.items b' → b = b' := by
  induction b using Nat.strongRecOn with
  | _ b ih =>
      intro b' d d' hItem hItem' hNext hNext' hStart hTrees
      rw [itemTree_eq hs hItem, itemTree_eq hs hItem'] at hTrees
      simp only [ParseTree.branch, ParseTree.node.injEq, Entry.mk.injEq,
        Option.some.injEq, Int.natCast_inj, true_and] at hTrees
      obtain ⟨⟨hRule, _⟩, hRows⟩ := hTrees
      have hMatched := matched_rhs ht hItem hNext
      have hMatched' := matched_rhs ht hItem' hNext'
      rw [← hRule, ← hStart] at hMatched'
      rw [← hRule] at hRows
      obtain ⟨hBack, hState⟩ := hMatched.eq_of_symbolTrees_eq hMatched'
        (fun child hMem => ih child (hs.back_lt hItem child hMem)) hRows
      have hDot : d.dot = d'.dot := by
        have h₁ := Chart.length_le_of_symbolAt? hNext
        have h₂ := Chart.length_le_of_symbolAt? hNext'
        have h₃ : d.dot ≤ (task.rhs d.rule).length := (hs.key hItem).dot_le
        have h₄ : d'.dot ≤ (task.rhs d'.rule).length := (hs.key hItem').dot_le
        rw [← hRule] at h₂ h₄
        omega
      apply hs.distinct hItem hItem'
      simp [Item.key, hRule, hDot, hStart, hState, hBack]

/-! ## Rebuilding -/

theorem yields_leaf (t : SymbolId) :
    (Parse.leaf t).Yields fun u => u.shape = .terminal t := by
  refine Drawing.yields_fresh.bind fun n _ => Drawing.yields_pure ?_
  simp [ParseTree.leafOf, ParseTree.shape, ParseTree.shapeList,
    ParseTree.terminal]

/-- Rebuilding the trees of matched symbols never lacks a back pointer. -/
theorem Matched.yields_expandSymbols {p : Parse α} {items : Array Item}
    {symbols : List SymbolId} {back : List Nat} {i j id : Nat}
    {f : Nat → ParseTree} (h : Matched p.task items symbols back i j)
    (hLt : ∀ b ∈ back, b < id)
    (hExpand : ∀ b ∈ back, ∀ d, items[b]? = some d → p.task.next? d = none →
      (p.expand b).Yields fun t => t.shape = f b) :
    (p.expandSymbols id back symbols).Yields fun ts =>
      ts.map ParseTree.shape = symbolTrees p.task f symbols back := by
  induction h with
  | nil _ =>
      rw [Parse.expandSymbols]
      exact Drawing.yields_pure (by simp [symbolTrees])
  | terminal hTerminal _ _ ih =>
      rw [Parse.expandSymbols.eq_def, symbolTrees_terminal hTerminal]
      dsimp only
      rw [if_pos hTerminal]
      refine (yields_leaf _).bind fun u hu => ?_
      refine (ih hLt hExpand).bind fun ts hts => Drawing.yields_pure ?_
      rw [List.map_cons, hu, hts]
  | completed hHead hItem hNext _ ih =>
      rw [Parse.expandSymbols.eq_def, symbolTrees_nonterminal hHead]
      dsimp only
      rw [if_neg (by simp [hHead]), if_pos (hLt _ (by simp))]
      refine (hExpand _ (by simp) _ hItem hNext).bind fun u hu => ?_
      refine (ih (fun b hb => hLt b (by simp [hb]))
        fun b hb => hExpand b (by simp [hb])).bind fun ts hts =>
          Drawing.yields_pure ?_
      rw [List.map_cons, hu, hts]

/-- Rebuilding a completed item arrives at its tree. -/
theorem yields_expand {p : Parse α} (hs : p.chart.Sound p.task)
    (ht : Tiled p.task p.chart) (b : Nat) :
    ∀ d, p.chart.items[b]? = some d → p.task.next? d = none →
      (p.expand b).Yields fun t =>
        t.shape = itemTree p.task p.chart.items b := by
  induction b using Nat.strongRecOn with
  | _ b ih =>
      intro d hItem hNext
      rw [Parse.expand, hItem]
      refine ((matched_rhs ht hItem hNext).yields_expandSymbols
        (f := itemTree p.task p.chart.items) (hs.back_lt hItem)
        fun child hMem => ih child (hs.back_lt hItem child hMem)).bind
          fun ts hts => Drawing.yields_pure ?_
      rw [itemTree_eq hs hItem, ← hts]
      simp [ParseTree.shape, ParseTree.shapeList_eq_map, ParseTree.branch]

end StochasticGrammar.Earley
