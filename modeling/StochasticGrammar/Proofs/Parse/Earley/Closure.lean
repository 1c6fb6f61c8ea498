import StochasticGrammar.Proofs.Parse.Earley.ItemTree

/-!
# What a finished Earley chart holds

While the agenda is worked off, the chart is closed under what the items that
have been processed call for: their predictions, their scans, and the advance
of each waiting item over each completed one that starts where it ends
(`Closed`).  Of two items that meet, the later one to be processed finds the
other in its state, also if the completed one spans nothing and was processed
first; so the order in which they are added does not matter.

At the end every item has been processed.  Then each derivation tree without
repetitions of a predicted symbol is the tree of a completed item.

Main results: the finished chart is closed (`Task.closed_chart`), and it has
an item for every tree that may be asked for (`Closed.exists_completed`).
-/

namespace StochasticGrammar.Earley

variable {α : Type} {task : Task α}

open Chart (Sound Advanced Grows)

/-! ## Closed charts -/

/-- A chart holds what the items that satisfy a condition call for. -/
structure Closed (task : Task α) (c : Chart) (p : Item → Prop) : Prop where
  seeded : ∀ rule ∈ task.rulesOf startId, c.Has ⟨rule, 0, 0, 0, []⟩
  predicted : ∀ {e : Item} {symbol : SymbolId}, p e →
    task.next? e = some symbol →
    task.grammar.alphabet.isTerminal symbol = false →
    ∀ rule ∈ task.rulesOf symbol, c.Has ⟨rule, 0, e.state, e.state, []⟩
  scanned : ∀ {e : Item} {symbol : SymbolId}, p e →
    task.next? e = some symbol →
    task.grammar.alphabet.isTerminal symbol = true →
    task.input[e.state]? = some symbol →
    c.Has ⟨e.rule, e.dot + 1, e.start, e.state + 1, e.back⟩
  advanced : ∀ {waiting done : Item}, p waiting → p done →
    task.next? waiting = some done.head → task.next? done = none →
    done.start = waiting.state → Advanced task c waiting done

theorem Closed.imp {c : Chart} {p q : Item → Prop} (h : Closed task c p)
    (hImp : ∀ e, q e → p e) : Closed task c q where
  seeded := h.seeded
  predicted he := h.predicted (hImp _ he)
  scanned he := h.scanned (hImp _ he)
  advanced hw hd := h.advanced (hImp _ hw) (hImp _ hd)

theorem Sound.mem_stateItems_iff {c : Chart} (h : c.Sound task) {s : Nat}
    {e : Item} :
    e ∈ c.stateItems s ↔ c.items[e.id]? = some e ∧ e.state = s := by
  constructor
  · exact h.mem_stateItems
  · rintro ⟨hItem, rfl⟩
    exact List.mem_filterMap.2
      ⟨e.id, Array.mem_toList_iff.2 (h.listed hItem), hItem⟩

/-- After an item has been processed, the chart holds what this item and those
before it call for.  The completed items before it lie in no later state. -/
theorem Closed.process (hp : task.Proper) {c : Chart} (hs : c.Sound task)
    (ht : Tiled task c) {p : Item → Prop} (h : Closed task c p)
    (hThere : ∀ d, p d → c.items[d.id]? = some d) {e : Item}
    (he : c.items[e.id]? = some e) (hLast : ∀ d, p d → d.state ≤ e.state) :
    Closed task (c.process task e) fun d => p d ∨ d = e := by
  have hExtends := (Chart.grows_process hs he).extends
  refine ⟨fun rule hRule => (h.seeded rule hRule).mono hExtends, ?_, ?_, ?_⟩
  · intro d symbol hd hNext hTerminal rule hRule
    rcases hd with hd | rfl
    · exact (h.predicted hd hNext hTerminal rule hRule).mono hExtends
    · have hProcess : c.process task d = c.predict task d symbol := by
        simp [Chart.process, hNext, hTerminal]
      have hSound :=
        (Chart.grown_predictRules hs (hs.key he).state_le symbol).sound
      have hHas := Chart.has_predictRules task c d.state hRule
      rw [hProcess]
      refine hHas.mono (Chart.extends_foldl (fun b done => ?_) _ _)
      split
      · exact Chart.extends_advance task b d done d.state
      · exact Chart.Extends.refl b
  · intro d symbol hd hNext hTerminal hInput
    rcases hd with hd | rfl
    · exact (h.scanned hd hNext hTerminal hInput).mono hExtends
    · have hProcess : c.process task d = c.add task
          ⟨d.rule, d.dot + 1, d.start, d.state + 1, d.back⟩ := by
        simp [Chart.process, hNext, hTerminal, Chart.scan, hInput]
      rw [hProcess]
      exact Chart.has_add task c _
  · intro waiting done hw hd hNext hDone hMeet
    rcases hd with hd | rfl
    · rcases hw with hw | rfl
      · exact (h.advanced hw hd hNext hDone hMeet).mono hExtends
      · -- the completed item came first, and spans nothing
        have hItem := hThere done hd
        have hTerminal :
            task.grammar.alphabet.isTerminal done.head = false := by
          rw [ht.head_eq hItem]
          exact hp.isTerminal_lhs done.rule
        have hProcess : c.process task waiting =
            c.predict task waiting done.head := by
          simp [Chart.process, hNext, hTerminal]
        have hRules :=
          Chart.grown_predictRules hs (hs.key he).state_le done.head
        have hState : done.state = waiting.state := by
          have hStart : done.start ≤ done.state := (hs.key hItem).start_le
          have := hLast done hd
          omega
        rw [hProcess]
        exact Chart.advanced_predict (Sound.mem_stateItems_iff hRules.sound |>.2
          ⟨hRules.extends_ _ _ hItem, hState⟩) hMeet rfl hDone hState
    · have hProcess : c.process task done = c.complete task done := by
        simp [Chart.process, hDone]
      rw [hProcess]
      rcases hw with hw | rfl
      · exact Chart.advanced_complete task (Sound.mem_stateItems_iff hs |>.2
          ⟨hThere waiting hw, hMeet.symm⟩) hNext
      · simp [hNext] at hDone

/-! ## The agenda -/

/-- An item that is in the chart and has been processed. -/
def Agenda.Processed (a : Agenda) (e : Item) : Prop :=
  a.chart.items[e.id]? = some e ∧
    (e.state < a.state ∨
      e.state = a.state ∧
        e.id ∈ (a.chart.ids a.state).toList.take a.position)

/-- An item whose number is listed in an earlier chart is in that chart. -/
theorem Sound.item_of_mem_ids {c d : Chart} (hs : c.Sound task)
    (hExtends : c.Extends d) {s : Nat} {e : Item}
    (hItem : d.items[e.id]? = some e) (hMem : e.id ∈ c.ids s) :
    c.items[e.id]? = some e := by
  obtain ⟨x, hx, _⟩ := hs.home hMem
  have hSame := hExtends _ _ hx
  rw [hItem, Option.some.injEq] at hSame
  rw [hx, hSame]

/-- The next item lies in the state that is worked on. -/
theorem Agenda.state_of_next {a : Agenda} (hs : a.chart.Sound task) {e : Item}
    (hNext : a.next? = some e) :
    (a.chart.ids a.state)[a.position]? = some e.id ∧ e.state = a.state := by
  obtain ⟨i, hi, hItem⟩ := Option.bind_eq_some_iff.1 hNext
  obtain ⟨x, hx, hHome⟩ := hs.home (Array.mem_of_getElem? hi)
  rw [hItem] at hx
  cases hx
  rw [hs.id_eq hItem]
  exact ⟨hi, hHome⟩

/-- A step that processes an item adds this item only to those that have been
processed. -/
theorem Agenda.processed_of_process {a : Agenda} (hs : a.chart.Sound task)
    {e : Item} (hNext : a.next? = some e) {d : Item}
    (hd : Agenda.Processed
      ⟨a.chart.process task e, a.state, a.position + 1⟩ d) :
    a.Processed d ∨ d = e := by
  have he := (Agenda.next?_eq_some hs hNext).1
  obtain ⟨hi, hState⟩ := Agenda.state_of_next hs hNext
  have hGrows := Chart.grows_process hs he
  obtain ⟨hThere, hWhere⟩ := hd
  rcases hWhere with hBefore | ⟨hHere, hMem⟩
  · have hBefore : d.state < a.state := hBefore
    have hListed := (Chart.grown_process hs he).sound.listed hThere
    rw [hGrows.ids_eq (hState.symm ▸ hBefore)] at hListed
    exact .inl ⟨Sound.item_of_mem_ids hs hGrows.extends hThere hListed,
      .inl hBefore⟩
  · -- the items up to this position are those that were there before
    have hHere : d.state = a.state := hHere
    obtain ⟨more, hPrefix⟩ := hGrows.ids_prefix (r := a.state)
    rw [← Array.getElem?_toList] at hi
    obtain ⟨hLt, hGet⟩ := List.getElem?_eq_some_iff.1 hi
    have hTake : ((a.chart.process task e).ids a.state).toList.take
          (a.position + 1) =
        (a.chart.ids a.state).toList.take a.position ++ [e.id] := by
      rw [← hPrefix, List.take_append_of_le_length hLt,
        List.take_succ_eq_append_getElem hLt, hGet]
    rw [hTake] at hMem
    rcases List.mem_append.1 hMem with hMem | hMem
    · have hListed := Array.mem_toList_iff.1 (List.mem_of_mem_take hMem)
      exact .inl ⟨Sound.item_of_mem_ids hs hGrows.extends hThere hListed,
        .inr ⟨hHere, hMem⟩⟩
    · right
      have hSame := hGrows.extends _ _ he
      rw [← List.mem_singleton.1 hMem, hThere, Option.some.injEq] at hSame
      exact hSame

/-- Every item of a state has been processed when its next one is missing. -/
theorem Agenda.processed_of_next {a : Agenda} (hs : a.chart.Sound task)
    (hNext : a.next? = none) {d : Item}
    (hd : Agenda.Processed ⟨a.chart, a.state + 1, 0⟩ d) : a.Processed d := by
  obtain ⟨hThere, hBefore | ⟨_, hMem⟩⟩ := hd
  · refine ⟨hThere, ?_⟩
    have hBefore : d.state < a.state + 1 := hBefore
    by_cases hHere : d.state = a.state
    · right
      have hSize : (a.chart.ids a.state).size ≤ a.position := by
        by_cases hLt : a.position < (a.chart.ids a.state).size
        · obtain ⟨x, hx, _⟩ :=
            hs.home (Array.getElem_mem hLt)
          simp [Agenda.next?, hLt, hx] at hNext
        · omega
      rw [List.take_of_length_le (by simpa using hSize), Array.mem_toList_iff,
        ← hHere]
      exact ⟨rfl, hs.listed hThere⟩
    · exact .inl (by omega)
  · simp at hMem

/-- At every point of a run the chart holds what the items that have been
processed call for. -/
theorem Agenda.Reachable.closed (hp : task.Proper) {a : Agenda}
    (h : a.Reachable task) : Closed task a.chart a.Processed := by
  induction h with
  | start =>
      have hNone : ∀ e, ¬ (Agenda.start task).Processed e := by
        rintro e ⟨_, hLt | ⟨_, hMem⟩⟩
        · exact absurd hLt (Nat.not_lt_zero _)
        · simp [Agenda.start] at hMem
      exact
        { seeded := fun rule hRule =>
            Chart.has_predictRules task (Chart.blank task) 0 hRule
          predicted := fun he => absurd he (hNone _)
          scanned := fun he => absurd he (hNone _)
          advanced := fun hw => absurd hw (hNone _) }
  | step hReachable hStep ih =>
      rename_i a b
      have hs := hReachable.sound
      rcases (Agenda.step_eq_some hStep).2 with ⟨e, hNext, rfl⟩ | ⟨hNext, rfl⟩
      · have he := (Agenda.next?_eq_some hs hNext).1
        have hState := (Agenda.state_of_next hs hNext).2
        have hLast : ∀ d, a.Processed d → d.state ≤ e.state := by
          rintro d ⟨_, hLt | ⟨hEq, _⟩⟩ <;> omega
        exact (ih.process hp hs (hReachable.tiled hp) (fun d hd => hd.1) he
          hLast).imp fun d hd => Agenda.processed_of_process hs hNext hd
      · exact ih.imp fun d hd => Agenda.processed_of_next hs hNext hd

/-! ## The finished chart -/

section Finished

variable (task)

theorem Task.sound_chart : task.chart.Sound task :=
  (Agenda.reachable_run task _ .start).sound

theorem Task.tiled_chart (hp : task.Proper) : Tiled task task.chart :=
  (Agenda.reachable_run task _ .start).tiled hp

/-- The finished chart holds what all of its items call for. -/
theorem Task.closed_chart (hp : task.Proper) :
    Closed task task.chart fun e => task.chart.items[e.id]? = some e := by
  have hReachable := Agenda.reachable_run task (.start task) .start
  have hStep := Agenda.step_run task (.start task) .start
  refine (hReachable.closed hp).imp fun e he => ⟨he, .inl ?_⟩
  have hState : e.state ≤ task.input.size :=
    (task.sound_chart.key he).state_le
  have hLast := Agenda.step_eq_none_iff.1 hStep
  omega

end Finished

/-! ## An item for every tree -/

/-- An item has matched the first children of a tree. -/
structure Reached (task : Task α) (c : Chart) (rule start : Nat)
    (done : List ParseTree) (e : Item) : Prop where
  item : c.items[e.id]? = some e
  rule_eq : e.rule = rule
  dot_eq : e.dot = done.length
  start_eq : e.start = start
  state_eq : e.state = start + (ParseTree.yieldList done).length
  trees_eq : symbolTrees task (itemTree task c.items)
    ((task.rhs rule).take done.length) e.back = done

section Reached

variable {c : Chart} {rule start : Nat} {done : List ParseTree} {e : Item}

theorem Reached.next? (h : Reached task c rule start done e) :
    task.next? e = (task.rhs rule)[done.length]? := by
  rw [Task.next?, Task.symbolAt?, h.rule_eq, h.dot_eq]

theorem Reached.matched (ht : Tiled task c)
    (h : Reached task c rule start done e) :
    Matched task c.items ((task.rhs rule).take done.length) e.back e.start
      e.state := by
  have := ht.matched h.item
  rwa [h.rule_eq, h.dot_eq] at this

theorem exists_reached_nil (hs : c.Sound task)
    (hHas : c.Has ⟨rule, 0, start, start, []⟩) :
    ∃ e, Reached task c rule start [] e := by
  obtain ⟨i, e, hItem, hKey⟩ := hHas
  simp only [Item.key, Key.mk.injEq] at hKey
  obtain ⟨hRule, hDot, hStart, hState, hBack⟩ := hKey
  refine ⟨e, ?_, hRule, hDot, hStart, by simp [hState], by simp [symbolTrees]⟩
  rw [hs.id_eq hItem, hItem]

/-- An item that has matched some children is moved over the next one, once
its key with one more back pointer, or none, is there. -/
theorem Reached.extend (hs : c.Sound task) (ht : Tiled task c)
    (h : Reached task c rule start done e) {symbol : SymbolId}
    (hSymbol : (task.rhs rule)[done.length]? = some symbol)
    (more : List Nat) {t : ParseTree}
    (hTree : symbolTrees task (itemTree task c.items) [symbol] more = [t])
    (hHas : c.Has ⟨e.rule, e.dot + 1, e.start, e.state + t.yield.length,
      e.back ++ more⟩) :
    ∃ e', Reached task c rule start (done ++ [t]) e' := by
  obtain ⟨i, e', hItem, hKey⟩ := hHas
  simp only [Item.key, Key.mk.injEq] at hKey
  obtain ⟨hRule, hDot, hStart, hState, hBack⟩ := hKey
  obtain ⟨hLt, hGet⟩ := List.getElem?_eq_some_iff.1 hSymbol
  refine ⟨e', ?_, hRule.trans h.rule_eq, ?_, hStart.trans h.start_eq, ?_, ?_⟩
  · rw [hs.id_eq hItem, hItem]
  · rw [hDot, h.dot_eq]
    simp
  · rw [hState, h.state_eq, ParseTree.yieldList_append]
    simp [Nat.add_assoc]
  · rw [List.length_append, List.length_singleton,
      List.take_succ_eq_append_getElem hLt, hGet, hBack,
      (h.matched ht).symbolTrees_append, h.trees_eq, hTree]

/-- A terminal child is matched by the input. -/
theorem Reached.scan (hs : c.Sound task) (ht : Tiled task c)
    (hc : Closed task c fun e => c.items[e.id]? = some e)
    (h : Reached task c rule start done e) {symbol : SymbolId}
    (hSymbol : (task.rhs rule)[done.length]? = some symbol)
    (hTerminal : task.grammar.alphabet.isTerminal symbol = true)
    (hInput : [symbol] <+: task.input.toList.drop e.state) :
    ∃ e', Reached task c rule start (done ++ [.terminal symbol]) e' := by
  have hAt : task.input[e.state]? = some symbol := by
    obtain ⟨tail, hTail⟩ := hInput
    rw [← Array.getElem?_toList, ← Nat.add_zero e.state,
      ← List.getElem?_drop, ← hTail]
    rfl
  have hHas := hc.scanned h.item (h.next?.trans hSymbol) hTerminal hAt
  refine h.extend hs ht hSymbol [] ?_ ?_
  · rw [symbolTrees_terminal hTerminal]
    simp [symbolTrees]
  · rw [ParseTree.yield_terminal, List.append_nil]
    exact hHas

/-- If advancing over the last child would close a cycle, the tree repeats its
rule. -/
theorem Reached.repeats (hp : task.Proper) (hs : c.Sound task)
    (ht : Tiled task c) (h : Reached task c rule start done e) {d : Item}
    (hItem : c.items[d.id]? = some d) (hDone : task.next? d = none)
    (hMeet : d.start = e.state)
    (hCycle : ∃ b ∈ e.back ++ [d.id],
      Chart.repeats c.items e.rule e.start d.state b = true)
    (symbol : SymbolId) :
    (ParseTree.branch rule symbol
      (done ++ [itemTree task c.items d.id])).Repeats := by
  have hHead : task.grammar.alphabet.isTerminal d.head = false := by
    rw [ht.head_eq hItem]
    exact hp.isTerminal_lhs d.rule
  have hSpan : d.start ≤ d.state := (hs.key hItem).start_le
  have hFrom : e.start ≤ e.state := (hs.key h.item).start_le
  have hMatched := (h.matched ht).append
    (hMeet ▸ Matched.completed hHead hItem hDone (.nil d.state))
  have hTrees : symbolTrees task (itemTree task c.items)
      ((task.rhs rule).take done.length ++ [d.head]) (e.back ++ [d.id]) =
        done ++ [itemTree task c.items d.id] := by
    rw [(h.matched ht).symbolTrees_append, h.trees_eq,
      symbolTrees_nonterminal hHead]
    simp [symbolTrees]
  have hChild : ∀ b ∈ e.back ++ [d.id],
      Chart.Child task c.items e.start d.state b := by
    intro b hb
    rcases List.mem_append.1 hb with hb | hb
    · obtain ⟨x, hx, hNext, hLeft, hRight⟩ :=
        ((hs.key h.item).child b hb).exists_item
      have hRight : x.state ≤ e.state := hRight
      exact ⟨x, hx, hNext, hLeft, by omega⟩
    · rw [List.mem_singleton.1 hb]
      exact ⟨d, hItem, hDone, by omega, Nat.le_refl _⟩
  have hLength : (ParseTree.yieldList (symbolTrees task
      (itemTree task c.items) ((task.rhs rule).take done.length ++ [d.head])
      (e.back ++ [d.id]))).length = d.state - e.start := by
    have hDoneLength := h.state_eq
    have hStart := h.start_eq
    rw [hTrees, ParseTree.yieldList_append, List.length_append,
      ParseTree.yieldList_cons, ParseTree.yieldList_nil, List.append_nil,
      length_yield_itemTree hs ht hItem hDone]
    omega
  have hIff := repeats_branch_iff_exists hp hs ht e.rule hMatched hChild
    hLength symbol
  rw [hTrees, h.rule_eq] at hIff
  exact hIff.2 (h.rule_eq ▸ hCycle)

end Reached

/-- A completed item stands for a tree. -/
structure Completed (task : Task α) (c : Chart) (start : Nat) (t : ParseTree)
    (d : Item) : Prop where
  item : c.items[d.id]? = some d
  done : task.next? d = none
  head_eq : d.head = t.symbol
  start_eq : d.start = start
  tree_eq : itemTree task c.items d.id = t

section Rows

variable {c : Chart} {rule start : Nat} {done todo : List ParseTree}
  {t : ParseTree} {e : Item}

/-- An item that has matched all children of a tree stands for the tree. -/
theorem Reached.completed (hs : c.Sound task) (ht : Tiled task c)
    (h : Reached task c rule start done e)
    (hLength : (task.rhs rule).length = done.length) :
    Completed task c start (.branch rule (task.lhs rule) done) e := by
  have hHead : e.head = task.lhs rule := by
    rw [ht.head_eq h.item, h.rule_eq]
  have hTrees := h.trees_eq
  rw [← hLength, List.take_length] at hTrees
  refine ⟨h.item, ?_, hHead, h.start_eq, ?_⟩
  · rw [h.next?, List.getElem?_eq_none_iff]
    exact Nat.le_of_eq hLength
  · rw [itemTree_eq hs h.item, hHead, h.rule_eq, hTrees]

/-- An item that has matched some children is moved over the next one when a
completed item stands for it. -/
theorem Reached.advance (hp : task.Proper) (hs : c.Sound task)
    (ht : Tiled task c)
    (hc : Closed task c fun e => c.items[e.id]? = some e)
    (h : Reached task c rule start done e)
    (hLength : (task.rhs rule).length = (done ++ t :: todo).length)
    (hSymbol : (task.rhs rule)[done.length]? = some t.symbol)
    (hTerminal : task.grammar.alphabet.isTerminal t.symbol = false)
    {symbol : SymbolId}
    (hRoot : ¬ (ParseTree.branch rule symbol (done ++ t :: todo)).Repeats)
    {d : Item} (hd : Completed task c e.state t d) :
    ∃ e', Reached task c rule start (done ++ [t]) e' := by
  have hNext := h.next?.trans hSymbol
  rw [← hd.head_eq] at hSymbol hNext hTerminal
  rcases hc.advanced h.item hd.item hNext hd.done hd.start_eq with
    hHas | ⟨hLast, hCycle⟩
  · have hWide := length_yield_itemTree hs ht hd.item hd.done
    have hSpan : d.start ≤ d.state := (hs.key hd.item).start_le
    have hStart := hd.start_eq
    rw [hd.tree_eq] at hWide
    refine h.extend hs ht hSymbol [d.id] ?_ ?_
    · rw [symbolTrees_nonterminal hTerminal, hd.tree_eq]
      simp [symbolTrees]
    · rwa [hWide, show e.state + (d.state - d.start) = d.state by omega]
  · -- this was the last child, and the tree would repeat its rule
    have hDot := h.dot_eq
    rw [h.rule_eq, hLength] at hLast
    simp only [List.length_append, List.length_cons] at hLast
    have hNil : todo = [] := by
      apply List.length_eq_zero_iff.1
      omega
    have hRepeats := h.repeats hp hs ht hd.item hd.done hd.start_eq hCycle
      symbol
    rw [hd.tree_eq] at hRepeats
    exact absurd hRepeats (hNil ▸ hRoot)

/-- The dot is moved over the children of a tree, one after another, as long
as the next one can be matched where the ones before it end. -/
theorem exists_reached {ts : List ParseTree}
    (hStep : ∀ {done todo : List ParseTree} {t : ParseTree} {e : Item},
      ts = done ++ t :: todo → Reached task c rule start done e →
      ∃ e', Reached task c rule start (done ++ [t]) e') :
    ∀ {todo done : List ParseTree}, ts = done ++ todo →
      (∃ e, Reached task c rule start done e) →
      ∃ e, Reached task c rule start ts e := by
  intro todo
  induction todo with
  | nil =>
      rintro done rfl hReached
      rwa [List.append_nil]
  | cons t todo ih =>
      rintro done hSplit ⟨e, hReached⟩
      exact ih (by simp [hSplit]) (hStep hSplit hReached)

/-- What an item has matched ends where the next child begins. -/
theorem Reached.prefix_drop (h : Reached task c rule start done e)
    (hYield : ParseTree.yieldList (done ++ t :: todo) <+:
      task.input.toList.drop start) :
    t.yield <+: task.input.toList.drop e.state := by
  rw [ParseTree.yieldList_append, ParseTree.yieldList_cons] at hYield
  obtain ⟨tail, hTail⟩ := hYield
  refine ⟨ParseTree.yieldList todo ++ tail, ?_⟩
  rw [h.state_eq, ← List.drop_drop, ← hTail]
  simp

end Rows

/-- The chart has a completed item for each derivation tree without
repetitions of a symbol that was predicted where the tree begins. -/
theorem Closed.exists_completed (hp : task.Proper) {c : Chart}
    (hs : c.Sound task) (ht : Tiled task c)
    (hc : Closed task c fun e => c.items[e.id]? = some e) {t : ParseTree}
    (hDerivation : t.IsDerivation task.grammar) :
    ∀ start, task.grammar.alphabet.isTerminal t.symbol = false →
      t.RepetitionFree →
      (∀ rule ∈ task.rulesOf t.symbol, c.Has ⟨rule, 0, start, start, []⟩) →
      t.yield <+: task.input.toList.drop start →
      ∃ d, Completed task c start t d := by
  induction hDerivation with
  | terminal hTerminal =>
      intro start hSymbol
      rw [ParseTree.symbol_terminal, hTerminal] at hSymbol
      simp at hSymbol
  | branch hRule hSymbols hRows ih =>
      rename_i ix r ts
      intro start _ hFree hPredicted hYield
      obtain ⟨hRoot, hFreeRows⟩ := ParseTree.repetitionFree_branch_iff.1 hFree
      rw [ParseTree.yield_branch] at hYield
      have hGet : task.rules[ix]? = some r := by rw [hp.getElem?_rules, hRule]
      have hLhs : task.lhs ix = r.lhs := by simp [Task.lhs, hGet]
      have hRhs : task.rhs ix = ts.map ParseTree.symbol := by
        simp [Task.rhs, hGet, hSymbols]
      have hLength : (task.rhs ix).length = ts.length := by simp [hRhs]
      have hSize : ix < task.rules.size :=
        (Array.getElem?_eq_some_iff.1 hGet).1
      have hStep : ∀ {done todo : List ParseTree} {t : ParseTree} {e : Item},
          ts = done ++ t :: todo → Reached task c ix start done e →
          ∃ e', Reached task c ix start (done ++ [t]) e' := by
        rintro done todo t e rfl hReached
        have hMem : t ∈ done ++ t :: todo := by simp
        have hSymbol : (task.rhs ix)[done.length]? = some t.symbol := by
          simp [hRhs]
        have hPrefix := hReached.prefix_drop hYield
        by_cases hTerminal :
            task.grammar.alphabet.isTerminal t.symbol = true
        · have hLeaf := (hRows t hMem).eq_terminal hp.wellFormed hTerminal
          rw [hLeaf, ParseTree.yield_terminal] at hPrefix
          rw [hLeaf]
          exact hReached.scan hs ht hc hSymbol hTerminal hPrefix
        · rw [Bool.not_eq_true] at hTerminal
          have hBegun := hc.predicted hReached.item
            (hReached.next?.trans hSymbol) hTerminal
          obtain ⟨d, hd⟩ := ih t hMem e.state hTerminal (hFreeRows t hMem)
            hBegun hPrefix
          exact hReached.advance hp hs ht hc hLength hSymbol hTerminal hRoot hd
      obtain ⟨e, hReached⟩ := exists_reached hStep (List.nil_append ts).symm
        (exists_reached_nil hs (hPredicted ix
          (Task.mem_rulesOf.2 ⟨hSize, hLhs⟩)))
      exact ⟨e, hLhs ▸ hReached.completed hs ht hLength⟩

end StochasticGrammar.Earley
