import StochasticGrammar.Parse.Earley.Chart

/-!
# What holds of every Earley chart

A chart is built by adding items one at a time, and every addition keeps a
list of facts (`Sound`): each item lies in its state and is there once, its dot
and span are in range, and its back pointers lead to earlier, completed items
inside its span. A completed item has no descendant over its own span that
completes the same rule.

The loops that process an item are taken over any part of their items
(`completeOver`, `addRules`, `passOver`), so that charts may also be looked at
while a loop is under way.

Main results: the first chart is sound (`sound_seed`), and processing an item
keeps a chart sound and loses no item (`grown_process`); so every chart on the
agenda is sound (`Agenda.Reachable.sound`).
-/

namespace StochasticGrammar.Earley

variable {α : Type}

namespace Chart

/-! ## The facts -/

/-- Item `b` is a completed one inside a span. -/
structure Child (task : Task α) (items : Array Item) (start state b : Nat) :
    Prop where
  /-- The item is there, completed, and inside the span. -/
  exists_item : ∃ d, items[b]? = some d ∧ task.next? d = none ∧
    start ≤ d.start ∧ d.state ≤ state

/-- What holds of the key of an item that may be in a chart. -/
structure KeySound (task : Task α) (items : Array Item) (k : Key) : Prop where
  rule_lt : k.rule < task.rules.size
  dot_le : k.dot ≤ (task.rhs k.rule).length
  state_le : k.state ≤ task.input.size
  start_le : k.start ≤ k.state
  back_length : k.back.length ≤ k.dot
  child : ∀ b ∈ k.back, Child task items k.start k.state b
  acyclic : task.symbolAt? k.rule k.dot = none →
    ∀ b ∈ k.back, repeats items k.rule k.start k.state b = false

/-- What holds of every chart. -/
structure Sound (task : Task α) (c : Chart) : Prop where
  size_states : c.states.size = task.input.size + 1
  size_ids : ∀ s, (c.ids s).size ≤ c.items.size
  listed : ∀ {i : Nat} {e : Item}, c.items[i]? = some e → i ∈ c.ids e.state
  home : ∀ {s i : Nat}, i ∈ c.ids s →
    ∃ e, c.items[i]? = some e ∧ e.state = s
  id_eq : ∀ {i : Nat} {e : Item}, c.items[i]? = some e → e.id = i
  back_lt : ∀ {i : Nat} {e : Item}, c.items[i]? = some e →
    ∀ b ∈ e.back, b < i
  key : ∀ {i : Nat} {e : Item}, c.items[i]? = some e →
    KeySound task c.items e.key
  distinct : ∀ {i j : Nat} {d e : Item}, c.items[i]? = some d →
    c.items[j]? = some e → d.key = e.key → i = j

/-- The items of the first chart are in the second. -/
def Extends (c d : Chart) : Prop :=
  ∀ (i : Nat) (e : Item), c.items[i]? = some e → d.items[i]? = some e

theorem Extends.refl (c : Chart) : c.Extends c := fun _ _ h => h

theorem Extends.trans {b c d : Chart} (hbc : b.Extends c)
    (hcd : c.Extends d) : b.Extends d := fun i e h => hcd i e (hbc i e h)

/-! ## One item more -/

/-- The item that a key becomes. -/
def newItem (c : Chart) (head : SymbolId) (k : Key) : Item :=
  ⟨c.items.size, k.rule, head, k.dot, k.start, k.state, k.back⟩

theorem items_push (c : Chart) (head : SymbolId) (k : Key) :
    (c.push head k).items = c.items.push (c.newItem head k) := rfl

theorem key_newItem (c : Chart) (head : SymbolId) (k : Key) :
    (c.newItem head k).key = k := rfl

theorem getElem?_push (c : Chart) (head : SymbolId) (k : Key) (i : Nat) :
    (c.push head k).items[i]? =
      if i = c.items.size then some (c.newItem head k) else c.items[i]? := by
  rw [items_push, Array.getElem?_push]

theorem ids_push (c : Chart) (head : SymbolId) (k : Key) (s : Nat)
    (hState : k.state < c.states.size) :
    (c.push head k).ids s =
      if k.state = s then (c.ids s).push c.items.size else c.ids s := by
  simp only [ids, push, Array.getElem?_modify]
  by_cases h : k.state = s
  · subst h
    simp [hState]
  · simp [h]

theorem lt_size_of_getElem? {items : Array Item} {i : Nat} {e : Item}
    (h : items[i]? = some e) : i < items.size := by
  have := Array.getElem?_eq_some_iff.1 h
  exact this.1

theorem extends_push (c : Chart) (head : SymbolId) (k : Key) :
    c.Extends (c.push head k) := by
  intro i e h
  have hLt := lt_size_of_getElem? h
  rw [getElem?_push, if_neg (by omega)]
  exact h

/-- The search for a repeated rule looks at earlier items only. -/
theorem repeats_push (items : Array Item) (new : Item)
    (rule start state b : Nat) (hb : b < items.size) :
    repeats (items.push new) rule start state b =
      repeats items rule start state b := by
  induction b using Nat.strongRecOn with
  | _ b ih =>
    have hGet : (items.push new)[b]? = items[b]? := by
      rw [Array.getElem?_push, if_neg (by omega)]
    rw [repeats, repeats, hGet]
    cases hItem : items[b]? with
    | none => rfl
    | some e =>
      have hAny : (e.back.any fun child =>
            if child < b then
              repeats (items.push new) rule start state child
            else false) =
          e.back.any fun child =>
            if child < b then repeats items rule start state child
            else false := by
        congr 1
        funext child
        by_cases hLt : child < b
        · simp only [hLt, if_true]
          exact ih child hLt (by omega)
        · simp [hLt]
      simp only [hAny]

theorem Child.push {task : Task α} {items : Array Item} {start state b : Nat}
    (h : Child task items start state b) (new : Item) :
    Child task (items.push new) start state b := by
  obtain ⟨d, hd, hRest⟩ := h.exists_item
  refine ⟨d, ?_, hRest⟩
  have hLt := lt_size_of_getElem? hd
  rw [Array.getElem?_push, if_neg (by omega)]
  exact hd

theorem Child.lt_size {task : Task α} {items : Array Item}
    {start state b : Nat} (h : Child task items start state b) :
    b < items.size := by
  obtain ⟨d, hd, _⟩ := h.exists_item
  exact lt_size_of_getElem? hd

theorem KeySound.push {task : Task α} {items : Array Item} {k : Key}
    (h : KeySound task items k) (new : Item) :
    KeySound task (items.push new) k where
  rule_lt := h.rule_lt
  dot_le := h.dot_le
  state_le := h.state_le
  start_le := h.start_le
  back_length := h.back_length
  child b hb := (h.child b hb).push new
  acyclic hNext b hb := by
    rw [repeats_push _ _ _ _ _ _ (h.child b hb).lt_size]
    exact h.acyclic hNext b hb

/-- A key that no item of its state has is not the key of any item. -/
theorem Sound.key_ne {task : Task α} {c : Chart} (h : c.Sound task) {k : Key}
    (hNew : c.hasKey k = false) {i : Nat} {e : Item}
    (hItem : c.items[i]? = some e) : e.key ≠ k := by
  intro hKey
  have hListed := h.listed hItem
  have hState : e.state = k.state := congrArg Key.state hKey
  rw [hState] at hListed
  obtain ⟨j, hj, hGet⟩ := Array.mem_iff_getElem.1 hListed
  rw [hasKey, Array.any_eq_false] at hNew
  apply hNew j hj
  rw [hGet, hItem]
  simp [hKey]

/-- Adding an item with a sound, new key keeps a chart sound. -/
theorem Sound.push {task : Task α} {c : Chart} (h : c.Sound task)
    (head : SymbolId) {k : Key} (hKey : KeySound task c.items k)
    (hNew : c.hasKey k = false) : (c.push head k).Sound task := by
  have hState : k.state < c.states.size := by
    rw [h.size_states]
    have := hKey.state_le
    omega
  constructor
  · simp [Chart.push, h.size_states]
  · intro s
    rw [ids_push _ _ _ _ hState, items_push, Array.size_push]
    have := h.size_ids s
    split
    · rw [Array.size_push]
      omega
    · omega
  · intro i e hItem
    rw [getElem?_push] at hItem
    rw [ids_push _ _ _ _ hState]
    split at hItem
    · rename_i hLast
      cases hItem
      subst hLast
      rw [if_pos (by rfl)]
      simp
    · have := h.listed hItem
      split
      · exact Array.mem_push.2 (.inl this)
      · exact this
  · intro s i hi
    rw [ids_push _ _ _ _ hState] at hi
    by_cases hLast : i = c.items.size ∧ k.state = s
    · refine ⟨c.newItem head k, ?_, hLast.2⟩
      rw [getElem?_push, if_pos hLast.1]
    · have hOld : i ∈ c.ids s := by
        split at hi
        · rcases Array.mem_push.1 hi with hi | hi
          · exact hi
          · exact absurd ⟨hi, by assumption⟩ hLast
        · exact hi
      obtain ⟨e, hItem, hHome⟩ := h.home hOld
      exact ⟨e, extends_push c head k i e hItem, hHome⟩
  · intro i e hItem
    rw [getElem?_push] at hItem
    split at hItem
    · rename_i hLast
      cases hItem
      exact hLast.symm
    · exact h.id_eq hItem
  · intro i e hItem b hb
    rw [getElem?_push] at hItem
    split at hItem
    · rename_i hLast
      cases hItem
      rw [hLast]
      exact (hKey.child b hb).lt_size
    · exact h.back_lt hItem b hb
  · intro i e hItem
    rw [getElem?_push] at hItem
    rw [items_push]
    split at hItem
    · cases hItem
      rw [key_newItem]
      exact hKey.push _
    · exact (h.key hItem).push _
  · intro i j d e hd he hEq
    rw [getElem?_push] at hd he
    split at hd <;> split at he
    · omega
    · cases hd
      rw [key_newItem] at hEq
      exact absurd hEq.symm (h.key_ne hNew he)
    · cases he
      rw [key_newItem] at hEq
      exact absurd hEq (h.key_ne hNew hd)
    · exact h.distinct hd he hEq

theorem extends_add (task : Task α) (c : Chart) (k : Key) :
    c.Extends (c.add task k) := by
  unfold add
  split
  · exact Extends.refl c
  · exact extends_push c _ k

theorem Sound.add {task : Task α} {c : Chart} (h : c.Sound task) {k : Key}
    (hKey : KeySound task c.items k) : (c.add task k).Sound task := by
  unfold Chart.add
  by_cases hHas : c.hasKey k = true
  · rw [if_pos hHas]
    exact h
  · rw [if_neg hHas]
    exact h.push _ hKey (by simpa using hHas)

/-! ## Advancing an item -/

theorem lt_length_of_next? {task : Task α} {e : Item} {symbol : SymbolId}
    (h : task.next? e = some symbol) : e.dot < (task.rhs e.rule).length := by
  have := List.getElem?_eq_some_iff.1 h
  exact this.1

theorem length_le_of_symbolAt? {task : Task α} {rule dot : Nat}
    (h : task.symbolAt? rule dot = none) : (task.rhs rule).length ≤ dot :=
  List.getElem?_eq_none_iff.1 h

theorem extends_advance (task : Task α) (c : Chart) (waiting done : Item)
    (state : Nat) : c.Extends (c.advance task waiting done state) := by
  unfold advance
  simp only
  split
  · exact Extends.refl c
  · exact extends_add task c _

/-- Advancing an item over a completed one that starts where the item ends
keeps a chart sound. -/
theorem Sound.advance {task : Task α} {c : Chart} (h : c.Sound task)
    {waiting done : Item} {symbol : SymbolId}
    (hWaiting : c.items[waiting.id]? = some waiting)
    (hDone : c.items[done.id]? = some done)
    (hSymbol : task.next? waiting = some symbol)
    (hComplete : task.next? done = none)
    (hMeet : waiting.state = done.start) :
    (c.advance task waiting done done.state).Sound task := by
  unfold Chart.advance
  simp only
  split
  · exact ⟨h.size_states, h.size_ids, h.listed, h.home, h.id_eq, h.back_lt,
      h.key, h.distinct⟩
  · rename_i hCyclic
    have hKeyW := h.key hWaiting
    have hKeyD := h.key hDone
    have hStartW : waiting.start ≤ waiting.state := hKeyW.start_le
    have hStartD : done.start ≤ done.state := hKeyD.start_le
    have hDot := lt_length_of_next? hSymbol
    apply h.add
    constructor
    · exact hKeyW.rule_lt
    · exact hDot
    · exact hKeyD.state_le
    · show waiting.start ≤ done.state
      omega
    · have : waiting.back.length ≤ waiting.dot := hKeyW.back_length
      simp
      omega
    · intro b hb
      rcases List.mem_append.1 hb with hb | hb
      · obtain ⟨d, hd, hNext, hFrom, hTo⟩ :=
          (hKeyW.child b hb).exists_item
        have hTo : d.state ≤ waiting.state := hTo
        refine ⟨d, hd, hNext, hFrom, ?_⟩
        show d.state ≤ done.state
        omega
      · have hb : b = done.id := by simpa using hb
        subst hb
        refine ⟨done, hDone, hComplete, ?_, Nat.le_refl _⟩
        show waiting.start ≤ done.start
        omega
    · intro hNext b hb
      have hLength : (task.rhs waiting.rule).length ≤ waiting.dot + 1 :=
        length_le_of_symbolAt? hNext
      have hFull : (waiting.dot + 1 == (task.rhs waiting.rule).length) = true :=
        by simpa using by omega
      rw [hFull, Bool.true_and, isCyclic] at hCyclic
      have hFalse := List.any_eq_false.1 (Bool.not_eq_true _ ▸ hCyclic)
      simpa using hFalse b hb

/-! ## Processing an item -/

/-- A chart that is sound and has the items of another. -/
structure Grown (task : Task α) (c d : Chart) : Prop where
  sound : d.Sound task
  extends_ : c.Extends d

theorem Grown.refl {task : Task α} {c : Chart} (h : c.Sound task) :
    Grown task c c := ⟨h, Extends.refl c⟩

/-- A fold over items grows a chart if each step does. -/
theorem Grown.foldl {β : Type} {task : Task α} {c : Chart}
    {f : Chart → β → Chart} (xs : List β) {d : Chart} (hStart : Grown task c d)
    (hStep : ∀ x ∈ xs, ∀ {b}, Grown task c b → Grown task c (f b x)) :
    Grown task c (xs.foldl f d) := by
  induction xs generalizing d with
  | nil => exact hStart
  | cons x xs ih =>
    apply ih (hStep x (by simp) hStart)
    intro y hy
    exact hStep y (by simp [hy])

/-- The items of a state are in the chart, and lie in that state. -/
theorem Sound.mem_stateItems {task : Task α} {c : Chart} (h : c.Sound task)
    {s : Nat} {e : Item} (he : e ∈ c.stateItems s) :
    c.items[e.id]? = some e ∧ e.state = s := by
  obtain ⟨i, hi, hItem⟩ := List.mem_filterMap.1 he
  obtain ⟨d, hd, hHome⟩ := h.home (Array.mem_toList_iff.1 hi)
  rw [hd] at hItem
  cases hItem
  rw [h.id_eq hd]
  exact ⟨hd, hHome⟩

/-- The waiting ones of some items are advanced over a completed one. -/
def completeOver (task : Task α) (c : Chart) (e : Item) (items : List Item) :
    Chart :=
  items.foldl
    (fun c waiting =>
      if task.next? waiting == some e.head then
        c.advance task waiting e e.state
      else c) c

theorem grown_completeOver {task : Task α} {c : Chart} (h : c.Sound task)
    {e : Item} (he : c.items[e.id]? = some e) (hNext : task.next? e = none)
    {items : List Item} (hItems : items ⊆ c.stateItems e.start) :
    Grown task c (c.completeOver task e items) := by
  apply Grown.foldl _ (Grown.refl h)
  intro waiting hMem b hb
  obtain ⟨hWaiting, hState⟩ := h.mem_stateItems (hItems hMem)
  by_cases hMatch : (task.next? waiting == some e.head) = true
  · rw [if_pos hMatch]
    have hSymbol := eq_of_beq hMatch
    exact ⟨hb.sound.advance (hb.extends_ _ _ hWaiting)
      (hb.extends_ _ _ he) hSymbol
      hNext hState, hb.extends_.trans (extends_advance _ _ _ _ _)⟩
  · rw [if_neg hMatch]
    exact hb

theorem grown_complete {task : Task α} {c : Chart} (h : c.Sound task)
    {e : Item} (he : c.items[e.id]? = some e) (hNext : task.next? e = none) :
    Grown task c (c.complete task e) :=
  grown_completeOver h he hNext (List.Subset.refl _)

theorem grown_scan {task : Task α} {c : Chart} (h : c.Sound task)
    {e : Item} (he : c.items[e.id]? = some e) {terminal : SymbolId}
    (hNext : task.next? e = some terminal) :
    Grown task c (c.scan task e terminal) := by
  unfold scan
  split
  · rename_i hInput
    have hKey := h.key he
    have hLt : e.state < task.input.size :=
      (Array.getElem?_eq_some_iff.1 (eq_of_beq hInput)).1
    have hStart : e.start ≤ e.state := hKey.start_le
    have hBack : e.back.length ≤ e.dot := hKey.back_length
    refine ⟨h.add ?_, extends_add _ _ _⟩
    constructor
    · exact hKey.rule_lt
    · exact lt_length_of_next? hNext
    · exact hLt
    · show e.start ≤ e.state + 1
      omega
    · show e.back.length ≤ e.dot + 1
      omega
    · intro b hb
      obtain ⟨d, hd, hDone, hFrom, hTo⟩ := (hKey.child b hb).exists_item
      have hTo : d.state ≤ e.state := hTo
      refine ⟨d, hd, hDone, hFrom, ?_⟩
      show d.state ≤ e.state + 1
      omega
    · intro _ b hb
      obtain ⟨d, hd, _, _, hTo⟩ := (hKey.child b hb).exists_item
      have hTo : d.state ≤ e.state := hTo
      have hOutside : (d.state == e.state + 1) = false := by
        simp
        omega
      show repeats c.items e.rule e.start (e.state + 1) b = false
      rw [repeats, hd]
      simp [hOutside]
  · exact Grown.refl h

/-- Some rules are added to a state. -/
def addRules (task : Task α) (c : Chart) (state : Nat) (rules : List Nat) :
    Chart :=
  rules.foldl (fun c rule => c.add task ⟨rule, 0, state, state, []⟩) c

theorem grown_addRules {task : Task α} {c : Chart} (h : c.Sound task)
    {state : Nat} (hState : state ≤ task.input.size) {nonterminal : SymbolId}
    {rules : List Nat} (hRules : rules ⊆ task.rulesOf nonterminal) :
    Grown task c (c.addRules task state rules) := by
  apply Grown.foldl _ (Grown.refl h)
  intro rule hMem b hb
  have hRule : rule < task.rules.size := by
    have := (List.mem_filter.1 (hRules hMem)).1
    simpa using this
  refine ⟨hb.sound.add ?_, hb.extends_.trans (extends_add _ _ _)⟩
  exact ⟨hRule, Nat.zero_le _, hState, Nat.le_refl _, Nat.zero_le _,
    by simp, by simp⟩

theorem grown_predictRules {task : Task α} {c : Chart} (h : c.Sound task)
    {state : Nat} (hState : state ≤ task.input.size) (nonterminal : SymbolId) :
    Grown task c (c.predictRules task state nonterminal) :=
  grown_addRules h hState (List.Subset.refl _)

/-- An item before a nonterminal is advanced over the completions of it that
span nothing, of some items. -/
def passOver (task : Task α) (c : Chart) (e : Item) (nonterminal : SymbolId)
    (items : List Item) : Chart :=
  items.foldl
    (fun c done =>
      if done.start == e.state && done.head == nonterminal &&
          (task.next? done).isNone then
        c.advance task e done e.state
      else c) c

theorem grown_passOver {task : Task α} {c : Chart} (h : c.Sound task)
    {e : Item} (he : c.items[e.id]? = some e) {nonterminal : SymbolId}
    (hNext : task.next? e = some nonterminal) {items : List Item}
    (hItems : items ⊆ c.stateItems e.state) :
    Grown task c (c.passOver task e nonterminal items) := by
  apply Grown.foldl _ (Grown.refl h)
  intro done hMem b hb
  obtain ⟨hDone, hState⟩ := h.mem_stateItems (hItems hMem)
  by_cases hMatch : (done.start == e.state && done.head == nonterminal &&
      (task.next? done).isNone) = true
  · rw [if_pos hMatch]
    simp only [Bool.and_eq_true, beq_iff_eq, Option.isNone_iff_eq_none]
      at hMatch
    refine ⟨?_, hb.extends_.trans (extends_advance _ _ _ _ _)⟩
    rw [← hState]
    exact hb.sound.advance (hb.extends_ _ _ he) (hb.extends_ _ _ hDone) hNext
      hMatch.2 hMatch.1.1.symm
  · rw [if_neg hMatch]
    exact hb

theorem grown_predict {task : Task α} {c : Chart} (h : c.Sound task)
    {e : Item} (he : c.items[e.id]? = some e) {nonterminal : SymbolId}
    (hNext : task.next? e = some nonterminal) :
    Grown task c (c.predict task e nonterminal) := by
  have hRules := grown_predictRules h (h.key he).state_le nonterminal
  have hFold := grown_passOver hRules.sound (hRules.extends_ _ _ he) hNext
    (List.Subset.refl _)
  exact ⟨hFold.sound, hRules.extends_.trans hFold.extends_⟩

/-- Processing an item of a sound chart gives a sound chart with more items. -/
theorem grown_process {task : Task α} {c : Chart} (h : c.Sound task)
    {e : Item} (he : c.items[e.id]? = some e) :
    Grown task c (c.process task e) := by
  unfold process
  split
  · rename_i hNext
    exact grown_complete h he hNext
  · rename_i symbol hNext
    split
    · exact grown_scan h he hNext
    · exact grown_predict h he hNext

/-! ## Every chart on the agenda -/

/-- The chart without items is sound. -/
theorem sound_blank (task : Task α) :
    Sound task ⟨#[], Array.replicate (task.input.size + 1) #[], #[]⟩ := by
  have hIds (s : Nat) :
      ids ⟨#[], Array.replicate (task.input.size + 1) #[], #[]⟩ s = #[] := by
    unfold ids
    by_cases h : s < task.input.size + 1 <;> simp [h]
  constructor
  · simp
  · intro s
    simp [hIds]
  · intro i e h
    simp at h
  · intro s i h
    simp [hIds] at h
  · intro i e h
    simp at h
  · intro i e h
    simp at h
  · intro i e h
    simp at h
  · intro i j d e h
    simp at h

/-- The first chart is sound. -/
theorem sound_seed (task : Task α) : (seed task).Sound task :=
  (grown_predictRules (sound_blank task) (Nat.zero_le _) startId).sound

end Chart

namespace Agenda

theorem next?_eq_some {task : Task α} {a : Agenda}
    (h : a.chart.Sound task) {e : Item} (hNext : a.next? = some e) :
    a.chart.items[e.id]? = some e ∧
      a.position < (a.chart.ids a.state).size := by
  obtain ⟨i, hi, hItem⟩ := Option.bind_eq_some_iff.1 hNext
  rw [h.id_eq hItem]
  exact ⟨hItem, (Array.getElem?_eq_some_iff.1 hi).1⟩

/-- A step processes the next item of a state or leaves the state. -/
theorem step_eq_some {task : Task α} {a b : Agenda}
    (hStep : a.step task = some b) :
    a.state ≤ task.input.size ∧
      ((∃ e, a.next? = some e ∧
          b = ⟨a.chart.process task e, a.state, a.position + 1⟩) ∨
        a.next? = none ∧ b = ⟨a.chart, a.state + 1, 0⟩) := by
  unfold step at hStep
  split at hStep
  · rename_i hState
    refine ⟨hState, ?_⟩
    cases hNext : a.next? with
    | none =>
      rw [hNext] at hStep
      exact .inr ⟨rfl, (Option.some.inj hStep).symm⟩
    | some e =>
      rw [hNext] at hStep
      exact .inl ⟨e, rfl, (Option.some.inj hStep).symm⟩
  · cases hStep

/-- There is no step after the last state only. -/
theorem step_eq_none_iff {task : Task α} {a : Agenda} :
    a.step task = none ↔ task.input.size < a.state := by
  unfold step
  split
  · cases a.next? <;> simp <;> omega
  · simp only [true_iff]
    omega

/-- Every chart that a parse goes through is sound. -/
theorem Reachable.sound {task : Task α} {a : Agenda}
    (h : Reachable task a) : a.chart.Sound task := by
  induction h with
  | start => exact Chart.sound_seed task
  | step _ hStep ih =>
    rcases (step_eq_some hStep).2 with ⟨e, hNext, rfl⟩ | ⟨_, rfl⟩
    · exact (Chart.grown_process ih (next?_eq_some ih hNext).1).sound
    · exact ih

end Agenda

end StochasticGrammar.Earley
