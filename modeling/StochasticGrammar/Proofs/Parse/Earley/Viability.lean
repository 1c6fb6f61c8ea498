import StochasticGrammar.Proofs.Parse.Earley.Tiling
import StochasticGrammar.Proofs.Tree.Rewriting

/-!
# Viable Earley items

An item is only begun where the start symbol derives the input up to there,
followed by the left side of the rule and some rest.  The symbols before its
dot derive the input over its span.  So where an item ends, the start symbol
derives the input up to there, followed by the symbol after the dot and some
rest: this is what a predicted rule needs.

Each way in which an item arises keeps these facts, which are about the new key
and the rules only (`Key.Viable`).

Main result: a chart that grows from a viable one is viable (`Viable.grows`).
-/

namespace StochasticGrammar.Earley

variable {α : Type} {task : Task α}

/-! ## The rules of a task -/

theorem Task.Proper.rewrites (hp : task.Proper) {rule : Nat}
    (hRule : rule < task.rules.size) :
    Rewrites task.grammar.rules [task.lhs rule] (task.rhs rule) := by
  have hGet := Array.getElem?_eq_getElem hRule
  have hMem : task.rules[rule] ∈ task.grammar.rules := by
    rw [hp.getElem?_rules] at hGet
    exact List.mem_of_getElem? hGet
  simp only [Task.lhs, Task.rhs, hGet]
  exact .rule hMem

/-- A right side, cut at a dot that a symbol follows. -/
theorem Task.rhs_eq_append {rule dot : Nat} {symbol : SymbolId}
    (hSymbol : task.symbolAt? rule dot = some symbol) :
    task.rhs rule = (task.rhs rule).take dot ++
      symbol :: (task.rhs rule).drop (dot + 1) := by
  obtain ⟨hLt, hGet⟩ := List.getElem?_eq_some_iff.1 hSymbol
  rw [← hGet, ← List.drop_eq_getElem_cons hLt, List.take_append_drop]

/-! ## Viable keys -/

/-- The start symbol derives the input up to a state, followed by a symbol and
some rest. -/
def Task.Expects (task : Task α) (state : Nat) (symbol : SymbolId) : Prop :=
  ∃ after, Reaches task.grammar.rules [startId]
    (task.input.toList.take state ++ symbol :: after)

/-- A row of symbols derives the input from one state to another. -/
def Task.Reads (task : Task α) (symbols : List SymbolId) (i j : Nat) : Prop :=
  ∃ read, Reaches task.grammar.rules symbols read ∧
    task.input.toList.take j = task.input.toList.take i ++ read

/-- The rule is called for where the item begins, and the symbols before the
dot derive the input over the span. -/
structure Key.Viable (task : Task α) (k : Key) : Prop where
  rule_lt : k.rule < task.rules.size
  expects : task.Expects k.start (task.lhs k.rule)
  reads : task.Reads ((task.rhs k.rule).take k.dot) k.start k.state

theorem Task.Reads.append {symbols more : List SymbolId} {i j k : Nat}
    (h : task.Reads symbols i j) (hMore : task.Reads more j k) :
    task.Reads (symbols ++ more) i k := by
  obtain ⟨read, hReaches, hTake⟩ := h
  obtain ⟨rest, hRest, hEnd⟩ := hMore
  refine ⟨read ++ rest, hReaches.append hRest, ?_⟩
  rw [hEnd, hTake, List.append_assoc]

theorem Task.expects_startId (task : Task α) : task.Expects 0 startId :=
  ⟨[], by simpa using .refl⟩

/-- A terminal of the input is read. -/
theorem Task.reads_terminal {t : SymbolId} {i : Nat}
    (hInput : task.input[i]? = some t) : task.Reads [t] i (i + 1) := by
  rw [← Array.getElem?_toList] at hInput
  obtain ⟨hLt, hGet⟩ := List.getElem?_eq_some_iff.1 hInput
  exact ⟨[t], .refl, by rw [List.take_succ_eq_append_getElem hLt, hGet]⟩

namespace Key.Viable

/-- A rule of an expected symbol may be begun. -/
theorem begin {state rule : Nat} {symbol : SymbolId}
    (hExpects : task.Expects state symbol)
    (hRule : rule ∈ task.rulesOf symbol) :
    Viable task ⟨rule, 0, state, state, []⟩ := by
  obtain ⟨hLt, rfl⟩ := Task.mem_rulesOf.1 hRule
  exact ⟨hLt, hExpects, [], .refl, by simp⟩

/-- Where an item ends, the symbol after its dot is expected. -/
theorem expects_next (hp : task.Proper) {k : Key} (h : k.Viable task)
    {symbol : SymbolId}
    (hSymbol : task.symbolAt? k.rule k.dot = some symbol) :
    task.Expects k.state symbol := by
  obtain ⟨after, hBegin⟩ := h.expects
  obtain ⟨read, hRead, hTake⟩ := h.reads
  let rest := (task.rhs k.rule).drop (k.dot + 1) ++ after
  refine ⟨rest, hBegin.trans ?_⟩
  -- apply the rule, then let the symbols before the dot read the span
  have hRule : Reaches task.grammar.rules
      (task.input.toList.take k.start ++ task.lhs k.rule :: after)
      (task.input.toList.take k.start ++ (task.rhs k.rule).take k.dot ++
        symbol :: rest) := by
    have hContext := Reaches.context (.single (hp.rewrites h.rule_lt))
      (task.input.toList.take k.start) after
    rw [Task.rhs_eq_append hSymbol] at hContext
    simpa [rest] using hContext
  rw [hTake]
  exact hRule.trans (hRead.context _ _)

/-- The dot may be moved over a symbol that reads the input from where the item
ends. -/
theorem extend {k : Key} (h : k.Viable task) {symbol : SymbolId}
    (hSymbol : task.symbolAt? k.rule k.dot = some symbol) {state : Nat}
    (hReads : task.Reads [symbol] k.state state) (back : List Nat) :
    Viable task ⟨k.rule, k.dot + 1, k.start, state, back⟩ := by
  obtain ⟨hLt, hGet⟩ := List.getElem?_eq_some_iff.1 hSymbol
  refine ⟨h.rule_lt, h.expects, ?_⟩
  show task.Reads ((task.rhs k.rule).take (k.dot + 1)) k.start state
  rw [List.take_succ_eq_append_getElem hLt, hGet]
  exact h.reads.append hReads

/-- The left side of a completed rule reads the input over the span. -/
theorem reads_lhs (hp : task.Proper) {k : Key} (h : k.Viable task)
    (hComplete : task.symbolAt? k.rule k.dot = none) :
    task.Reads [task.lhs k.rule] k.start k.state := by
  obtain ⟨read, hRead, hTake⟩ := h.reads
  rw [List.take_of_length_le (Chart.length_le_of_symbolAt? hComplete)] at hRead
  exact ⟨read, .head (hp.rewrites h.rule_lt) hRead, hTake⟩

end Key.Viable

/-! ## Viable charts -/

/-- Every item of a chart is viable. -/
def Viable (task : Task α) (c : Chart) : Prop :=
  ∀ (i : Nat) (e : Item), c.items[i]? = some e → e.key.Viable task

open Chart (Arises Grows)

/-- The key of a new item is viable. -/
theorem Viable.of_arises (hp : task.Proper) {s : Nat} {c : Chart}
    (h : Viable task c) (ht : Tiled task c) {k : Key}
    (hKey : Arises task s c k) : k.Viable task := by
  cases hKey with
  | seeded hRule _ => exact .begin task.expects_startId hRule
  | predicted hItem hState hNext hRule =>
      subst hState
      exact .begin ((h _ _ hItem).expects_next hp hNext) hRule
  | scanned hItem hState hNext _ hInput =>
      subst hState
      exact (h _ _ hItem).extend hNext (Task.reads_terminal hInput) _
  | @advanced waiting done hWaiting hDone hState hNext hComplete hMeet =>
      subst hState
      refine (h _ _ hWaiting).extend hNext ?_ _
      show task.Reads [done.head] waiting.state done.state
      rw [ht.head_eq hDone, ← hMeet]
      exact (h _ _ hDone).reads_lhs hp hComplete

theorem Viable.push {c : Chart} (h : Viable task c) {k : Key}
    (hKey : k.Viable task) (head : SymbolId) :
    Viable task (c.push head k) := by
  intro i e hItem
  rw [Chart.getElem?_push] at hItem
  split at hItem
  · cases hItem
    rw [Chart.key_newItem]
    exact hKey
  · exact h i e hItem

/-- A chart that grows from a viable one is viable. -/
theorem Viable.grows (hp : task.Proper) {s : Nat} {c d : Chart}
    (h : Viable task c) (ht : Tiled task c) (hGrows : Grows task s c d) :
    Viable task d := by
  induction hGrows with
  | refl => exact h
  | add hd hKey ih =>
      unfold Chart.add
      split
      · exact ih
      · exact ih.push (ih.of_arises hp (ht.grows hp hd) hKey) _
  | skip _ ih => exact ih

theorem viable_blank (task : Task α) : Viable task (Chart.blank task) := by
  intro i e h
  simp [Chart.blank] at h

end StochasticGrammar.Earley
