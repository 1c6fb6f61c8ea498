import StochasticGrammar.Parse.Earley.Basic
import StochasticGrammar.Proofs.Grammar.WellFormed

/-!
# How an Earley chart grows

Whatever processing an item does to a chart, it does by adding items whose keys
arise in one of four ways: a rule of the start symbol at the beginning, a
predicted rule, an item moved over a terminal of the input, or a waiting item
advanced over a completed one.  `Grows` says just this, so a fact about charts
needs to be checked for one added item only, and not for each of the
operations.

The second half says which keys are there after an item has been processed
(`Chart.Has`): an addition that found an equal item has its key as well, and an
advance that was dropped leaves a cycle behind.

Main results: processing grows a chart (`grows_process`), and what is advanced
over what is there afterwards (`advanced_complete`, `advanced_predict`).
-/

namespace StochasticGrammar.Earley

variable {α : Type} {task : Task α}

/-! ## Tasks over well-formed grammars -/

/-- The rules of the task are those of a well-formed grammar. -/
structure Task.Proper (task : Task α) : Prop where
  rules_eq : task.rules = task.grammar.rules.toArray
  wellFormed : task.grammar.WellFormed

theorem Task.proper_make {g : Grammar α} (hg : g.WellFormed)
    (input : List SymbolId) : (Task.make g input).Proper :=
  ⟨rfl, hg.withoutEmptySymbol⟩

theorem Task.Proper.getElem?_rules (h : task.Proper) (ix : Nat) :
    task.rules[ix]? = task.grammar.rules[ix]? := by
  rw [h.rules_eq, List.getElem?_toArray]

/-- No left side is a terminal. -/
theorem Task.Proper.isTerminal_lhs (h : task.Proper) (rule : Nat) :
    task.grammar.alphabet.isTerminal (task.lhs rule) = false := by
  unfold Task.lhs
  rw [h.getElem?_rules]
  cases hRule : task.grammar.rules[rule]? with
  | none => exact h.wellFormed.alphabet.isTerminal_startId
  | some r => exact h.wellFormed.isTerminal_lhs (List.mem_of_getElem? hRule)

theorem Task.mem_rulesOf {rule : Nat} {symbol : SymbolId} :
    rule ∈ task.rulesOf symbol ↔
      rule < task.rules.size ∧ task.lhs rule = symbol := by
  simp [Task.rulesOf]

namespace Chart

/-! ## Where items come from -/

/-- How the key of a new item comes about in a chart, while an item of state
`s` is processed. -/
inductive Arises (task : Task α) (s : Nat) (c : Chart) : Key → Prop
  | seeded {rule : Nat} : rule ∈ task.rulesOf startId → s = 0 →
      Arises task s c ⟨rule, 0, 0, 0, []⟩
  | predicted {e : Item} {symbol : SymbolId} {rule : Nat} :
      c.items[e.id]? = some e → e.state = s → task.next? e = some symbol →
      rule ∈ task.rulesOf symbol → Arises task s c ⟨rule, 0, s, s, []⟩
  | scanned {e : Item} {symbol : SymbolId} :
      c.items[e.id]? = some e → e.state = s → task.next? e = some symbol →
      task.grammar.alphabet.isTerminal symbol = true →
      task.input[s]? = some symbol →
      Arises task s c ⟨e.rule, e.dot + 1, e.start, s + 1, e.back⟩
  | advanced {waiting done : Item} :
      c.items[waiting.id]? = some waiting → c.items[done.id]? = some done →
      done.state = s → task.next? waiting = some done.head →
      task.next? done = none → done.start = waiting.state →
      Arises task s c
        ⟨waiting.rule, waiting.dot + 1, waiting.start, s,
          waiting.back ++ [done.id]⟩

theorem Arises.le_state {s : Nat} {c : Chart} {k : Key}
    (h : Arises task s c k) : s ≤ k.state := by
  cases h with
  | seeded _ hs => exact Nat.le_of_eq hs
  | predicted => exact Nat.le_refl s
  | scanned => exact Nat.le_succ s
  | advanced => exact Nat.le_refl s

/-- The second chart is the first one with items added while an item of state
`s` is processed. -/
inductive Grows (task : Task α) (s : Nat) (c : Chart) : Chart → Prop
  | refl : Grows task s c c
  | add {d : Chart} {k : Key} : Grows task s c d → Arises task s d k →
      Grows task s c (d.add task k)
  | skip {d : Chart} {x : Nat × Nat} : Grows task s c d →
      Grows task s c { d with skipped := d.skipped.push x }

theorem Grows.extends {s : Nat} {c d : Chart} (h : Grows task s c d) :
    c.Extends d := by
  induction h with
  | refl => exact Extends.refl c
  | add _ _ ih => exact ih.trans (extends_add task _ _)
  | skip _ ih => exact ih

theorem Grows.trans {s : Nat} {b c d : Chart} (hbc : Grows task s b c)
    (hcd : Grows task s c d) : Grows task s b d := by
  induction hcd with
  | refl => exact hbc
  | add _ hKey ih => exact ih.add hKey
  | skip _ ih => exact ih.skip

/-- A fold grows a chart if each of its steps does. -/
theorem grows_foldl {β : Type} {s : Nat} {c : Chart} {f : Chart → β → Chart}
    (xs : List β) (hStep : ∀ x ∈ xs, ∀ b, c.Extends b →
      Grows task s b (f b x)) : Grows task s c (xs.foldl f c) := by
  have hFrom : ∀ ys : List β, (∀ y ∈ ys, y ∈ xs) → ∀ d, Grows task s c d →
      Grows task s c (ys.foldl f d) := by
    intro ys
    induction ys with
    | nil => exact fun _ d hd => hd
    | cons y ys ih =>
        intro hMem d hd
        have hy := hStep y (hMem y (by simp)) d hd.extends
        exact ih (fun z hz => hMem z (by simp [hz])) _ (hd.trans hy)
  exact hFrom xs (fun _ h => h) c .refl

theorem grows_advance {s : Nat} {c : Chart} {waiting done : Item}
    (hWaiting : c.items[waiting.id]? = some waiting)
    (hDone : c.items[done.id]? = some done) (hState : done.state = s)
    (hNext : task.next? waiting = some done.head)
    (hComplete : task.next? done = none)
    (hMeet : done.start = waiting.state) :
    Grows task s c (c.advance task waiting done s) := by
  unfold advance
  dsimp only
  split
  · exact .skip .refl
  · exact .add .refl (.advanced hWaiting hDone hState hNext hComplete hMeet)

theorem grows_completeOver {c : Chart} (h : c.Sound task) {e : Item}
    (he : c.items[e.id]? = some e) (hNext : task.next? e = none)
    {items : List Item} (hItems : items ⊆ c.stateItems e.start) :
    Grows task e.state c (c.completeOver task e items) := by
  apply grows_foldl
  intro waiting hMem b hb
  obtain ⟨hWaiting, hHome⟩ := h.mem_stateItems (hItems hMem)
  by_cases hMatch : (task.next? waiting == some e.head) = true
  · rw [if_pos hMatch]
    exact grows_advance (hb _ _ hWaiting) (hb _ _ he) rfl (eq_of_beq hMatch)
      hNext hHome.symm
  · rw [if_neg hMatch]
    exact .refl

theorem grows_complete {c : Chart} (h : c.Sound task) {e : Item}
    (he : c.items[e.id]? = some e) (hNext : task.next? e = none) :
    Grows task e.state c (c.complete task e) :=
  grows_completeOver h he hNext (List.Subset.refl _)

theorem grows_scan {c : Chart} {e : Item} (he : c.items[e.id]? = some e)
    {terminal : SymbolId} (hNext : task.next? e = some terminal)
    (hTerminal : task.grammar.alphabet.isTerminal terminal = true) :
    Grows task e.state c (c.scan task e terminal) := by
  unfold scan
  by_cases hInput : (task.input[e.state]? == some terminal) = true
  · rw [if_pos hInput]
    exact .add .refl (.scanned he rfl hNext hTerminal (eq_of_beq hInput))
  · rw [if_neg hInput]
    exact .refl

theorem grows_addRules {c : Chart} {e : Item} (he : c.items[e.id]? = some e)
    {symbol : SymbolId} (hNext : task.next? e = some symbol)
    {rules : List Nat} (hRules : rules ⊆ task.rulesOf symbol) :
    Grows task e.state c (c.addRules task e.state rules) := by
  apply grows_foldl
  intro rule hMem b hb
  exact .add .refl (.predicted (hb _ _ he) rfl hNext (hRules hMem))

theorem grows_passOver {c : Chart} (h : c.Sound task) {e : Item}
    (he : c.items[e.id]? = some e) {symbol : SymbolId}
    (hNext : task.next? e = some symbol) {items : List Item}
    (hItems : items ⊆ c.stateItems e.state) :
    Grows task e.state c (c.passOver task e symbol items) := by
  apply grows_foldl
  intro done hMem b hb
  obtain ⟨hDone, hHome⟩ := h.mem_stateItems (hItems hMem)
  by_cases hMatch : (done.start == e.state && done.head == symbol &&
      (task.next? done).isNone) = true
  · rw [if_pos hMatch]
    simp only [Bool.and_eq_true, beq_iff_eq, Option.isNone_iff_eq_none]
      at hMatch
    obtain ⟨⟨hStart, hHead⟩, hComplete⟩ := hMatch
    exact grows_advance (hb _ _ he) (hb _ _ hDone) hHome (hHead ▸ hNext)
      hComplete hStart
  · rw [if_neg hMatch]
    exact .refl

theorem grows_predict {c : Chart} (h : c.Sound task) {e : Item}
    (he : c.items[e.id]? = some e) {symbol : SymbolId}
    (hNext : task.next? e = some symbol) :
    Grows task e.state c (c.predict task e symbol) := by
  have hRules : Grows task e.state c (c.predictRules task e.state symbol) :=
    grows_addRules he hNext (List.Subset.refl _)
  have hSound := (grown_predictRules h (h.key he).state_le symbol).sound
  exact hRules.trans (grows_passOver hSound (hRules.extends _ _ he) hNext
    (List.Subset.refl _))

/-- Processing an item grows a chart from the state of the item on. -/
theorem grows_process {c : Chart} (h : c.Sound task) {e : Item}
    (he : c.items[e.id]? = some e) :
    Grows task e.state c (c.process task e) := by
  unfold process
  split
  · rename_i hNext
    exact grows_complete h he hNext
  · rename_i symbol hNext
    by_cases hTerminal : task.grammar.alphabet.isTerminal symbol = true
    · rw [if_pos hTerminal]
      exact grows_scan he hNext hTerminal
    · rw [if_neg hTerminal]
      exact grows_predict h he hNext

/-- The chart without items. -/
def blank (task : Task α) : Chart :=
  ⟨#[], Array.replicate (task.input.size + 1) #[], #[]⟩

theorem ids_blank (task : Task α) (s : Nat) : (blank task).ids s = #[] := by
  unfold ids blank
  by_cases h : s < task.input.size + 1 <;> simp [h]

theorem grows_seedRules {rules : List Nat}
    (hRules : rules ⊆ task.rulesOf startId) :
    Grows task 0 (blank task) ((blank task).addRules task 0 rules) := by
  apply grows_foldl
  intro rule hMem b _
  exact .add .refl (.seeded (hRules hMem) rfl)

theorem grows_seed (task : Task α) : Grows task 0 (blank task) (seed task) :=
  grows_seedRules (List.Subset.refl _)

/-! ## Earlier states, and the order of additions -/

theorem ids_push_cases (c : Chart) (head : SymbolId) (k : Key) (s : Nat) :
    (c.push head k).ids s = c.ids s ∨
      k.state = s ∧ (c.push head k).ids s = (c.ids s).push c.items.size := by
  by_cases hState : k.state < c.states.size
  · rw [ids_push c head k s hState]
    by_cases hHere : k.state = s
    · exact .inr ⟨hHere, by rw [if_pos hHere]⟩
    · exact .inl (by rw [if_neg hHere])
  · left
    unfold ids push
    simp only [Array.getElem?_modify]
    by_cases hHere : k.state = s
    · subst hHere
      simp [hState]
    · simp [hHere]

theorem ids_add_cases (task : Task α) (c : Chart) (k : Key) (s : Nat) :
    (c.add task k).ids s = c.ids s ∨
      k.state = s ∧ (c.add task k).ids s = (c.ids s).push c.items.size := by
  unfold add
  split
  · exact .inl rfl
  · exact ids_push_cases c _ k s

/-- States before the one that is worked on stay as they are. -/
theorem Grows.ids_eq {s r : Nat} {c d : Chart} (h : Grows task s c d)
    (hr : r < s) : d.ids r = c.ids r := by
  induction h with
  | refl => rfl
  | add _ hKey ih =>
      rcases ids_add_cases task _ _ r with hEq | ⟨hHere, _⟩
      · rw [hEq, ih]
      · have := hKey.le_state
        omega
  | skip _ ih => exact ih

/-- New items come after those that are there. -/
theorem Grows.ids_prefix {s r : Nat} {c d : Chart} (h : Grows task s c d) :
    (c.ids r).toList <+: (d.ids r).toList := by
  induction h with
  | refl => exact List.prefix_refl _
  | add _ _ ih =>
      rcases ids_add_cases task _ _ r with hEq | ⟨_, hEq⟩
      · rw [hEq]
        exact ih
      · rw [hEq, Array.toList_push]
        exact ih.trans (List.prefix_append _ _)
  | skip _ ih => exact ih

/-! ## What is there -/

/-- Some item has a key. -/
def Has (c : Chart) (k : Key) : Prop :=
  ∃ (i : Nat) (e : Item), c.items[i]? = some e ∧ e.key = k

theorem Has.mono {c d : Chart} {k : Key} (h : c.Has k) (hcd : c.Extends d) :
    d.Has k := by
  obtain ⟨i, e, hItem, hKey⟩ := h
  exact ⟨i, e, hcd i e hItem, hKey⟩

theorem has_add (task : Task α) (c : Chart) (k : Key) :
    (c.add task k).Has k := by
  unfold add
  by_cases hHas : c.hasKey k = true
  · rw [if_pos hHas]
    obtain ⟨i, hi, hMatch⟩ := Array.any_eq_true.1 hHas
    cases hItem : c.items[(c.ids k.state)[i]]? with
    | none => simp [hItem] at hMatch
    | some e =>
        simp only [hItem] at hMatch
        exact ⟨_, e, hItem, eq_of_beq hMatch⟩
  · rw [if_neg hHas]
    refine ⟨c.items.size, c.newItem (task.lhs k.rule) k, ?_, rfl⟩
    rw [getElem?_push, if_pos rfl]

/-- A repetition that is found is found in every later chart. -/
theorem repeats_mono {c d : Chart} (h : c.Extends d)
    {rule start state : Nat} (b : Nat)
    (hRepeats : repeats c.items rule start state b = true) :
    repeats d.items rule start state b = true := by
  induction b using Nat.strongRecOn with
  | _ b ih =>
      rw [repeats] at hRepeats ⊢
      cases hItem : c.items[b]? with
      | none => simp [hItem] at hRepeats
      | some e =>
          rw [h b e hItem]
          simp only [hItem, Bool.and_eq_true, Bool.or_eq_true,
            List.any_eq_true] at hRepeats ⊢
          obtain ⟨hSpan, hRule | ⟨child, hMem, hChild⟩⟩ := hRepeats
          · exact ⟨hSpan, .inl hRule⟩
          · refine ⟨hSpan, .inr ⟨child, hMem, ?_⟩⟩
            by_cases hLt : child < b
            · rw [if_pos hLt] at hChild ⊢
              exact ih child hLt hChild
            · simp [hLt] at hChild

/-- A waiting item has been advanced over a completed one, unless that closes
a cycle. -/
def Advanced (task : Task α) (c : Chart) (waiting done : Item) : Prop :=
  c.Has ⟨waiting.rule, waiting.dot + 1, waiting.start, done.state,
      waiting.back ++ [done.id]⟩ ∨
    waiting.dot + 1 = (task.rhs waiting.rule).length ∧
      ∃ b ∈ waiting.back ++ [done.id],
        repeats c.items waiting.rule waiting.start done.state b = true

theorem Advanced.mono {c d : Chart} {waiting done : Item}
    (h : Advanced task c waiting done) (hcd : c.Extends d) :
    Advanced task d waiting done := by
  rcases h with h | ⟨hDot, b, hMem, hRepeats⟩
  · exact .inl (h.mono hcd)
  · exact .inr ⟨hDot, b, hMem, repeats_mono hcd b hRepeats⟩

theorem advanced_advance (task : Task α) (c : Chart) (waiting done : Item) :
    Advanced task (c.advance task waiting done done.state) waiting done := by
  unfold advance
  dsimp only
  split
  · rename_i hCyclic
    simp only [Bool.and_eq_true, beq_iff_eq, isCyclic, List.any_eq_true]
      at hCyclic
    exact .inr hCyclic
  · exact .inl (has_add task c _)

theorem extends_foldl {β : Type} {f : Chart → β → Chart}
    (hExtends : ∀ (b : Chart) (x : β), b.Extends (f b x)) (xs : List β)
    (c : Chart) : c.Extends (xs.foldl f c) := by
  induction xs generalizing c with
  | nil => exact Extends.refl c
  | cons x xs ih => exact (hExtends c x).trans (ih _)

/-- What each step of a fold brings about is there after the fold. -/
theorem foldl_reaches {β : Type} {c : Chart} {f : Chart → β → Chart}
    {p : β → Chart → Prop} (xs : List β)
    (hExtends : ∀ (b : Chart) (x : β), b.Extends (f b x))
    (hMono : ∀ x b d, Chart.Extends b d → p x b → p x d)
    (hStep : ∀ x ∈ xs, ∀ b, p x (f b x)) :
    ∀ x ∈ xs, p x (xs.foldl f c) := by
  induction xs generalizing c with
  | nil => simp
  | cons y ys ih =>
      intro x hx
      rcases List.mem_cons.1 hx with rfl | hx
      · exact hMono x _ _ (extends_foldl hExtends ys _)
          (hStep x (by simp) c)
      · exact ih (fun z hz => hStep z (by simp [hz])) x hx

theorem advanced_complete (task : Task α) {c : Chart} {e waiting : Item}
    (hMem : waiting ∈ c.stateItems e.start)
    (hNext : task.next? waiting = some e.head) :
    Advanced task (c.complete task e) waiting e := by
  have hAll := foldl_reaches (c := c)
    (f := fun c waiting => if task.next? waiting == some e.head then
      c.advance task waiting e e.state else c)
    (p := fun waiting d => task.next? waiting = some e.head →
      Advanced task d waiting e) (c.stateItems e.start)
    (fun b x => by
      split
      · exact extends_advance task b x e e.state
      · exact Extends.refl b)
    (fun _ _ _ hbd h hx => (h hx).mono hbd)
    (fun x _ b hx => by
      rw [if_pos (by simp [hx])]
      exact advanced_advance task b x e)
  exact hAll waiting hMem hNext

theorem has_predictRules (task : Task α) (c : Chart) (state : Nat)
    {symbol : SymbolId} {rule : Nat} (hRule : rule ∈ task.rulesOf symbol) :
    (c.predictRules task state symbol).Has ⟨rule, 0, state, state, []⟩ :=
  foldl_reaches (p := fun rule d => d.Has ⟨rule, 0, state, state, []⟩)
    (task.rulesOf symbol) (fun b _ => extends_add task b _)
    (fun _ _ _ hbd h => h.mono hbd) (fun _ _ b => has_add task b _) rule hRule

theorem advanced_predict {c : Chart} {e done : Item} {symbol : SymbolId}
    (hMem : done ∈ (c.predictRules task e.state symbol).stateItems e.state)
    (hStart : done.start = e.state) (hHead : done.head = symbol)
    (hNext : task.next? done = none) (hState : done.state = e.state) :
    Advanced task (c.predict task e symbol) e done := by
  have hAll := foldl_reaches (c := c.predictRules task e.state symbol)
    (f := fun c done => if done.start == e.state && done.head == symbol &&
        (task.next? done).isNone then c.advance task e done e.state else c)
    (p := fun done d => done.start = e.state → done.head = symbol →
      task.next? done = none → done.state = e.state →
      Advanced task d e done)
    ((c.predictRules task e.state symbol).stateItems e.state)
    (fun b x => by
      split
      · exact extends_advance task b e x e.state
      · exact Extends.refl b)
    (fun _ _ _ hbd h h₁ h₂ h₃ h₄ => (h h₁ h₂ h₃ h₄).mono hbd)
    (fun x _ b h₁ h₂ h₃ h₄ => by
      rw [if_pos (by simp [h₁, h₂, h₃]), ← h₄]
      exact advanced_advance task b e x)
  exact hAll done hMem hStart hHead hNext hState

end Chart

/-! ## The agenda -/

/-- What holds of the chart without items and is kept as charts grow holds of
every chart on the agenda. -/
theorem Agenda.Reachable.of_grows {p : Chart → Prop}
    (hBlank : p (Chart.blank task))
    (hGrows : ∀ {s c d}, p c → Chart.Grows task s c d → p d) {a : Agenda}
    (h : a.Reachable task) : p a.chart := by
  induction h with
  | start => exact hGrows hBlank (Chart.grows_seed task)
  | step hReachable hStep ih =>
      rcases (Agenda.step_eq_some hStep).2 with ⟨e, hNext, rfl⟩ | ⟨_, rfl⟩
      · have hs := hReachable.sound
        exact hGrows ih
          (Chart.grows_process hs (Agenda.next?_eq_some hs hNext).1)
      · exact ih

end StochasticGrammar.Earley
