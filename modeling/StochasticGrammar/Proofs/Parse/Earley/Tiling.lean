import StochasticGrammar.Proofs.Parse.Earley.Growth
import StochasticGrammar.Proofs.Parse.Listing
import StochasticGrammar.Proofs.Tree.Repetition

/-!
# What the back pointers of Earley items match

The back pointers of an item account for the nonterminals before its dot: the
completed items they lead to lie side by side, with the matched terminals
between them, from the start of the item to its state (`Matched`).  Every item
of every chart that a parse goes through is of this kind
(`Agenda.Reachable.tiled`).

The trees of the items that back pointers lead to, with a leaf for each matched
terminal, are the row of trees of the matched symbols (`symbolTrees`).
-/

namespace StochasticGrammar.Earley

variable {α : Type} {task : Task α}

/-! ## Symbols matched by back pointers -/

/-- Back pointers account for a row of symbols from one state to another: each
terminal is the input's, and each nonterminal is completed by the item of the
next back pointer. -/
inductive Matched (task : Task α) (items : Array Item) :
    List SymbolId → List Nat → Nat → Nat → Prop
  | nil (i : Nat) : Matched task items [] [] i i
  | terminal {t : SymbolId} {rest : List SymbolId} {back : List Nat}
      {i j : Nat} : task.grammar.alphabet.isTerminal t = true →
      task.input[i]? = some t → Matched task items rest back (i + 1) j →
      Matched task items (t :: rest) back i j
  | completed {b : Nat} {d : Item} {rest : List SymbolId} {back : List Nat}
      {j : Nat} : task.grammar.alphabet.isTerminal d.head = false →
      items[b]? = some d → task.next? d = none →
      Matched task items rest back d.state j →
      Matched task items (d.head :: rest) (b :: back) d.start j

namespace Matched

variable {items : Array Item} {symbols : List SymbolId} {back : List Nat}
  {i j : Nat}

theorem append (h : Matched task items symbols back i j)
    {rest : List SymbolId} {more : List Nat} {k : Nat}
    (hRest : Matched task items rest more j k) :
    Matched task items (symbols ++ rest) (back ++ more) i k := by
  induction h with
  | nil _ => exact hRest
  | terminal hTerminal hInput _ ih =>
      exact .terminal hTerminal hInput (ih hRest)
  | completed hHead hItem hNext _ ih =>
      exact .completed hHead hItem hNext (ih hRest)

theorem mono {others : Array Item} (h : Matched task items symbols back i j)
    (hKeep : ∀ (b : Nat) (e : Item), items[b]? = some e →
      others[b]? = some e) : Matched task others symbols back i j := by
  induction h with
  | nil i => exact .nil i
  | terminal hTerminal hInput _ ih => exact .terminal hTerminal hInput ih
  | completed hHead hItem hNext _ ih =>
      exact .completed hHead (hKeep _ _ hItem) hNext ih

end Matched

/-! ## The invariant -/

/-- What an item of a chart stands for. -/
structure Tiled (task : Task α) (c : Chart) : Prop where
  head_eq : ∀ {i : Nat} {e : Item}, c.items[i]? = some e →
    e.head = task.lhs e.rule
  matched : ∀ {i : Nat} {e : Item}, c.items[i]? = some e →
    Matched task c.items ((task.rhs e.rule).take e.dot) e.back e.start e.state
  ids_lt : ∀ {s i : Nat}, i ∈ c.ids s → i < c.items.size
  nodup_ids : ∀ s, (c.ids s).toList.Nodup

open Chart (Arises Grows)

/-- What the key of a new item says of the symbols before its dot. -/
theorem Tiled.matched_of_arises (hp : task.Proper) {s : Nat} {c : Chart}
    (h : Tiled task c) {k : Key} (hKey : Arises task s c k) :
    Matched task c.items ((task.rhs k.rule).take k.dot) k.back k.start
      k.state := by
  cases hKey with
  | seeded _ _ => exact .nil 0
  | predicted _ _ _ _ => exact .nil s
  | scanned hItem hState hNext hTerminal hInput =>
      rename_i e t
      obtain ⟨hLt, hGet⟩ := List.getElem?_eq_some_iff.1 hNext
      show Matched task c.items ((task.rhs e.rule).take (e.dot + 1)) e.back
        e.start (s + 1)
      rw [List.take_succ_eq_append_getElem hLt, hGet, ← List.append_nil e.back]
      have hOne : Matched task c.items [t] [] s (s + 1) :=
        .terminal hTerminal hInput (.nil (s + 1))
      exact (h.matched hItem).append (hState.symm ▸ hOne)
  | advanced hWaiting hDone hState hNext hComplete hMeet =>
      rename_i w d
      obtain ⟨hLt, hGet⟩ := List.getElem?_eq_some_iff.1 hNext
      show Matched task c.items ((task.rhs w.rule).take (w.dot + 1))
        (w.back ++ [d.id]) w.start s
      rw [List.take_succ_eq_append_getElem hLt, hGet, ← hState]
      have hHead : task.grammar.alphabet.isTerminal d.head = false := by
        rw [h.head_eq hDone]
        exact hp.isTerminal_lhs d.rule
      have hOne : Matched task c.items [d.head] [d.id] d.start d.state :=
        .completed hHead hDone hComplete (.nil d.state)
      exact (h.matched hWaiting).append (hMeet ▸ hOne)

theorem Tiled.push {c : Chart} (h : Tiled task c) {k : Key}
    (hMatched : Matched task c.items ((task.rhs k.rule).take k.dot) k.back
      k.start k.state) : Tiled task (c.push (task.lhs k.rule) k) := by
  have hExtends := Chart.extends_push c (task.lhs k.rule) k
  constructor
  · intro i e hItem
    rw [Chart.getElem?_push] at hItem
    split at hItem
    · cases hItem
      rfl
    · exact h.head_eq hItem
  · intro i e hItem
    rw [Chart.getElem?_push] at hItem
    split at hItem
    · cases hItem
      exact hMatched.mono hExtends
    · exact (h.matched hItem).mono hExtends
  · intro s i hi
    rw [Chart.items_push, Array.size_push]
    rcases Chart.ids_push_cases c (task.lhs k.rule) k s with hEq | ⟨_, hEq⟩
    · rw [hEq] at hi
      have := h.ids_lt hi
      omega
    · rw [hEq] at hi
      rcases Array.mem_push.1 hi with hi | rfl
      · have := h.ids_lt hi
        omega
      · omega
  · intro s
    rcases Chart.ids_push_cases c (task.lhs k.rule) k s with hEq | ⟨_, hEq⟩
    · rw [hEq]
      exact h.nodup_ids s
    · rw [hEq, Array.toList_push, List.nodup_append]
      refine ⟨h.nodup_ids s, by simp, ?_⟩
      intro a ha b hb hab
      rw [List.mem_singleton.1 hb] at hab
      have := h.ids_lt (Array.mem_toList_iff.1 ha)
      omega

/-- A chart that grows keeps standing for derivations. -/
theorem Tiled.grows (hp : task.Proper) {s : Nat} {c d : Chart}
    (h : Tiled task c) (hGrows : Grows task s c d) : Tiled task d := by
  induction hGrows with
  | refl => exact h
  | add _ hKey ih =>
      unfold Chart.add
      split
      · exact ih
      · exact ih.push (ih.matched_of_arises hp hKey)
  | skip _ ih => exact ⟨ih.head_eq, ih.matched, ih.ids_lt, ih.nodup_ids⟩

theorem tiled_blank (task : Task α) : Tiled task (Chart.blank task) := by
  constructor
  · intro i e h
    simp [Chart.blank] at h
  · intro i e h
    simp [Chart.blank] at h
  · intro s i h
    simp [Chart.ids_blank] at h
  · intro s
    simp [Chart.ids_blank]

/-- Every chart that a parse goes through stands for derivations. -/
theorem Agenda.Reachable.tiled (hp : task.Proper) {a : Agenda}
    (h : a.Reachable task) : Tiled task a.chart :=
  h.of_grows (tiled_blank task) fun ht hGrows => ht.grows hp hGrows

/-! ## The tree of an item -/

/-- The trees of a row of symbols, given the trees of the back pointers. -/
def symbolTrees (task : Task α) (tree : Nat → ParseTree) :
    List SymbolId → List Nat → List ParseTree
  | [], _ => []
  | symbol :: rest, back =>
    if task.grammar.alphabet.isTerminal symbol then
      .terminal symbol :: symbolTrees task tree rest back
    else
      match back with
      | [] => []
      | b :: back => tree b :: symbolTrees task tree rest back

/-- The derivation tree that a completed item stands for. -/
def itemTree (task : Task α) (items : Array Item) (b : Nat) : ParseTree :=
  match items[b]? with
  | none => .terminal emptyId
  | some e =>
    .branch e.rule e.head (symbolTrees task
      (fun child =>
        if child < b then itemTree task items child else .terminal emptyId)
      (task.rhs e.rule) e.back)
termination_by b

theorem symbolTrees_terminal {t : SymbolId}
    (hTerminal : task.grammar.alphabet.isTerminal t = true)
    (f : Nat → ParseTree) (rest : List SymbolId) (back : List Nat) :
    symbolTrees task f (t :: rest) back =
      .terminal t :: symbolTrees task f rest back := by
  simp [symbolTrees, hTerminal]

theorem symbolTrees_nonterminal {t : SymbolId}
    (hTerminal : task.grammar.alphabet.isTerminal t = false)
    (f : Nat → ParseTree) (rest : List SymbolId) (b : Nat) (back : List Nat) :
    symbolTrees task f (t :: rest) (b :: back) =
      f b :: symbolTrees task f rest back := by
  simp [symbolTrees, hTerminal]

theorem symbolTrees_congr {f f' : Nat → ParseTree} {back : List Nat}
    (h : ∀ b ∈ back, f b = f' b) (symbols : List SymbolId) :
    symbolTrees task f symbols back = symbolTrees task f' symbols back := by
  induction symbols generalizing back with
  | nil => simp [symbolTrees]
  | cons symbol rest ih =>
      unfold symbolTrees
      split
      · rw [ih h]
      · cases back with
        | nil => rfl
        | cons b back =>
            dsimp only
            rw [h b (by simp), ih fun c hc => h c (by simp [hc])]

theorem itemTree_of_getElem? {items : Array Item} {b : Nat} {e : Item}
    (hItem : items[b]? = some e) (hBack : ∀ child ∈ e.back, child < b) :
    itemTree task items b = .branch e.rule e.head
      (symbolTrees task (itemTree task items) (task.rhs e.rule) e.back) := by
  rw [itemTree, hItem]
  dsimp only
  rw [symbolTrees_congr fun child hc => if_pos (hBack child hc)]

namespace Matched

variable {items : Array Item} {symbols : List SymbolId} {back : List Nat}
  {i j : Nat} {f : Nat → ParseTree}

/-- The back pointers of matched symbols lead to completed items. -/
theorem exists_item (h : Matched task items symbols back i j) {b : Nat}
    (hb : b ∈ back) : ∃ d, items[b]? = some d ∧ task.next? d = none := by
  induction h with
  | nil _ => simp at hb
  | terminal _ _ _ ih => exact ih hb
  | completed _ hItem hNext _ ih =>
      rcases List.mem_cons.1 hb with rfl | hb
      · exact ⟨_, hItem, hNext⟩
      · exact ih hb

theorem map_symbol (h : Matched task items symbols back i j)
    (hf : ∀ b ∈ back, ∀ d, items[b]? = some d → (f b).symbol = d.head) :
    (symbolTrees task f symbols back).map ParseTree.symbol = symbols := by
  induction h with
  | nil _ => simp [symbolTrees]
  | terminal hTerminal _ _ ih =>
      rw [symbolTrees_terminal hTerminal, List.map_cons, ih hf]
      rfl
  | completed hHead hItem _ _ ih =>
      rw [symbolTrees_nonterminal hHead, List.map_cons,
        hf _ (by simp) _ hItem, ih fun b hb => hf b (by simp [hb])]

/-- Each of the trees is a leaf of a terminal or the tree of a back
pointer. -/
theorem mem_symbolTrees (h : Matched task items symbols back i j)
    {t : ParseTree} (ht : t ∈ symbolTrees task f symbols back) :
    (∃ s, task.grammar.alphabet.isTerminal s = true ∧ t = .terminal s) ∨
      ∃ b ∈ back, t = f b := by
  induction h with
  | nil _ => simp [symbolTrees] at ht
  | terminal hTerminal _ _ ih =>
      rw [symbolTrees_terminal hTerminal, List.mem_cons] at ht
      rcases ht with rfl | ht
      · exact .inl ⟨_, hTerminal, rfl⟩
      · exact ih ht
  | completed hHead _ _ _ ih =>
      rw [symbolTrees_nonterminal hHead, List.mem_cons] at ht
      rcases ht with rfl | ht
      · exact .inr ⟨_, by simp, rfl⟩
      · rcases ih ht with hLeaf | ⟨b, hb, rfl⟩
        · exact .inl hLeaf
        · exact .inr ⟨b, by simp [hb], rfl⟩

theorem mem_symbolTrees_of_mem (h : Matched task items symbols back i j)
    {b : Nat} (hb : b ∈ back) : f b ∈ symbolTrees task f symbols back := by
  induction h with
  | nil _ => simp at hb
  | terminal hTerminal _ _ ih =>
      rw [symbolTrees_terminal hTerminal]
      exact List.mem_cons_of_mem _ (ih hb)
  | completed hHead _ _ _ ih =>
      rw [symbolTrees_nonterminal hHead]
      rcases List.mem_cons.1 hb with rfl | hb
      · exact List.mem_cons_self
      · exact List.mem_cons_of_mem _ (ih hb)

theorem symbolTrees_append (h : Matched task items symbols back i j)
    (rest : List SymbolId) (more : List Nat) :
    symbolTrees task f (symbols ++ rest) (back ++ more) =
      symbolTrees task f symbols back ++ symbolTrees task f rest more := by
  induction h with
  | nil _ => simp [symbolTrees]
  | terminal hTerminal _ _ ih =>
      rw [List.cons_append, symbolTrees_terminal hTerminal,
        symbolTrees_terminal hTerminal, ih, List.cons_append]
  | completed hHead _ _ _ ih =>
      rw [List.cons_append, List.cons_append, symbolTrees_nonterminal hHead,
        symbolTrees_nonterminal hHead, ih, List.cons_append]

/-- The trees read the input between the two states. -/
theorem drop_eq (h : Matched task items symbols back i j)
    (hf : ∀ b ∈ back, ∀ d, items[b]? = some d → task.next? d = none →
      task.input.toList.drop d.start =
        (f b).yield ++ task.input.toList.drop d.state) :
    task.input.toList.drop i =
      ParseTree.yieldList (symbolTrees task f symbols back) ++
        task.input.toList.drop j := by
  induction h with
  | nil _ => simp [symbolTrees]
  | terminal hTerminal hInput _ ih =>
      rw [symbolTrees_terminal hTerminal, ParseTree.yieldList_cons,
        ParseTree.yield_terminal, List.append_assoc, ← ih hf]
      rw [← Array.getElem?_toList] at hInput
      obtain ⟨hLt, hGet⟩ := List.getElem?_eq_some_iff.1 hInput
      rw [List.drop_eq_getElem_cons hLt, hGet]
      rfl
  | completed hHead hItem hNext _ ih =>
      rw [symbolTrees_nonterminal hHead, ParseTree.yieldList_cons,
        List.append_assoc, ← ih fun b hb => hf b (by simp [hb])]
      exact hf _ (by simp) _ hItem hNext

/-- Trees that separate the back pointers of one start separate rows of back
pointers. -/
theorem eq_of_symbolTrees_eq (h : Matched task items symbols back i j)
    {others : List Nat} {k : Nat}
    (hOther : Matched task items symbols others i k)
    (hf : ∀ b ∈ back, ∀ b' d d', items[b]? = some d → items[b']? = some d' →
      task.next? d = none → task.next? d' = none → d.start = d'.start →
      f b = f b' → b = b')
    (hTrees : symbolTrees task f symbols back =
      symbolTrees task f symbols others) : back = others ∧ j = k := by
  induction h generalizing others with
  | nil _ =>
      cases hOther
      exact ⟨rfl, rfl⟩
  | terminal hTerminal _ _ ih =>
      rw [symbolTrees_terminal hTerminal, symbolTrees_terminal hTerminal,
        List.cons.injEq] at hTrees
      cases hOther with
      | terminal _ _ hRest => exact ih hRest hf hTrees.2
      | completed hHead _ _ _ => simp [hTerminal] at hHead
  | completed hHead hItem hNext _ ih =>
      rename_i b d rest back j hRows
      generalize hSymbol : d.head = x at hOther hTrees hHead
      generalize hStart : d.start = s at hOther
      cases hOther with
      | terminal hTerminal _ _ => simp [hTerminal] at hHead
      | completed hHead' hItem' hNext' hRest =>
          rw [symbolTrees_nonterminal hHead, symbolTrees_nonterminal hHead,
            List.cons.injEq] at hTrees
          have hSame := hf b (by simp) _ _ _ hItem hItem' hNext hNext' hStart
            hTrees.1
          subst hSame
          rw [hItem] at hItem'
          cases hItem'
          obtain ⟨rfl, rfl⟩ := ih hRest (fun b hb => hf b (by simp [hb]))
            hTrees.2
          exact ⟨rfl, rfl⟩

end Matched

end StochasticGrammar.Earley
