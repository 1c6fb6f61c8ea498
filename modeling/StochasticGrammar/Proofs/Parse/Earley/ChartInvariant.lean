import Mathlib.Data.Finset.Card
import Mathlib.Data.List.Nodup
import StochasticGrammar.Proofs.Parse.Earley.CycleSearch
import StochasticGrammar.Proofs.Parse.Earley.Exact
import StochasticGrammar.Proofs.Parse.Earley.Moments
import StochasticGrammar.Proofs.Parse.Earley.Termination
import StochasticGrammar.Proofs.Parse.Earley.Viability

/-!
# The invariant of the Earley chart

What is said of a chart here holds at every moment of a parse, also in the
middle of the loops that process an item, whether these add to the state that
is worked on or to the next one.

Each state holds as many keys as items, so that equal items are stored once.
Each item of a state is a dotted rule that is in place (`Item.Placed`): its
span ends in the state, its back pointers lead to earlier completed items for
the nonterminals before its dot, these and the terminals tile the span, and the
rule was called for where the span begins.

Therefore the search for cycles ends wherever it is started, and so does the
rebuilding of the tree of a completed item, which never lacks a back pointer.

Main result: `Chart.Occurs.invariant`.
-/

namespace StochasticGrammar.Earley

variable {α : Type} {task : Task α} {c : Chart}

open Chart (Sound)

/-! ## Items in place -/

/-- Number `b` is that of a stored, completed item for a symbol, and lies below
another number. -/
def Chart.Completes (task : Task α) (c : Chart) (id : Nat)
    (symbol : SymbolId) (b : Nat) : Prop :=
  b < id ∧ ∃ d, d ∈ c.stateItems d.state ∧ d.id = b ∧ d.head = symbol ∧
    task.next? d = none

/-- An item of a state is a rule with a dot that is in place. -/
structure Item.Placed (task : Task α) (c : Chart) (state : Nat) (e : Item)
    (r : Rule α) : Prop where
  rule_eq : task.grammar.rules[e.rule]? = some r
  head_eq : e.head = r.lhs
  state_eq : e.state = state
  start_le : e.start ≤ state
  state_le : state ≤ task.input.size
  dot_le : e.dot ≤ r.rhs.length
  /-- There is one back pointer for each nonterminal before the dot. -/
  back : List.Forall₂ (c.Completes task e.id)
    ((r.rhs.take e.dot).filter fun symbol =>
      !task.grammar.alphabet.isTerminal symbol) e.back
  /-- The completed items and the terminals of the input follow each other from
  the beginning of the span to its end. -/
  tiled : Matched task c.items (r.rhs.take e.dot) e.back e.start state
  /-- The start symbol derives the input up to the span, followed by the left
  side. -/
  expected : ∃ after, Reaches task.grammar.rules [startId]
    (task.input.toList.take e.start ++ r.lhs :: after)

theorem Matched.forall₂_completes (hs : c.Sound task)
    {symbols : List SymbolId} {back : List Nat} {i j id : Nat}
    (h : Matched task c.items symbols back i j) (hLt : ∀ b ∈ back, b < id) :
    List.Forall₂ (c.Completes task id)
      (symbols.filter fun symbol =>
        !task.grammar.alphabet.isTerminal symbol) back := by
  induction h with
  | nil _ => exact .nil
  | terminal hTerminal _ _ ih =>
      rw [List.filter_cons_of_neg (by simp [hTerminal])]
      exact ih hLt
  | @completed b d rest back j hHead hItem hNext _ ih =>
      rw [List.filter_cons_of_pos (by simp [hHead])]
      refine .cons ⟨hLt b (by simp), d, ?_, hs.id_eq hItem, rfl, hNext⟩
        (ih fun x hx => hLt x (by simp [hx]))
      exact Sound.mem_stateItems_iff hs |>.2
        ⟨hs.id_eq hItem ▸ hItem, rfl⟩

theorem exists_placed (hp : task.Proper) (hs : c.Sound task)
    (ht : Tiled task c) (hv : Viable task c) {state : Nat} {e : Item}
    (he : e ∈ c.stateItems state) : ∃ r, e.Placed task c state r := by
  obtain ⟨hItem, rfl⟩ := hs.mem_stateItems he
  obtain ⟨r, hRule, hLhs, hRhs⟩ := hp.exists_rule hs hItem
  have hKey := hs.key hItem
  have hMatched := ht.matched hItem
  have hDot : e.dot ≤ (task.rhs e.rule).length := hKey.dot_le
  have hExpected := (hv _ _ hItem).expects
  have hBack : ∀ b ∈ e.back, b < e.id := hs.back_lt hItem
  rw [← hRhs] at hMatched hDot
  refine ⟨r, hRule, (ht.head_eq hItem).trans hLhs.symm, rfl, hKey.start_le,
    hKey.state_le, hDot, hMatched.forall₂_completes hs hBack, hMatched, ?_⟩
  rw [hLhs]
  exact hExpected

/-! ## Charts -/

/-- The chart is in order: numbers are given once, the items are those of the
states, equal items are stored once, and each item is in place. -/
structure Chart.Invariant (task : Task α) (c : Chart) : Prop where
  size_states : c.states.size = task.input.size + 1
  /-- No two items have the same number. -/
  nodup_ids : (c.items.toList.map Item.id).Nodup
  /-- An item is in the state that it belongs to. -/
  stored : ∀ e ∈ c.items, e ∈ c.stateItems e.state
  /-- A state has as many different keys as items. -/
  card_keys : ∀ state,
    ((c.stateItems state).map Item.key).toFinset.card = (c.ids state).size
  placed : ∀ state, ∀ e ∈ c.stateItems state,
    ∃ r, e.Placed task c state r

theorem nodup_stateItems (hs : c.Sound task) (ht : Tiled task c)
    (state : Nat) : (c.stateItems state).Nodup := by
  refine (ht.nodup_ids state).filterMap ?_
  intro i j e hi hj
  rw [← hs.id_eq hi, ← hs.id_eq hj]

theorem nodup_keys (hs : c.Sound task) (ht : Tiled task c) (state : Nat) :
    ((c.stateItems state).map Item.key).Nodup := by
  refine List.Nodup.map_on ?_ (nodup_stateItems hs ht state)
  intro d hd e he hKey
  have hItem := (hs.mem_stateItems hd).1
  have hItem' := (hs.mem_stateItems he).1
  rw [hs.distinct hItem hItem' hKey, hItem'] at hItem
  exact (Option.some.inj hItem).symm

/-- Every number that is listed for a state is that of an item. -/
theorem length_stateItems (hs : c.Sound task) (state : Nat) :
    (c.stateItems state).length = (c.ids state).size := by
  rw [← Array.length_toList, Chart.stateItems, List.filterMap_length_eq_length]
  intro i hi
  obtain ⟨e, hItem, _⟩ := hs.home (Array.mem_toList_iff.1 hi)
  rw [hItem]
  rfl

theorem Chart.invariant_of_sound (hp : task.Proper) (hs : c.Sound task)
    (ht : Tiled task c) (hv : Viable task c) : c.Invariant task := by
  refine ⟨hs.size_states, ?_, fun e he => ?_, fun state => ?_,
    fun state e he => exists_placed hp hs ht hv he⟩
  · have hIds : c.items.toList.map Item.id = List.range c.items.size := by
      refine List.ext_getElem (by simp) fun i hi _ => ?_
      have hItem := Array.getElem?_eq_getElem (by simpa using hi)
      simpa using hs.id_eq hItem
    rw [hIds]
    exact List.nodup_range
  · obtain ⟨i, hi, hGet⟩ := Array.mem_iff_getElem.1 he
    have hItem : c.items[i]? = some e := by
      rw [Array.getElem?_eq_getElem hi, hGet]
    exact Sound.mem_stateItems_iff hs |>.2 ⟨hs.id_eq hItem ▸ hItem, rfl⟩
  · rw [List.toFinset_card_of_nodup (nodup_keys hs ht state), List.length_map,
      length_stateItems hs]

/-! ## At every moment -/

/-- At every moment of a parse the chart is in order.  The search for cycles
through stored items ends with an answer, and the tree of a completed item is
rebuilt: no back pointer is lacking, and none leads to the item itself or to a
later one, which rebuilding would refuse. -/
theorem Chart.Occurs.invariant {g : Grammar α} (hg : g.WellFormed)
    (input : List SymbolId) (h : c.Occurs (Task.make g input)) :
    c.Invariant (Task.make g input) ∧
    (∀ rule start state back, (∀ b ∈ back, ∃ d, c.items[b]? = some d) →
      Searches c.items rule start state back.reverse
        (c.isCyclic rule start state back)) ∧
    ∀ accepted, ∀ d ∈ c.items, (Task.make g input).next? d = none →
      (Parse.expand ⟨.make g input, c, accepted⟩ d.id).Yields fun t =>
        t.shape = itemTree (.make g input) c.items d.id := by
  have hp := Task.proper_make hg input
  have hs := h.sound
  obtain ⟨ht, hv⟩ := h.of_grows (p := fun c => Tiled _ c ∧ Viable _ c)
    ⟨tiled_blank _, viable_blank _⟩ fun ⟨ht, hv⟩ hGrows =>
      ⟨ht.grows hp hGrows, hv.grows hp ht hGrows⟩
  have hInvariant := Chart.invariant_of_sound hp hs ht hv
  refine ⟨hInvariant, fun rule start state back => hs.searches,
    fun accepted d hd hNext => ?_⟩
  have hItem := (hs.mem_stateItems (hInvariant.stored d hd)).1
  exact yields_expand (p := ⟨.make g input, c, accepted⟩) hs ht d.id d hItem
    hNext

/-- Two letters, while the first of them is completed: one of the two items
that wait for the start symbol has been advanced, the other one has not. -/
def Chart.halfway : Chart where
  items := #[⟨0, 0, startId, 0, 0, 0, []⟩, ⟨1, 1, startId, 0, 0, 0, []⟩,
    ⟨2, 2, startId, 0, 0, 0, []⟩, ⟨3, 2, startId, 1, 0, 1, []⟩,
    ⟨4, 0, startId, 1, 0, 1, [3]⟩]
  states := #[#[0, 1, 2], #[3, 4], #[]]
  skipped := #[]

theorem Chart.occurs_halfway :
    halfway.Occurs (Task.make (Grammar.chains 1 2 3) [2, 2]) := by
  have hAfter : Agenda.after (.make (Grammar.chains 1 2 3) [2, 2]) 4 =
      some ⟨⟨halfway.items.pop, #[#[0, 1, 2], #[3], #[]], #[]⟩, 1, 0⟩ := by
    with_unfolding_all rfl
  have hReachable := Agenda.reachable_of_after hAfter
  have hChart : completeOver (.make (Grammar.chains 1 2 3) [2, 2])
      ⟨halfway.items.pop, #[#[0, 1, 2], #[3], #[]], #[]⟩
      ⟨3, 2, startId, 1, 0, 1, []⟩ [⟨0, 0, startId, 0, 0, 0, []⟩] =
        halfway := by
    with_unfolding_all rfl
  rw [← hChart]
  exact Occurs.completing hReachable rfl rfl ⟨_, rfl⟩

/-- The invariant in the middle of this loop. -/
theorem Chart.Occurs.invariant_halfway :
    halfway.Invariant (Task.make (Grammar.chains 1 2 3) [2, 2]) ∧
    (∀ rule start state back,
      (∀ b ∈ back, ∃ d, halfway.items[b]? = some d) →
      Searches halfway.items rule start state back.reverse
        (halfway.isCyclic rule start state back)) ∧
    ∀ accepted, ∀ d ∈ halfway.items,
      (Task.make (Grammar.chains 1 2 3) [2, 2]).next? d = none →
      (Parse.expand ⟨.make (Grammar.chains 1 2 3) [2, 2], halfway, accepted⟩
        d.id).Yields fun t =>
          t.shape = itemTree (.make (Grammar.chains 1 2 3) [2, 2])
            halfway.items d.id :=
  Occurs.invariant (Grammar.wellFormed_chains 1 2 3) [2, 2] occurs_halfway

end StochasticGrammar.Earley
