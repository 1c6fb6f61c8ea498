import Mathlib.Data.List.Nodup
import StochasticGrammar.Proofs.Parse.Earley.ItemTree
import StochasticGrammar.Proofs.Tree.Graph

/-!
# The numbers in rebuilt trees

Rebuilding a completed item gives each inner node the number of the item it
comes from, and the terminals fresh numbers, from left to right.  An item lies
at one place of the input, so it can stand twice in a tree only where it
derives nothing.

Main results: the nodes of a rebuilt tree have pairwise different numbers if no
two nodes that derive nothing are the same derivation at the same place
(`Numbered.nodup_ids`), and their names are pairwise different in no other case
(`Numbered.nodup_emptyPlaces`).
-/

namespace StochasticGrammar.Earley

open ParseTree

variable {α : Type} {p : Parse α}

/-- A node at a place comes from a completed item that starts there. -/
structure ComesFrom (p : Parse α) (x : Nat × ParseTree) (d : Item) :
    Prop where
  item : p.chart.items[d.id]? = some d
  completed : p.task.next? d = none
  start_eq : d.start = x.1
  id_eq : x.2.entry.id = d.id
  shape_eq : x.2.shape = itemTree p.task p.chart.items d.id

/-- What rebuilding a row of trees at a place makes of the numbers, if it takes
the counter from `n` to `m`. -/
structure Numbered (p : Parse α) (n m before : Nat) (ts : List ParseTree) :
    Prop where
  le : n ≤ m
  terminal_ids : (ts.flatMap terminals).map (·.entry.id) =
    (List.range' n (m - n)).map Int.ofNat
  inner : ∀ x ∈ placedList before ts, x.2.isTerminalLeaf = false →
    ∃ d, ComesFrom p x d

namespace Numbered

variable {n m k before : Nat} {t : ParseTree} {ts : List ParseTree}

theorem nil : Numbered p n n before [] where
  le := Nat.le_refl n
  terminal_ids := by simp
  inner := by simp [placedList]

theorem cons (h : Numbered p n m before [t])
    (hRest : Numbered p m k (before + t.terminals.length) ts) :
    Numbered p n k before (t :: ts) where
  le := Nat.le_trans h.le hRest.le
  terminal_ids := by
    have hFirst := h.terminal_ids
    rw [List.flatMap_singleton] at hFirst
    have hLe := h.le
    have hLe' := hRest.le
    have hJoin : List.range' n (k - n) =
        List.range' n (m - n) ++ List.range' m (k - m) := by
      have hAppend := List.range'_append_1 (s := n) (m := m - n) (n := k - m)
      rw [show n + (m - n) = m by omega,
        show m - n + (k - m) = k - n by omega] at hAppend
      exact hAppend.symm
    rw [List.flatMap_cons, List.map_append, hFirst, hRest.terminal_ids, hJoin,
      List.map_append]
  inner x hx := by
    rw [placedList, List.mem_append] at hx
    rcases hx with hx | hx
    · exact h.inner x (by rw [placedList]; exact List.mem_append_left _ hx)
    · exact hRest.inner x hx

theorem leaf (n before : Nat) (s : SymbolId) :
    Numbered p n (n + 1) before [leafOf ⟨.leaf, n, none, s⟩] where
  le := Nat.le_succ n
  terminal_ids := by
    rw [List.flatMap_singleton, terminals_of_isTerminalLeaf rfl]
    simp [leafOf, entry]
  inner x hx hInner := by
    obtain rfl : x = (before, leafOf ⟨.leaf, n, none, s⟩) := by
      simpa [placedList, leafOf, placed] using hx
    cases hInner

/-- An item over numbered trees is numbered by itself. -/
theorem node {e : Entry} {d : Item} (h : Numbered p n m before ts)
    (hInner : (ParseTree.node e ts).isTerminalLeaf = false)
    (hRoot : ComesFrom p (before, .node e ts) d) :
    Numbered p n m before [.node e ts] where
  le := h.le
  terminal_ids := by
    rw [List.flatMap_singleton, terminals_node hInner]
    exact h.terminal_ids
  inner x hx hNode := by
    rw [placedList, placedList, List.append_nil, placed, List.mem_cons] at hx
    rcases hx with rfl | hx
    · exact ⟨d, hRoot⟩
    · exact h.inner x hx hNode

end Numbered

/-! ## Rebuilding -/

theorem run_leaf (s : SymbolId) (n : Nat) :
    (Parse.leaf s).run.run n = (.ok (leafOf ⟨.leaf, n, none, s⟩), n + 1) :=
  rfl

/-- Rebuilding the trees of matched symbols numbers them, if it does so for
their items. -/
theorem Matched.exists_numbered {symbols : List SymbolId} {back : List Nat}
    {i j id : Nat} (h : Matched p.task p.chart.items symbols back i j)
    (hLt : ∀ b ∈ back, b < id)
    (hExpand : ∀ b ∈ back, ∀ d, p.chart.items[b]? = some d →
      p.task.next? d = none → ∀ n, ∃ t m,
        (p.expand b).run.run n = (.ok t, m) ∧ Numbered p n m d.start [t] ∧
          d.start + t.terminals.length = d.state) (n : Nat) :
    ∃ ts m, (p.expandSymbols id back symbols).run.run n = (.ok ts, m) ∧
      Numbered p n m i ts ∧ i + (ts.flatMap terminals).length = j := by
  induction h generalizing n with
  | nil i =>
      refine ⟨[], n, ?_, .nil, by simp⟩
      rw [Parse.expandSymbols]
      rfl
  | @terminal s rest back i j hTerminal _ _ ih =>
      obtain ⟨ts, m, hRun, hRest, hEnd⟩ := ih hLt hExpand (n + 1)
      have hWidth : (leafOf ⟨.leaf, n, none, s⟩).terminals.length = 1 := by
        rw [terminals_of_isTerminalLeaf rfl]
        rfl
      refine ⟨_ :: ts, m, ?_,
        (Numbered.leaf n i s).cons (by rwa [hWidth]), ?_⟩
      · rw [Parse.expandSymbols.eq_def]
        dsimp only
        rw [if_pos hTerminal, Drawing.run_bind (run_leaf s n),
          Drawing.run_bind hRun]
        rfl
      · rw [List.flatMap_cons, List.length_append, hWidth]
        omega
  | @completed b d rest back j hHead hItem hNext _ ih =>
      obtain ⟨t, m, hRun, hTree, hState⟩ :=
        hExpand b (by simp) d hItem hNext n
      obtain ⟨ts, k, hRunRest, hRest, hEnd⟩ :=
        ih (fun b hb => hLt b (by simp [hb]))
          (fun b hb => hExpand b (by simp [hb])) m
      refine ⟨t :: ts, k, ?_, hTree.cons (by rwa [hState]), ?_⟩
      · rw [Parse.expandSymbols.eq_def]
        dsimp only
        rw [if_neg (by simp [hHead]), if_pos (hLt b (by simp)),
          Drawing.run_bind hRun, Drawing.run_bind hRunRest]
        rfl
      · rw [List.flatMap_cons, List.length_append]
        omega

/-- Rebuilding a completed item numbers its tree, which spans the input from
the start of the item to its state. -/
theorem exists_numbered_expand (hs : p.chart.Sound p.task)
    (ht : Tiled p.task p.chart) (b : Nat) :
    ∀ d, p.chart.items[b]? = some d → p.task.next? d = none → ∀ n, ∃ t m,
      (p.expand b).run.run n = (.ok t, m) ∧ Numbered p n m d.start [t] ∧
        d.start + t.terminals.length = d.state := by
  induction b using Nat.strongRecOn with
  | _ b ih =>
      intro d hItem hNext n
      have hId : d.id = b := hs.id_eq hItem
      obtain ⟨ts, m, hRunRows, hRows, hEnd⟩ :=
        (matched_rhs ht hItem hNext).exists_numbered (hs.back_lt hItem)
          (fun child hMem => ih child (hs.back_lt hItem child hMem)) n
      have hRun : (p.expand b).run.run n =
          (.ok (.node ⟨.earley, d.id, some d.rule, d.head⟩ ts), m) := by
        rw [Parse.expand, hItem]
        dsimp only
        rw [Drawing.run_bind hRunRows]
        rfl
      -- the shape is known from what the item stands for
      obtain ⟨u, _, hSame, hShape⟩ := yields_expand hs ht b d hItem hNext n
      rw [hRun] at hSame
      cases hSame
      have hInner : (ParseTree.node ⟨.earley, d.id, some d.rule, d.head⟩
          ts).isTerminalLeaf = false := by
        simp [isTerminalLeaf, entry]
      refine ⟨_, m, hRun, hRows.node hInner
        ⟨hId ▸ hItem, hNext, rfl, rfl, hId ▸ hShape⟩, ?_⟩
      rw [terminals_node hInner]
      exact hEnd

/-! ## Numbers and places -/

section Places

variable {n m : Nat} {t : ParseTree}

theorem Numbered.nodup_terminal_ids (h : Numbered p n m 0 [t]) :
    (t.terminals.map (·.entry.id)).Nodup := by
  have hIds := h.terminal_ids
  rw [List.flatMap_singleton] at hIds
  rw [hIds]
  exact (List.nodup_range').map fun _ _ hEq => Int.ofNat.inj hEq

theorem Numbered.le_terminal_id (h : Numbered p n m 0 [t]) {u : ParseTree}
    (hu : u ∈ t.terminals) : (n : Int) ≤ u.entry.id := by
  have hIds := h.terminal_ids
  rw [List.flatMap_singleton] at hIds
  have hMem := List.mem_map_of_mem (f := fun u => u.entry.id) hu
  rw [hIds, List.mem_map] at hMem
  obtain ⟨i, hi, hEq⟩ := hMem
  have hFrom := (List.mem_range'_1.1 hi).1
  rw [← hEq]
  exact Int.ofNat_le.2 hFrom

/-- The terminals of a tree, by their places. -/
theorem pairwise_placed_terminals (h : Numbered p n m 0 [t]) :
    (placed 0 t).Pairwise fun x y => x.2.isTerminalLeaf = true →
      y.2.isTerminalLeaf = true → x.2.entry.id ≠ y.2.entry.id := by
  have hIds := h.nodup_terminal_ids
  rwa [terminals, ← map_snd_placed 0 t, List.Nodup, List.pairwise_map,
    List.pairwise_filter, List.pairwise_map] at hIds

theorem mem_terminals_of_mem_placed {x : Nat × ParseTree}
    (hx : x ∈ placed 0 t) (hTerminal : x.2.isTerminalLeaf = true) :
    x.2 ∈ t.terminals :=
  List.mem_filter.2 ⟨map_snd_placed 0 t ▸ List.mem_map_of_mem hx, hTerminal⟩

theorem ComesFrom.id_lt {x : Nat × ParseTree} {d : Item}
    (h : ComesFrom p x d) : x.2.entry.id < p.chart.items.size := by
  rw [h.id_eq]
  exact Int.ofNat_lt.2 (Array.getElem?_eq_some_iff.1 h.item).1

/-- Nodes of two items have one number exactly if the items are the same, which
are the derivations of the same symbols at the same place. -/
theorem ComesFrom.id_eq_iff (hs : p.chart.Sound p.task)
    (ht : Tiled p.task p.chart) {x y : Nat × ParseTree} {d e : Item}
    (hx : ComesFrom p x d) (hy : ComesFrom p y e) :
    x.2.entry.id = y.2.entry.id ↔ x.1 = y.1 ∧ x.2.shape = y.2.shape := by
  rw [hx.id_eq, hy.id_eq, Int.natCast_inj]
  constructor
  · intro hId
    have hItem := hx.item
    rw [hId, hy.item, Option.some.injEq] at hItem
    rw [← hx.start_eq, ← hy.start_eq, hx.shape_eq, hy.shape_eq, hItem]
    exact ⟨rfl, rfl⟩
  · rintro ⟨hPlace, hShape⟩
    rw [← hx.start_eq, ← hy.start_eq] at hPlace
    rw [hx.shape_eq, hy.shape_eq] at hShape
    exact itemTree_injective hs ht d.id e.id d e hx.item hy.item
      hx.completed hy.completed hPlace hShape

theorem Numbered.exists_comesFrom (h : Numbered p n m 0 [t])
    {x : Nat × ParseTree} (hx : x ∈ placed 0 t)
    (hInner : x.2.isTerminalLeaf = false) : ∃ d, ComesFrom p x d :=
  h.inner x (by rw [placedList]; exact List.mem_append_left _ hx) hInner

theorem Numbered.le_id_of_terminal (h : Numbered p n m 0 [t])
    (hFresh : p.chart.items.size ≤ n) {x : Nat × ParseTree}
    (hx : x ∈ placed 0 t) (hTerminal : x.2.isTerminalLeaf = true) :
    (p.chart.items.size : Int) ≤ x.2.entry.id := by
  have hFrom := h.le_terminal_id (mem_terminals_of_mem_placed hx hTerminal)
  omega

/-- Of two nodes that follow each other, those of one number are one derivation
of nothing at one place. -/
theorem Numbered.id_ne (hs : p.chart.Sound p.task)
    (ht : Tiled p.task p.chart) (h : Numbered p n m 0 [t])
    (hFresh : p.chart.items.size ≤ n) {x y : Nat × ParseTree}
    (hx : x ∈ placed 0 t) (hy : y ∈ placed 0 t) (hFollows : Follows x y)
    (hTerminals : x.2.isTerminalLeaf = true → y.2.isTerminalLeaf = true →
      x.2.entry.id ≠ y.2.entry.id)
    (hPlaces : x.2.terminals.isEmpty = true → y.2.terminals.isEmpty = true →
      (x.1, x.2.shape) ≠ (y.1, y.2.shape)) :
    x.2.entry.id ≠ y.2.entry.id := by
  cases hxLeaf : x.2.isTerminalLeaf with
  | true =>
      have hxFresh := h.le_id_of_terminal hFresh hx hxLeaf
      cases hyLeaf : y.2.isTerminalLeaf with
      | true => exact hTerminals hxLeaf hyLeaf
      | false =>
          obtain ⟨e, he⟩ := h.exists_comesFrom hy hyLeaf
          have := he.id_lt
          omega
  | false =>
      obtain ⟨d, hd⟩ := h.exists_comesFrom hx hxLeaf
      cases hyLeaf : y.2.isTerminalLeaf with
      | true =>
          have hyFresh := h.le_id_of_terminal hFresh hy hyLeaf
          have := hd.id_lt
          omega
      | false =>
          obtain ⟨e, he⟩ := h.exists_comesFrom hy hyLeaf
          intro hId
          have hSame := (hd.id_eq_iff hs ht he).1 hId
          have hNothing := hFollows.isEmpty_of_shape_eq hSame.1 hSame.2
          exact hPlaces hNothing.1 hNothing.2 (Prod.mk.injEq .. ▸ hSame)

/-- If no two nodes of a rebuilt tree are the same derivation of nothing at the
same place, the nodes have pairwise different numbers. -/
theorem Numbered.nodup_ids (hs : p.chart.Sound p.task)
    (ht : Tiled p.task p.chart) (h : Numbered p n m 0 [t])
    (hFresh : p.chart.items.size ≤ n) (hPlaces : t.emptyPlaces.Nodup) :
    t.ids.Nodup := by
  rw [emptyPlaces, List.Nodup, List.pairwise_map, List.pairwise_filter]
    at hPlaces
  rw [ids_eq_map_placed 0, List.Nodup, List.pairwise_map]
  have hOrder := (pairwise_placed 0 t).and (pairwise_placed_terminals h)
  refine (hOrder.and hPlaces).imp_of_mem fun {x y} hx hy hxy => ?_
  exact h.id_ne hs ht hFresh hx hy hxy.1.1 hxy.1.2 hxy.2

/-- If the nodes of a rebuilt tree have pairwise different names, no two of them
are the same derivation of nothing at the same place. -/
theorem Numbered.nodup_emptyPlaces (hs : p.chart.Sound p.task)
    (ht : Tiled p.task p.chart) (h : Numbered p n m 0 [t])
    (hNames : (t.nodes.map graphName).Nodup) : t.emptyPlaces.Nodup := by
  rw [← map_snd_placed 0 t, List.Nodup, List.pairwise_map, List.pairwise_map]
    at hNames
  rw [emptyPlaces, List.Nodup, List.pairwise_map, List.pairwise_filter]
  refine hNames.imp_of_mem fun {x y} hx hy hName hxEmpty hyEmpty hSame => ?_
  have hxInner := isTerminalLeaf_of_isEmpty hxEmpty
  have hyInner := isTerminalLeaf_of_isEmpty hyEmpty
  obtain ⟨d, hd⟩ := h.exists_comesFrom hx hxInner
  obtain ⟨e, he⟩ := h.exists_comesFrom hy hyInner
  have hId := (hd.id_eq_iff hs ht he).2 (Prod.mk.inj hSame)
  exact hName (by rw [graphName, graphName, hxInner, hyInner, hId])

end Places

end StochasticGrammar.Earley
