import Mathlib.Data.Set.Card
import StochasticGrammar.Proofs.NormalForm.Erasable
import StochasticGrammar.Proofs.NormalForm.Stages
import StochasticGrammar.Proofs.Tree.Rewriting

/-!
# Layers of symbols

A rule exposes a symbol on its right side if everything beside that symbol can
be erased.  Where no symbol derives itself, the symbols lie in layers: each
symbol has a rank, and what a rule of it exposes has a lower one.

The first two stages of the conversion keep the layers.  A copy of the start
symbol has the rank of the start symbol, and a symbol that the rest of a right
side was handed over to comes between the symbol that handed it over and what
the rest exposes.  So once nothing is erased any more, the unit rules lead down
the layers.

Main results: `layered_of_acyclic`, `layered_split`,
`exposes_of_mem_withShortened`.
-/

namespace StochasticGrammar.NormalForm

open Relation

variable {α : Type} {rules : List (Rule α)}

/-- A rule leads from its left side to a symbol on its right side if everything
beside that symbol can be erased. -/
def Exposes (rules : List (Rule α)) (x y : SymbolId) : Prop :=
  ∃ r ∈ rules, r.lhs = x ∧ ∃ before after, r.rhs = before ++ y :: after ∧
    ∀ z ∈ before ++ after, z ∈ erasables rules

/-- Ranks that get lower wherever a rule leads. -/
def Ranks (rules : List (Rule α)) (rank : SymbolId → Nat) : Prop :=
  ∀ x y, Exposes rules x y → rank y < rank x

/-- There are such ranks. -/
def Layered (rules : List (Rule α)) : Prop := ∃ rank, Ranks rules rank

/-! ## Grammars without cycles -/

/-- An erasable symbol can be rewritten to nothing. -/
theorem reaches_nil_of_mem_erasables :
    ∀ x ∈ erasables rules, Reaches rules [x] [] := by
  refine erasables_induction fun r hr hBelow => ?_
  exact .head (.rule hr) (Reaches.nil hBelow)

/-- What a rule exposes is derived from its left side. -/
theorem Exposes.transGen {x y : SymbolId} (h : Exposes rules x y) :
    TransGen (Rewrites rules) [x] [y] := by
  obtain ⟨r, hr, rfl, before, after, hRhs, hOthers⟩ := h
  have hErase : ∀ z ∈ before ++ after, Reaches rules [z] [] :=
    fun z hz => reaches_nil_of_mem_erasables z (hOthers z hz)
  have hBefore : Reaches rules before [] :=
    .nil fun z hz => hErase z (by simp [hz])
  have hAfter : Reaches rules ([y] ++ after) ([y] ++ []) :=
    Reaches.append .refl (.nil fun z hz => hErase z (by simp [hz]))
  refine TransGen.head' (.rule hr) ?_
  rw [hRhs]
  simpa using hBefore.append hAfter

/-- A relation without cycles has ranks if it leads to finitely many places:
the number of places that can be reached. -/
theorem exists_rank {β : Type} {r : β → β → Prop}
    (hFinite : {y | ∃ x, r x y}.Finite) (hNone : ∀ x, ¬ TransGen r x x) :
    ∃ rank : β → Nat, ∀ x y, r x y → rank y < rank x := by
  refine ⟨fun x => {y | TransGen r x y}.ncard, fun x y hStep => ?_⟩
  refine Set.ncard_lt_ncard ⟨fun z hz => .head hStep hz, fun hSubset => ?_⟩ ?_
  · exact hNone y (hSubset (.single hStep))
  · refine hFinite.subset fun z hz => ?_
    obtain ⟨w, _, hLast⟩ := TransGen.tail'_iff.1 hz
    exact ⟨w, hLast⟩

theorem finite_exposes : {y | ∃ x, Exposes rules x y}.Finite := by
  refine (rules.flatMap (·.rhs)).finite_toSet.subset ?_
  rintro y ⟨x, r, hr, _, before, after, hRhs, _⟩
  exact List.mem_flatMap.2 ⟨r, hr, by simp [hRhs]⟩

/-- Where no symbol derives itself, the symbols lie in layers. -/
theorem layered_of_acyclic (h : Acyclic rules) : Layered rules := by
  refine exists_rank finite_exposes fun x hCycle => h x ?_
  have hReaches : ∀ y, TransGen (Exposes rules) x y →
      TransGen (Rewrites rules) [x] [y] := by
    intro y hy
    induction hy with
    | single hOne => exact hOne.transGen
    | tail _ hOne ih => exact ih.trans hOne.transGen
  exact hReaches x hCycle

/-! ## Layers that are kept -/

/-- If the new rules are old ones when the symbols are renamed, the layers are
kept. -/
theorem Layered.of_map {β : Type} {new : List (Rule β)}
    (name : SymbolId → SymbolId)
    (hNew : ∀ r ∈ new, ∃ s ∈ rules, s.lhs = name r.lhs ∧
      s.rhs = r.rhs.map name)
    (h : Layered rules) : Layered new := by
  obtain ⟨rank, hRank⟩ := h
  have hErased : ∀ z ∈ erasables new, name z ∈ erasables rules := by
    refine erasables_induction fun r hr hBelow => ?_
    obtain ⟨s, hs, hLhs, hRhs⟩ := hNew r hr
    rw [← hLhs]
    refine eraseClosed_erasables rules s hs fun t ht => ?_
    rw [hRhs] at ht
    obtain ⟨z, hz, rfl⟩ := List.mem_map.1 ht
    exact hBelow z hz
  refine ⟨fun x => rank (name x), ?_⟩
  rintro _ y ⟨r, hr, rfl, before, after, hRhs, hOthers⟩
  obtain ⟨s, hs, hLhs, hRhs'⟩ := hNew r hr
  refine hRank _ _ ⟨s, hs, hLhs, before.map name, after.map name, ?_,
    fun t ht => ?_⟩
  · rw [hRhs', hRhs, List.map_append, List.map_cons]
  · rw [← List.map_append] at ht
    obtain ⟨z, hz, rfl⟩ := List.mem_map.1 ht
    exact hErased z (hOthers z hz)

theorem Layered.of_subset {new : List (Rule α)} (hSubset : new ⊆ rules)
    (h : Layered rules) : Layered new :=
  h.of_map id fun r hr => ⟨r, hSubset hr, rfl, by simp⟩

/-! ## Handing over the rest of a right side -/

theorem Avoids.ne_of_mem {id y : SymbolId} {r : Rule α} (h : Avoids id r)
    (hy : y ∈ r.rhs) : y ≠ id :=
  fun hEq => h.2 (hEq ▸ hy)

section HandOver

variable {lhs first id : SymbolId} {rest : List SymbolId} {p u : α}
  (hRule : Avoids id ⟨lhs, first :: rest, p⟩)
  (hRules : ∀ r ∈ rules, Avoids id r)

include hRule hRules

/-- The new symbol can be erased only if all of the rest can, and the others
only if they could before. -/
theorem mem_erasables_handOver :
    ∀ z ∈ erasables (⟨lhs, [first, id], p⟩ :: ⟨id, rest, u⟩ :: rules),
      if z = id then
        ∀ y ∈ rest, y ∈ erasables (⟨lhs, first :: rest, p⟩ :: rules)
      else z ∈ erasables (⟨lhs, first :: rest, p⟩ :: rules) := by
  have hNe : ∀ y ∈ first :: rest, y ≠ id := fun y hy => hRule.ne_of_mem hy
  have hClosed := eraseClosed_erasables (⟨lhs, first :: rest, p⟩ :: rules)
  refine erasables_induction fun r hr hBelow => ?_
  simp only [List.mem_cons] at hr
  rcases hr with rfl | rfl | hr
  · have hFirst := hBelow first (by simp)
    have hRest := hBelow id (by simp)
    rw [if_neg (hNe first (by simp))] at hFirst
    rw [if_pos rfl] at hRest
    rw [if_neg hRule.1]
    exact hClosed ⟨lhs, first :: rest, p⟩ (by simp)
      (List.forall_mem_cons.2 ⟨hFirst, hRest⟩)
  · rw [if_pos rfl]
    intro y hy
    have hErased := hBelow y hy
    rwa [if_neg (hNe y (by simp [hy]))] at hErased
  · rw [if_neg (hRules r hr).1]
    refine hClosed r (by simp [hr]) fun t ht => ?_
    have hErased := hBelow t ht
    rwa [if_neg ((hRules r hr).ne_of_mem ht)] at hErased

/-- The left side may expose the new symbol, and the new symbol the rest. -/
theorem exposes_handOver {x y : SymbolId}
    (h : Exposes (⟨lhs, [first, id], p⟩ :: ⟨id, rest, u⟩ :: rules) x y) :
    (x ≠ id ∧ y ≠ id ∧ Exposes (⟨lhs, first :: rest, p⟩ :: rules) x y) ∨
    (x = lhs ∧ y = id ∧
      first ∈ erasables (⟨lhs, first :: rest, p⟩ :: rules)) ∨
    (x = id ∧ y ∈ rest ∧
      (first ∈ erasables (⟨lhs, first :: rest, p⟩ :: rules) →
        Exposes (⟨lhs, first :: rest, p⟩ :: rules) lhs y)) := by
  have hErased := mem_erasables_handOver (u := u) hRule hRules
  have hOld : ∀ z ∈ erasables
      (⟨lhs, [first, id], p⟩ :: ⟨id, rest, u⟩ :: rules), z ≠ id →
        z ∈ erasables (⟨lhs, first :: rest, p⟩ :: rules) := by
    intro z hz hNe
    have hz' := hErased z hz
    rwa [if_neg hNe] at hz'
  have hNe : ∀ y ∈ first :: rest, y ≠ id := fun y hy => hRule.ne_of_mem hy
  obtain ⟨r, hr, rfl, before, after, hSplit, hOthers⟩ := h
  have hBeside : ∀ z ∈ before ++ after, z ∈ r.rhs := by
    rw [hSplit]
    exact ((List.sublist_cons_self y after).append_left before).subset
  simp only [List.mem_cons] at hr
  rcases hr with rfl | rfl | hr
  · obtain ⟨rfl, hy⟩ | ⟨before, rfl, hy⟩ := List.cons_eq_append_iff.1 hSplit
    · obtain ⟨rfl, rfl⟩ := List.cons.inj hy
      have hRest := hErased id (hOthers id (by simp))
      rw [if_pos rfl] at hRest
      exact .inl ⟨hRule.1, hNe y (by simp),
        _, List.mem_cons_self, rfl, [], rest, rfl, hRest⟩
    · have hLast : y = id := by
        cases before with
        | nil => exact (List.cons.inj hy).1.symm
        | cons b before => simp at hy
      have hFirst := hOld first (hOthers first (by simp)) (hNe first (by simp))
      exact .inr (.inl ⟨rfl, hLast, hFirst⟩)
  · have hSplit : rest = before ++ y :: after := hSplit
    have hy : y ∈ rest := by simp [hSplit]
    refine .inr (.inr ⟨rfl, hy, fun hFirst =>
      ⟨_, List.mem_cons_self, rfl, first :: before, after, ?_, ?_⟩⟩)
    · exact congrArg (first :: ·) hSplit
    · intro z hz
      rcases List.mem_cons.1 hz with rfl | hz
      · exact hFirst
      · exact hOld z (hOthers z hz)
          (hNe z (List.mem_cons_of_mem _ (hBeside z hz)))
  · have hAvoids := hRules r hr
    exact .inl ⟨hAvoids.1, hAvoids.ne_of_mem (by simp [hSplit]), r, by simp [hr],
      rfl, before, after, hSplit, fun z hz => hOld z (hOthers z hz)
        (hAvoids.ne_of_mem (hBeside z hz))⟩

/-- Handing over the rest of a right side keeps the layers. -/
theorem Layered.handOver (h : Layered (⟨lhs, first :: rest, p⟩ :: rules)) :
    Layered (⟨lhs, [first, id], p⟩ :: ⟨id, rest, u⟩ :: rules) := by
  obtain ⟨rank, hRank⟩ := h
  have hLhs : lhs ≠ id := hRule.1
  -- the new symbol is right below the left side if it may be exposed, and
  -- above the rest in any case
  let own : Nat :=
    if first ∈ erasables (⟨lhs, first :: rest, p⟩ :: rules) then 2 * rank lhs
    else 2 * (rest.map rank).sum + 2
  refine ⟨fun x => if x = id then own else 2 * rank x + 1, fun x y hStep => ?_⟩
  rcases exposes_handOver hRule hRules hStep with
    ⟨hx, hy, hOld⟩ | ⟨rfl, rfl, hFirst⟩ | ⟨rfl, hy, hOld⟩
  · simp only [if_neg hx, if_neg hy]
    have := hRank x y hOld
    omega
  · simp only [if_neg hLhs, if_true, own, if_pos hFirst]
    omega
  · have hNe : y ≠ x := hRule.ne_of_mem (List.mem_cons_of_mem _ hy)
    simp only [if_neg hNe, if_true, own]
    by_cases hFirst : first ∈ erasables (⟨lhs, first :: rest, p⟩ :: rules)
    · rw [if_pos hFirst]
      have := hRank lhs y (hOld hFirst)
      omega
    · rw [if_neg hFirst]
      have := List.single_le_sum (fun _ _ => Nat.zero_le _) _
        (List.mem_map_of_mem (f := rank) hy)
      omega

end HandOver

/-! ## The first two stages -/

section Chain

variable [One α]

/-- The chain of a long rule keeps the layers. -/
theorem layered_chain (rhs : List SymbolId) :
    ∀ (ids : List SymbolId) (lhs : SymbolId) (p : α) (rules : List (Rule α)),
      ids.Nodup →
      (∀ id ∈ ids, ∀ r ∈ ⟨lhs, rhs, p⟩ :: rules, Avoids id r) →
      Layered (⟨lhs, rhs, p⟩ :: rules) →
        Layered (chain lhs p rhs ids ++ rules) := by
  induction rhs with
  | nil => exact fun _ _ _ _ _ _ h => h
  | cons first rest ih =>
      intro ids lhs p rules hNodup hAvoids h
      cases ids with
      | nil => exact h
      | cons id ids =>
          obtain ⟨hNot, hNodup⟩ := List.nodup_cons.1 hNodup
          have hHead := hAvoids id (by simp)
          have hTail := avoids_handOver (u := 1) hNot fun x hx =>
            hAvoids x (by simp [hx])
          have hBoth : Layered (⟨lhs, [first, id], p⟩ :: ⟨id, rest, 1⟩ ::
              rules) :=
            h.handOver (hHead _ (by simp)) fun r hr => hHead r (by simp [hr])
          have hRest := ih ids id 1 (⟨lhs, [first, id], p⟩ :: rules) hNodup
            hTail (hBoth.of_subset (List.Perm.swap _ _ _).subset)
          exact hRest.of_subset List.perm_middle.symm.subset

variable {al extended : Alphabet}

theorem layered_splitRules {long : List (Rule α)} :
    ∀ {al extended : Alphabet} {chains : List (Rule α)}
      (rules : List (Rule α)), al.WellFormed →
      splitRules al long = .ok (extended, chains) →
      (∀ r ∈ long, Over al r) → (∀ r ∈ rules, Over al r) →
      Layered (long ++ rules) → Layered (chains ++ rules) := by
  induction long with
  | nil =>
      intro al extended chains rules _ h _ _ hLayered
      cases h
      exact hLayered
  | cons s long ih =>
      intro al extended chains rules hal h hLong hRules hLayered
      obtain ⟨⟨mid, first⟩, hFirst, h⟩ := bind_eq_ok.1 h
      obtain ⟨⟨last, rest⟩, hRest, h⟩ := bind_eq_ok.1 h
      cases h
      obtain ⟨ids, hFresh, _, rfl⟩ := splitRule_eq_ok hal hFirst
      have hs : Over al s := hLong s (by simp)
      have hLong : ∀ r ∈ long, Over al r := fun r hr => hLong r (by simp [hr])
      have hOver : ∀ r ∈ s :: long ++ rules, Over al r := by
        intro r hr
        simp only [List.cons_append, List.mem_cons, List.mem_append] at hr
        rcases hr with rfl | hr | hr
        · exact hs
        · exact hLong r hr
        · exact hRules r hr
      -- first this rule is split, with the others kept
      have hHead := layered_chain s.rhs ids s.lhs s.probability (long ++ rules)
        hFresh.nodup (fun id hId r hr =>
          (hOver r hr).avoids (hFresh.not_hasId id hId)) hLayered
      have hTail := ih (chain s.lhs s.probability s.rhs ids ++ rules)
        hFresh.wellFormed hRest (fun r hr => (hLong r hr).mono hFresh)
        (fun r hr => (List.mem_append.1 hr).elim
          (over_of_mem_chain hFresh hs) fun hr => (hRules r hr).mono hFresh)
        (hHead.of_subset (List.perm_append_comm_assoc _ _ _).subset)
      rw [List.append_assoc]
      exact hTail.of_subset (List.perm_append_comm_assoc _ _ _).subset

theorem layered_splitLong {s t : Stage α} (h : splitLong s = .ok t)
    (hal : s.alphabet.WellFormed) (hOver : ∀ r ∈ s.rules, Over s.alphabet r)
    (hLayered : Layered s.rules) : Layered t.rules := by
  obtain ⟨⟨al, chains⟩, hChains, h⟩ := bind_eq_ok.1 h
  cases h
  have hSplit := layered_splitRules (s.rules.filter (!isLong ·)) hal hChains
    (fun r hr => hOver r (List.mem_of_mem_filter hr))
    (fun r hr => hOver r (List.mem_of_mem_filter hr))
    (hLayered.of_subset (List.filter_append_perm isLong s.rules).subset)
  exact hSplit.of_subset List.perm_append_comm.subset

omit [One α] in
theorem layered_isolateStart {s : Stage α} (hal : al.WellFormed)
    (hPlain : Plain al rules) (h : isolateStart al rules = .ok s)
    (hLayered : Layered rules) : Layered s.rules := by
  rcases isolateStart_eq_ok hal h with ⟨rfl, _⟩ | ⟨copy, hFresh, hRules⟩
  · exact hLayered
  · -- the copy counts as the start symbol
    refine hLayered.of_map (fun x => if x = copy then startId else x)
      fun r hr => ?_
    rw [hRules] at hr
    obtain ⟨t, ht, hLhs, hRhs, _⟩ := mem_copyStart hr
    have hAvoids := (hPlain.known t ht).avoids (hFresh.not_hasId copy (by simp))
    refine ⟨t, ht, ?_, ?_⟩
    · rcases hLhs with hLhs | ⟨hLhs, hStart⟩
      · rw [hLhs, if_neg hAvoids.1]
      · rw [hLhs, if_pos rfl, hStart]
    · rw [hRhs, substituteStart, List.map_map]
      refine ((List.map_congr_left fun y hy => ?_).trans
        (List.map_id t.rhs)).symm
      have hNe := hAvoids.ne_of_mem hy
      by_cases hStart : y = startId
      · simp [hStart]
      · simp [hStart, hNe]

/-- If no symbol of a grammar derives itself, the symbols that the second stage
leaves lie in layers. -/
theorem layered_split {g : Grammar α} {s : Stage α} (hg : g.WellFormed)
    (h : split g = .ok s) (hFree : g.CycleFree) : Layered s.rules := by
  obtain ⟨t, hIsolate, hSplit⟩ := split_eq_ok h
  obtain ⟨ids, hFresh, hSides, _⟩ :=
    sides_of_isolateStart hg.alphabet hIsolate
  have hPlain := plain_stripped hg
  exact layered_splitLong hSplit hFresh.wellFormed
    (hPlain.extend hFresh hSides).known
    (layered_isolateStart hg.alphabet hPlain hIsolate
      (layered_of_acyclic hFree))

end Chain

/-! ## Unit rules -/

section Unit

variable [Zero α] [One α] [Add α] [Sub α] [Neg α] [Mul α] [Div α]
  [OfScientific α] [LT α] [DecidableLT α] [LE α] [DecidableLE α]
  {options : Options α}

/-- The unit rules lead to what is exposed, those that lack an erasable symbol
included. -/
theorem exposes_of_mem_withShortened {r : Rule α} {y : SymbolId}
    (hr : r ∈ withShortened (.fit options rules) rules) (hRhs : r.rhs = [y]) :
    Exposes rules r.lhs y := by
  rcases List.mem_append.1 hr with hr | hr
  · exact ⟨r, List.mem_of_mem_filter hr, rfl, [], [], hRhs, by simp⟩
  · obtain ⟨t, ht, hShortened⟩ := List.mem_flatMap.1 hr
    obtain ⟨x, z, p, hPair, hKnown, rfl⟩ := exists_of_mem_shortened hShortened
    obtain rfl : z = y := (List.cons.inj hRhs).1
    have hx := mem_erasables_of_eq_some hKnown
    refine ⟨t, List.mem_of_mem_filter ht, rfl, ?_⟩
    rcases hPair with hPair | hPair
    · exact ⟨[x], [], hPair, by simpa using hx⟩
    · exact ⟨[], [x], hPair, by simpa using hx⟩

end Unit

end StochasticGrammar.NormalForm
