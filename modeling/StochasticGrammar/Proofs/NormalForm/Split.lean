import StochasticGrammar.NormalForm.Split
import StochasticGrammar.Proofs.Alphabet.WellFormed
import StochasticGrammar.Proofs.Except
import StochasticGrammar.Proofs.Weight.Basic

/-!
# Weights when long rules are split

A rule may hand the rest of its right side over to a symbol that occurs nowhere
else and has one rule, with the rest as its right side.  This changes the
weights of no other symbol (`total_handOver`).  The chain of a long rule does so
again and again, with symbols that are fresh for the alphabet.  So whatever is
not changed by handing over and by the order of the rules is not changed by
splitting (`Respects.splitLong`).

The weight of the rule of the fresh symbol has to leave other weights as they
are when it is multiplied to them, as one does; it need not be one.

Main results: `Respects.splitLong`, `total_splitLong`.
-/

namespace StochasticGrammar.NormalForm

open Weighting
open scoped ENNReal

/-! ## Handing over the rest of a right side -/

section HandOver

variable {isTerminal : SymbolId → Bool} {rules : List (Rule ℝ≥0∞)}
  {lhs first id : SymbolId} {rest : List SymbolId} {p u : ℝ≥0∞}

/-- No side of a rule has the symbol. -/
def Avoids {β : Type} (id : SymbolId) (r : Rule β) : Prop :=
  r.lhs ≠ id ∧ id ∉ r.rhs

/-- Symbols other than the new one are avoided as before. -/
theorem Avoids.handOver {β : Type} {p u : β} {x : SymbolId}
    (h : Avoids x ⟨lhs, first :: rest, p⟩) (hNe : id ≠ x) :
    Avoids x ⟨lhs, [first, id], p⟩ ∧ Avoids x ⟨id, rest, u⟩ := by
  obtain ⟨hLhs, hRhs⟩ := h
  refine ⟨⟨hLhs, fun hMem => ?_⟩, hNe, fun hMem =>
    hRhs (List.mem_cons_of_mem _ hMem)⟩
  rcases List.mem_cons.1 hMem with rfl | hMem
  · exact hRhs (by simp)
  · exact hNe (List.mem_singleton.1 hMem).symm

/-- So what is fresh for a long rule is fresh for the two that replace it. -/
theorem avoids_handOver {β : Type} {rules : List (Rule β)} {p u : β}
    {ids : List SymbolId} (hNot : id ∉ ids)
    (h : ∀ x ∈ ids, ∀ r ∈ ⟨lhs, first :: rest, p⟩ :: rules, Avoids x r) :
    ∀ x ∈ ids, ∀ r ∈ ⟨id, rest, u⟩ :: ⟨lhs, [first, id], p⟩ :: rules,
      Avoids x r := by
  intro x hx r hr
  have hNe : id ≠ x := fun hEq => hNot (hEq ▸ hx)
  have hBoth := (h x hx ⟨lhs, first :: rest, p⟩ (by simp)).handOver (u := u) hNe
  simp only [List.mem_cons] at hr
  rcases hr with rfl | rfl | hr
  · exact hBoth.2
  · exact hBoth.1
  · exact h x hx r (by simp [hr])

/-- What the two rules make of a weighting that gives the symbol the rest of
the right side. -/
theorem expand_handOver {h : Weighting} (hp : p * u = p)
    (hId : h id = fun w => u * row h rest w) {a : SymbolId} (ha : a ≠ id)
    (w : List SymbolId) :
    expand (⟨lhs, [first, id], p⟩ :: ⟨id, rest, u⟩ :: rules) h a w =
      expand (⟨lhs, first :: rest, p⟩ :: rules) h a w := by
  have hSecond : ruleWeight h a w ⟨id, rest, u⟩ = 0 :=
    ruleWeight_of_ne (Ne.symm ha)
  have hFirst : ruleWeight h a w ⟨lhs, [first, id], p⟩ =
      ruleWeight h a w ⟨lhs, first :: rest, p⟩ := by
    unfold ruleWeight
    by_cases hLhs : lhs = a
    · show (if lhs = a then p * row h [first, id] w else 0) =
        if lhs = a then p * row h (first :: rest) w else 0
      rw [if_pos hLhs, if_pos hLhs, row_pair, hId, splice_comm_mul, ← mul_assoc,
        hp, row]
    · exact (if_neg hLhs).trans (if_neg hLhs).symm
  rw [expand_cons, expand_cons, expand_cons, hSecond, zero_add, hFirst]

/-- The symbol has the weight of its only rule. -/
theorem expand_handOver_self (h : Weighting) (hLhs : lhs ≠ id)
    (hRules : ∀ r ∈ rules, Avoids id r) (w : List SymbolId) :
    expand (⟨lhs, [first, id], p⟩ :: ⟨id, rest, u⟩ :: rules) h id w =
      u * row h rest w := by
  have hNone : expand rules h id w = 0 :=
    expand_eq_zero fun r hr hEq => absurd hEq (hRules r hr).1
  have hFirst : ruleWeight h id w ⟨lhs, [first, id], p⟩ = 0 :=
    ruleWeight_of_ne hLhs
  rw [expand_cons, expand_cons, hFirst, hNone, zero_add, add_zero]
  exact if_pos rfl

/-- The old weights, with those of the rest of the right side for the new
symbol, solve the new equations. -/
theorem total_handOver_le (hp : p * u = p) (hTerminal : isTerminal id = false)
    (hRule : Avoids id ⟨lhs, first :: rest, p⟩)
    (hRules : ∀ r ∈ rules, Avoids id r) {a : SymbolId} (ha : a ≠ id) :
    total isTerminal (⟨lhs, [first, id], p⟩ :: ⟨id, rest, u⟩ :: rules) a ≤
      total isTerminal (⟨lhs, first :: rest, p⟩ :: rules) a := by
  obtain ⟨hLhs, hRhs⟩ := hRule
  have hLhs : lhs ≠ id := hLhs
  have hRhs : id ∉ first :: rest := hRhs
  let old := totals isTerminal (⟨lhs, first :: rest, p⟩ :: rules)
  let f : Weighting := fun x w =>
    if x = id then u * row old rest w
    else total isTerminal (⟨lhs, first :: rest, p⟩ :: rules) x w
  have hOther : ∀ x, x ≠ id → withLeaves isTerminal f x = old x := by
    intro x hx
    simp [old, totals, withLeaves, f, hx]
  have hRow : ∀ rhs, id ∉ rhs →
      row (withLeaves isTerminal f) rhs = row old rhs :=
    fun rhs hNot => row_congr fun x hx =>
      hOther x fun h => hNot (h ▸ hx)
  have hId : withLeaves isTerminal f id =
      fun w => u * row (withLeaves isTerminal f) rest w := by
    funext w
    rw [withLeaves_nonterminal hTerminal,
      hRow rest fun h => hRhs (List.mem_cons_of_mem _ h)]
    exact if_pos rfl
  have hLe : total isTerminal
      (⟨lhs, [first, id], p⟩ :: ⟨id, rest, u⟩ :: rules) ≤ f := by
    refine total_le fun x w => ?_
    by_cases hx : x = id
    · rw [hx, expand_handOver_self _ hLhs hRules,
        ← withLeaves_nonterminal hTerminal f, hId]
    · have hFx : f x w =
          total isTerminal (⟨lhs, first :: rest, p⟩ :: rules) x w :=
        if_neg hx
      rw [expand_handOver hp hId hx, hFx, ← expand_total]
      refine le_of_eq (expand_congr fun r hr _ => ?_)
      rcases List.mem_cons.1 hr with rfl | hr
      · exact congrFun (hRow _ hRhs) w
      · exact congrFun (hRow _ (hRules r hr).2) w
  intro w
  exact (hLe a w).trans_eq (if_neg ha)

/-- The new weights solve the old equations. -/
theorem le_total_handOver (hp : p * u = p) (hTerminal : isTerminal id = false)
    (hLhs : lhs ≠ id) (hRules : ∀ r ∈ rules, Avoids id r) :
    total isTerminal (⟨lhs, first :: rest, p⟩ :: rules) ≤
      total isTerminal
        (⟨lhs, [first, id], p⟩ :: ⟨id, rest, u⟩ :: rules) := by
  let new := totals isTerminal
    (⟨lhs, [first, id], p⟩ :: ⟨id, rest, u⟩ :: rules)
  have hTotal := expand_total isTerminal
    (⟨lhs, [first, id], p⟩ :: ⟨id, rest, u⟩ :: rules)
  have hId : new id = fun w => u * row new rest w := by
    funext w
    rw [← expand_handOver_self new hLhs hRules, hTotal]
    exact congrFun (withLeaves_nonterminal hTerminal _) w
  refine total_le fun x w => ?_
  by_cases hx : x = id
  · refine le_trans (le_of_eq (expand_eq_zero fun r hr hEq => ?_)) zero_le
    rcases List.mem_cons.1 hr with rfl | hr
    · exact absurd (hEq.trans hx) hLhs
    · exact absurd (hEq.trans hx) (hRules r hr).1
  · calc expand (⟨lhs, first :: rest, p⟩ :: rules) new x w
        = expand (⟨lhs, [first, id], p⟩ :: ⟨id, rest, u⟩ :: rules) new
            x w := (expand_handOver hp hId hx w).symm
      _ ≤ total isTerminal
            (⟨lhs, [first, id], p⟩ :: ⟨id, rest, u⟩ :: rules) x w :=
          le_of_eq (congrFun (congrFun hTotal x) w)

/-- Handing over the rest of a right side changes the weights of no other
symbol. -/
theorem total_handOver (hp : p * u = p) (hTerminal : isTerminal id = false)
    (hRule : Avoids id ⟨lhs, first :: rest, p⟩)
    (hRules : ∀ r ∈ rules, Avoids id r) {a : SymbolId} (ha : a ≠ id) :
    total isTerminal (⟨lhs, [first, id], p⟩ :: ⟨id, rest, u⟩ :: rules) a =
      total isTerminal (⟨lhs, first :: rest, p⟩ :: rules) a :=
  le_antisymm (total_handOver_le hp hTerminal hRule hRules ha)
    (le_total_handOver hp hTerminal hRule.1 hRules a)

end HandOver

/-! ## Chains -/

section Chain

variable {α : Type} [One α]

/-- The symbols of a chain are those of the rule and the fresh ones. -/
theorem sides_of_mem_chain {lhs : SymbolId} {p : α}
    {rhs ids : List SymbolId} {r : Rule α} (hr : r ∈ chain lhs p rhs ids) :
    (r.lhs = lhs ∨ r.lhs ∈ ids) ∧ ∀ x ∈ r.rhs, x ∈ rhs ∨ x ∈ ids := by
  induction rhs generalizing lhs p ids with
  | nil =>
      simp only [chain, List.mem_singleton] at hr
      simp [hr]
  | cons first rest ih =>
      cases ids with
      | nil =>
          simp only [chain, List.mem_singleton] at hr
          simp [hr]
      | cons id ids =>
          simp only [chain, List.mem_cons] at hr
          rcases hr with rfl | hr
          · simp
          · obtain ⟨hLhs, hRhs⟩ := ih hr
            refine ⟨.inr ?_, fun x hx => ?_⟩
            · rcases hLhs with hLhs | hLhs
              · simp [hLhs]
              · simp [hLhs]
            · rcases hRhs x hx with hRest | hIds
              · simp [hRest]
              · simp [hIds]

/-- The rules of a chain have the probability of the rule or one. -/
theorem good_of_mem_chain {good : α → Prop} (hOne : good 1)
    {lhs : SymbolId} {p : α} {rhs ids : List SymbolId} (hp : good p)
    {r : Rule α} (hr : r ∈ chain lhs p rhs ids) : good r.probability := by
  induction rhs generalizing lhs p ids with
  | nil =>
      rw [List.mem_singleton.1 hr]
      exact hp
  | cons first rest ih =>
      cases ids with
      | nil =>
          rw [List.mem_singleton.1 hr]
          exact hp
      | cons id ids =>
          rcases List.mem_cons.1 hr with rfl | hr
          · exact hp
          · exact ih hOne hr

/-- From the view of a symbol, rules may be put into another order, and the
rest of a right side may be handed over to a symbol that has no other rule, with
the number one. -/
structure Respects (isTerminal : SymbolId → Bool) (good : α → Prop)
    (same : SymbolId → List (Rule α) → List (Rule α) → Prop) : Prop where
  trans : ∀ {a : SymbolId} {rules rules' rules'' : List (Rule α)},
    same a rules rules' → same a rules' rules'' → same a rules rules''
  perm : ∀ {a : SymbolId} {rules rules' : List (Rule α)},
    rules.Perm rules' → same a rules rules'
  handOver : ∀ {a lhs first id : SymbolId} {rest : List SymbolId} {p : α}
    {rules : List (Rule α)}, good p → isTerminal id = false →
    Avoids id ⟨lhs, first :: rest, p⟩ → (∀ r ∈ rules, Avoids id r) → a ≠ id →
      same a (⟨lhs, [first, id], p⟩ :: ⟨id, rest, 1⟩ :: rules)
        (⟨lhs, first :: rest, p⟩ :: rules)

variable {isTerminal : SymbolId → Bool} {good : α → Prop}
  {same : SymbolId → List (Rule α) → List (Rule α) → Prop}

/-- So a chain over fresh symbols may take the place of its rule. -/
theorem Respects.chain (hSame : Respects isTerminal good same) (hOne : good 1)
    (rhs : List SymbolId) :
    ∀ (ids : List SymbolId) (lhs : SymbolId) (p : α) (rules : List (Rule α)),
      good p → ids.Nodup → (∀ id ∈ ids, isTerminal id = false) →
      (∀ id ∈ ids, ∀ r ∈ (⟨lhs, rhs, p⟩ : Rule α) :: rules, Avoids id r) →
      ∀ a ∉ ids,
        same a (chain lhs p rhs ids ++ rules) (⟨lhs, rhs, p⟩ :: rules) := by
  induction rhs with
  | nil =>
      intro ids lhs p rules _ _ _ _ a _
      exact hSame.perm (.refl _)
  | cons first rest ih =>
      intro ids lhs p rules hp hNodup hTerminal hAvoids a ha
      cases ids with
      | nil => exact hSame.perm (.refl _)
      | cons id ids =>
          obtain ⟨hNot, hNodup⟩ := List.nodup_cons.1 hNodup
          obtain ⟨haId, haIds⟩ := List.ne_and_not_mem_of_not_mem_cons ha
          have hHead := hAvoids id (by simp)
          have hRest := avoids_handOver (u := 1) hNot fun x hx =>
            hAvoids x (by simp [hx])
          -- the rest of the chain first, with the rule that leads to it kept
          have hTail := ih ids id 1 (⟨lhs, [first, id], p⟩ :: rules) hOne
            hNodup (fun x hx => hTerminal x (by simp [hx])) hRest a haIds
          have hMiddle : (NormalForm.chain lhs p (first :: rest) (id :: ids) ++
              rules).Perm (NormalForm.chain id 1 rest ids ++
                ⟨lhs, [first, id], p⟩ :: rules) :=
            List.perm_middle.symm
          refine hSame.trans (hSame.perm hMiddle) (hSame.trans hTail ?_)
          exact hSame.trans (hSame.perm (List.Perm.swap _ _ _))
            (hSame.handOver hp (hTerminal id (by simp)) (hHead _ (by simp))
              (fun r hr => hHead r (by simp [hr])) haId)

end Chain

/-! ## Splitting over an alphabet -/

/-- All symbols of a rule are in the alphabet. -/
def Over {β : Type} (al : Alphabet) (r : Rule β) : Prop :=
  ∀ id ∈ r.lhs :: r.rhs, al.hasId id = true

theorem Over.avoids {β : Type} {al : Alphabet} {r : Rule β} (h : Over al r)
    {id : SymbolId} (hId : al.hasId id = false) : Avoids id r := by
  have hNe : ∀ x ∈ r.lhs :: r.rhs, x ≠ id := by
    rintro x hx rfl
    rw [h x hx] at hId
    simp at hId
  exact ⟨hNe _ (by simp), fun hMem => hNe id (by simp [hMem]) rfl⟩

theorem Over.mono {β : Type} {al extended : Alphabet} {ids : List SymbolId}
    (hFresh : al.Freshens extended ids) {r : Rule β} (h : Over al r) :
    Over extended r :=
  fun x hx => hFresh.hasId_mono (h x hx)

/-- Rules over an alphabet that expand nonterminals and do without the empty
string symbol. -/
structure Plain {β : Type} (al : Alphabet) (rules : List (Rule β)) : Prop where
  known : ∀ r ∈ rules, Over al r
  head : ∀ r ∈ rules, al.isTerminal r.lhs = false
  noEmpty : ∀ r ∈ rules, emptyId ∉ r.rhs

/-- New rules have their symbols from old ones, or they are fresh. -/
def SidesFrom {β : Type} (ids : List SymbolId) (rules new : List (Rule β)) :
    Prop :=
  ∀ r ∈ new, (r.lhs ∈ ids ∨ ∃ s ∈ rules, r.lhs = s.lhs) ∧
    ∀ x ∈ r.rhs, x ∈ ids ∨ ∃ s ∈ rules, x ∈ s.rhs

theorem Plain.extend {β : Type} {al extended : Alphabet} {ids : List SymbolId}
    {rules new : List (Rule β)} (hFresh : al.Freshens extended ids)
    (hPlain : Plain al rules) (hSides : SidesFrom ids rules new) :
    Plain extended new := by
  have hOld : ∀ r ∈ rules, Over extended r :=
    fun r hr => (hPlain.known r hr).mono hFresh
  constructor
  · intro r hr x hx
    rcases List.mem_cons.1 hx with rfl | hx
    · rcases (hSides r hr).1 with hId | ⟨s, hs, hLhs⟩
      · exact hFresh.hasId _ hId
      · exact hOld s hs _ (by simp [hLhs])
    · rcases (hSides r hr).2 x hx with hId | ⟨s, hs, hMem⟩
      · exact hFresh.hasId x hId
      · exact hOld s hs x (by simp [hMem])
  · intro r hr
    rcases (hSides r hr).1 with hId | ⟨s, hs, hLhs⟩
    · exact hFresh.not_isTerminal _ hId
    · rw [hLhs, hFresh.isTerminal_eq]
      exact hPlain.head s hs
  · intro r hr hMem
    rcases (hSides r hr).2 _ hMem with hId | ⟨s, hs, hMem⟩
    · have hNot := hFresh.not_isTerminal _ hId
      rw [hFresh.wellFormed.isTerminal_emptyId] at hNot
      simp at hNot
    · exact hPlain.noEmpty s hs hMem

theorem freshens_addFresh {base : String} {n : Nat} :
    ∀ {al extended : Alphabet} {ids : List SymbolId}, al.WellFormed →
      addFresh base n al = .ok (ids, extended) →
      al.Freshens extended ids ∧ ids.length = n := by
  induction n with
  | zero =>
      intro al extended ids hal h
      cases h
      exact ⟨.refl hal, rfl⟩
  | succ n ih =>
      intro al extended ids hal h
      obtain ⟨⟨id, mid⟩, hAdd, h⟩ := bind_eq_ok.1 h
      obtain ⟨⟨rest, last⟩, hRest, h⟩ := bind_eq_ok.1 h
      cases h
      have hOne := Alphabet.freshens_add hal hAdd
      obtain ⟨hMore, hLength⟩ := ih hOne.wellFormed hRest
      exact ⟨hOne.append hMore, by rw [List.length_cons, hLength]⟩

section SplitRules

variable {α : Type} [One α] {al extended : Alphabet}

theorem splitRule_eq_ok {r : Rule α} {rules : List (Rule α)}
    (hal : al.WellFormed) (h : splitRule al r = .ok (extended, rules)) :
    ∃ ids, al.Freshens extended ids ∧ ids.length = r.rhs.length - 2 ∧
      rules = chain r.lhs r.probability r.rhs ids := by
  obtain ⟨base, _, h⟩ := bind_eq_ok.1 h
  obtain ⟨⟨ids, last⟩, hFresh, h⟩ := bind_eq_ok.1 h
  cases h
  obtain ⟨hFreshens, hLength⟩ := freshens_addFresh hal hFresh
  exact ⟨ids, hFreshens, hLength, rfl⟩

/-- The rules of the chains are short, and their symbols are those of the rules
that were split and fresh ones. -/
theorem sides_of_splitRules {long : List (Rule α)} :
    ∀ {al extended : Alphabet} {chains : List (Rule α)}, al.WellFormed →
      splitRules al long = .ok (extended, chains) →
      ∃ ids, al.Freshens extended ids ∧ SidesFrom ids long chains ∧
        ∀ r ∈ chains, r.rhs.length ≤ 2 := by
  induction long with
  | nil =>
      intro al extended chains hal h
      cases h
      exact ⟨[], .refl hal, by simp [SidesFrom], by simp⟩
  | cons s long ih =>
      intro al extended chains hal h
      obtain ⟨⟨mid, first⟩, hFirst, h⟩ := bind_eq_ok.1 h
      obtain ⟨⟨last, rest⟩, hRest, h⟩ := bind_eq_ok.1 h
      cases h
      obtain ⟨ids, hFresh, hLength, rfl⟩ := splitRule_eq_ok hal hFirst
      obtain ⟨more, hMore, hSides, hShort⟩ := ih hFresh.wellFormed hRest
      refine ⟨ids ++ more, hFresh.append hMore, fun r hr => ?_, fun r hr => ?_⟩
      · rcases List.mem_append.1 hr with hr | hr
        · obtain ⟨hLhs, hRhs⟩ := sides_of_mem_chain hr
          constructor
          · rcases hLhs with hLhs | hLhs
            · exact .inr ⟨s, by simp, hLhs⟩
            · exact .inl (by simp [hLhs])
          · intro x hx
            rcases hRhs x hx with hOld | hNew
            · exact .inr ⟨s, by simp, hOld⟩
            · exact .inl (by simp [hNew])
        · obtain ⟨hLhs, hRhs⟩ := hSides r hr
          constructor
          · rcases hLhs with hLhs | ⟨t, ht, hLhs⟩
            · exact .inl (by simp [hLhs])
            · exact .inr ⟨t, by simp [ht], hLhs⟩
          · intro x hx
            rcases hRhs x hx with hNew | ⟨t, ht, hOld⟩
            · exact .inl (by simp [hNew])
            · exact .inr ⟨t, by simp [ht], hOld⟩
      · rcases List.mem_append.1 hr with hr | hr
        · exact length_le_of_mem_chain (by omega) hr
        · exact hShort r hr

theorem good_of_mem_splitRules {good : α → Prop} (hOne : good 1)
    {long : List (Rule α)} :
    ∀ {al extended : Alphabet} {chains : List (Rule α)},
      splitRules al long = .ok (extended, chains) →
      (∀ r ∈ long, good r.probability) →
      ∀ r ∈ chains, good r.probability := by
  induction long with
  | nil =>
      intro al extended chains h _
      cases h
      simp
  | cons s long ih =>
      intro al extended chains h hLong r hr
      obtain ⟨⟨mid, first⟩, hFirst, h⟩ := bind_eq_ok.1 h
      obtain ⟨⟨last, rest⟩, hRest, h⟩ := bind_eq_ok.1 h
      cases h
      rcases List.mem_append.1 hr with hr | hr
      · obtain ⟨base, _, hFirst⟩ := bind_eq_ok.1 hFirst
        obtain ⟨⟨ids, _⟩, _, hFirst⟩ := bind_eq_ok.1 hFirst
        cases hFirst
        exact good_of_mem_chain hOne (hLong s (by simp)) hr
      · exact ih hRest (fun t ht => hLong t (by simp [ht])) r hr

/-- A chain is over the alphabet that its fresh symbols extend. -/
theorem over_of_mem_chain {ids : List SymbolId}
    (hFresh : al.Freshens extended ids) {s : Rule α} (hs : Over al s)
    {r : Rule α} (hr : r ∈ chain s.lhs s.probability s.rhs ids) :
    Over extended r := by
  obtain ⟨hLhs, hRhs⟩ := sides_of_mem_chain hr
  have hs := hs.mono hFresh
  intro x hx
  rcases List.mem_cons.1 hx with rfl | hx
  · rcases hLhs with hLhs | hLhs
    · exact hLhs ▸ hs _ (by simp)
    · exact hFresh.hasId _ hLhs
  · rcases hRhs x hx with hOld | hNew
    · exact hs x (by simp [hOld])
    · exact hFresh.hasId x hNew

section Respects

variable {good : α → Prop}
  {same : SymbolId → List (Rule α) → List (Rule α) → Prop}

/-- The chain of one rule may take its place, whatever other rules there
are. -/
theorem Respects.splitRule (hSame : Respects al.isTerminal good same)
    (hOne : good 1) {ids : List SymbolId} (hFresh : al.Freshens extended ids)
    {s : Rule α} (hs : Over al s) (hp : good s.probability)
    {rules : List (Rule α)} (hRules : ∀ r ∈ rules, Over al r) {a : SymbolId}
    (ha : al.hasId a = true) :
    same a (NormalForm.chain s.lhs s.probability s.rhs ids ++ rules)
      (s :: rules) := by
  have hNot : ∀ id ∈ ids, al.hasId id = false := hFresh.not_hasId
  refine hSame.chain hOne s.rhs ids s.lhs s.probability rules hp hFresh.nodup
    (fun id hId => hFresh.isTerminal_eq ▸ hFresh.not_isTerminal id hId)
    (fun id hId r hr => ?_) a fun hMem => ?_
  · rcases List.mem_cons.1 hr with rfl | hr
    · exact hs.avoids (hNot id hId)
    · exact (hRules r hr).avoids (hNot id hId)
  · rw [hNot a hMem] at ha
    simp at ha

/-- The chains of long rules may take their places. -/
theorem Respects.splitRules (hOne : good 1) {long : List (Rule α)} :
    ∀ {al extended : Alphabet} {chains : List (Rule α)}
      (rules : List (Rule α)), Respects al.isTerminal good same →
      al.WellFormed → NormalForm.splitRules al long = .ok (extended, chains) →
      (∀ r ∈ long, good r.probability) →
      (∀ r ∈ long, Over al r) → (∀ r ∈ rules, Over al r) →
      ∀ a, al.hasId a = true → same a (chains ++ rules) (long ++ rules) := by
  induction long with
  | nil =>
      intro al extended chains rules hSame _ h _ _ _ a _
      cases h
      exact hSame.perm (.refl _)
  | cons s long ih =>
      intro al extended chains rules hSame hal h hp hLong hRules a ha
      obtain ⟨⟨mid, first⟩, hFirst, h⟩ := bind_eq_ok.1 h
      obtain ⟨⟨last, rest⟩, hRest, h⟩ := bind_eq_ok.1 h
      cases h
      obtain ⟨ids, hFresh, _, rfl⟩ := splitRule_eq_ok hal hFirst
      have hs : Over al s := hLong s (by simp)
      have hLong : ∀ r ∈ long, Over al r := fun r hr => hLong r (by simp [hr])
      -- first the other rules are split, with the chain of this one kept
      have hTail := ih (NormalForm.chain s.lhs s.probability s.rhs ids ++ rules)
        (hFresh.isTerminal_eq ▸ hSame) hFresh.wellFormed hRest
        (fun r hr => hp r (by simp [hr]))
        (fun r hr => (hLong r hr).mono hFresh)
        (fun r hr => (List.mem_append.1 hr).elim
          (over_of_mem_chain hFresh hs) fun hr => (hRules r hr).mono hFresh)
        a (hFresh.hasId_mono ha)
      have hOthers : ∀ r ∈ long ++ rules, Over al r := fun r hr =>
        (List.mem_append.1 hr).elim (hLong r) (hRules r)
      have hHead := hSame.splitRule hOne hFresh hs (hp s (by simp)) hOthers ha
      rw [List.append_assoc]
      refine hSame.trans (hSame.perm (List.perm_append_comm_assoc _ _ _))
        (hSame.trans hTail ?_)
      exact hSame.trans (hSame.perm (List.perm_append_comm_assoc _ _ _)) hHead

/-- Splitting the long rules may be undone, from the view of a symbol that was
there. -/
theorem Respects.splitLong {s t : Stage α}
    (hSame : Respects s.alphabet.isTerminal good same) (hOne : good 1)
    (h : splitLong s = .ok t) (hal : s.alphabet.WellFormed)
    (hp : ∀ r ∈ s.rules, good r.probability)
    (hOver : ∀ r ∈ s.rules, Over s.alphabet r) {a : SymbolId}
    (ha : s.alphabet.hasId a = true) : same a t.rules s.rules := by
  obtain ⟨⟨al, chains⟩, hChains, h⟩ := bind_eq_ok.1 h
  cases h
  have hSplit := Respects.splitRules hOne (s.rules.filter (!isLong ·)) hSame hal
    hChains (fun r hr => hp r (List.mem_of_mem_filter hr))
    (fun r hr => hOver r (List.mem_of_mem_filter hr))
    (fun r hr => hOver r (List.mem_of_mem_filter hr)) a ha
  exact hSame.trans (hSame.perm List.perm_append_comm)
    (hSame.trans hSplit (hSame.perm (List.filter_append_perm isLong s.rules)))

end Respects

variable {s : Stage α}

/-- After splitting the rules are short, with symbols that were there or are
fresh. -/
theorem sides_of_splitLong {t : Stage α} (h : splitLong s = .ok t)
    (hal : s.alphabet.WellFormed) :
    ∃ ids, s.alphabet.Freshens t.alphabet ids ∧
      SidesFrom ids s.rules t.rules ∧ ∀ r ∈ t.rules, r.rhs.length ≤ 2 := by
  obtain ⟨⟨al, chains⟩, hChains, h⟩ := bind_eq_ok.1 h
  cases h
  obtain ⟨ids, hFresh, hSides, hShort⟩ := sides_of_splitRules hal hChains
  refine ⟨ids, hFresh, fun r hr => ?_, fun r hr => ?_⟩
  · rcases List.mem_append.1 hr with hr | hr
    · have hOld : r ∈ s.rules := List.mem_of_mem_filter hr
      exact ⟨.inr ⟨r, hOld, rfl⟩, fun x hx => .inr ⟨r, hOld, hx⟩⟩
    · obtain ⟨hLhs, hRhs⟩ := hSides r hr
      constructor
      · rcases hLhs with hId | ⟨t, ht, hLhs⟩
        · exact .inl hId
        · exact .inr ⟨t, List.mem_of_mem_filter ht, hLhs⟩
      · intro x hx
        rcases hRhs x hx with hId | ⟨t, ht, hMem⟩
        · exact .inl hId
        · exact .inr ⟨t, List.mem_of_mem_filter ht, hMem⟩
  · rcases List.mem_append.1 hr with hr | hr
    · have hNotLong := (List.mem_filter.1 hr).2
      simp only [isLong, Bool.not_eq_true', decide_eq_false_iff_not]
        at hNotLong
      omega
    · exact hShort r hr

/-- Splitting the long rules keeps the numbers good. -/
theorem good_of_mem_splitLong {good : α → Prop} {t : Stage α}
    (h : splitLong s = .ok t) (hOne : good 1)
    (hGood : ∀ r ∈ s.rules, good r.probability) :
    ∀ r ∈ t.rules, good r.probability := by
  obtain ⟨⟨al, chains⟩, hSplit, h⟩ := bind_eq_ok.1 h
  cases h
  intro r hr
  rcases List.mem_append.1 hr with hr | hr
  · exact hGood r (List.mem_of_mem_filter hr)
  · exact good_of_mem_splitRules hOne hSplit
      (fun u hu => hGood u (List.mem_of_mem_filter hu)) r hr

/-- Total weights do not see these changes. -/
theorem respects_total {φ : α → ℝ≥0∞} (isTerminal : SymbolId → Bool) :
    Respects isTerminal (fun p => φ p * φ 1 = φ p) fun a rules rules' =>
      total isTerminal (valued φ rules) a =
        total isTerminal (valued φ rules') a where
  trans := Eq.trans
  perm hPerm := congrFun (total_perm (hPerm.map _)) _
  handOver hp hTerminal hRule hRules ha := by
    refine total_handOver hp hTerminal hRule (fun r hr => ?_) ha
    obtain ⟨t, ht, rfl⟩ := List.mem_map.1 hr
    exact hRules t ht

/-- Splitting the long rules changes the weights of no symbol that was
there. -/
theorem total_splitLong {φ : α → ℝ≥0∞} (hOne : φ 1 * φ 1 = φ 1)
    {t : Stage α} (h : splitLong s = .ok t) (hal : s.alphabet.WellFormed)
    (hp : ∀ r ∈ s.rules, φ r.probability * φ 1 = φ r.probability)
    (hOver : ∀ r ∈ s.rules, Over s.alphabet r) {a : SymbolId}
    (ha : s.alphabet.hasId a = true) :
    total s.alphabet.isTerminal (valued φ t.rules) a =
      total s.alphabet.isTerminal (valued φ s.rules) a :=
  (respects_total s.alphabet.isTerminal).splitLong hOne h hal hp hOver ha

end SplitRules

end StochasticGrammar.NormalForm
