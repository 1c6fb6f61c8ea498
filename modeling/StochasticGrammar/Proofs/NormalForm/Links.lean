import StochasticGrammar.Proofs.NormalForm.Split

/-!
# The links of chains

A long rule is split with fresh symbols, and each of them is a link between two
rules: it is the left side of one rule, which has the probability one, and it
stands on the right side of one rule, in one place.  Other rules know nothing of
it, in whatever order long rules are split.

Main results: `links_splitLong`.
-/

namespace StochasticGrammar.NormalForm

variable {α : Type} {al extended : Alphabet} {rules others : List (Rule α)}
  {id : SymbolId}

/-! ## Symbols that a rule avoids -/

theorem filter_eq_nil_of_avoids (h : ∀ r ∈ rules, Avoids id r) :
    rules.filter (·.lhs == id) = [] := by
  rw [List.filter_eq_nil_iff]
  exact fun r hr => by simpa using (h r hr).1

theorem count_eq_zero_of_avoids (h : ∀ r ∈ rules, Avoids id r) :
    (rules.flatMap (·.rhs)).count id = 0 := by
  rw [List.count_eq_zero, List.mem_flatMap]
  rintro ⟨r, hr, hMem⟩
  exact (h r hr).2 hMem

theorem avoids_of_sidesFrom {ids : List SymbolId}
    (hSides : SidesFrom ids rules others) (hNot : id ∉ ids)
    (hRules : ∀ r ∈ rules, Avoids id r) : ∀ r ∈ others, Avoids id r := by
  intro r hr
  obtain ⟨hLhs, hRhs⟩ := hSides r hr
  constructor
  · rintro rfl
    rcases hLhs with hMem | ⟨s, hs, hLhs⟩
    · exact hNot hMem
    · exact (hRules s hs).1 hLhs.symm
  · intro hMem
    rcases hRhs id hMem with hMem | ⟨s, hs, hMem⟩
    · exact hNot hMem
    · exact (hRules s hs).2 hMem

/-- The symbols that are fresh are those that were not there. -/
theorem mem_of_hasId_of_addFresh {base : String} {n : ℕ} :
    ∀ {al extended : Alphabet} {ids : List SymbolId},
      addFresh base n al = .ok (ids, extended) →
      extended.hasId id = true → al.hasId id = false → id ∈ ids := by
  induction n with
  | zero =>
      intro al extended ids h hNew hOld
      cases h
      rw [hOld] at hNew
      cases hNew
  | succ n ih =>
      intro al extended ids h hNew hOld
      obtain ⟨⟨first, mid⟩, hAdd, h⟩ := bind_eq_ok.1 h
      obtain ⟨⟨rest, last⟩, hRest, h⟩ := bind_eq_ok.1 h
      cases h
      cases hMid : mid.hasId id with
      | true => simp [Alphabet.eq_of_hasId_of_add hAdd hMid hOld]
      | false => exact List.mem_cons_of_mem _ (ih hRest hNew hMid)

/-! ## Links -/

variable [One α]

/-- A symbol has a single rule, with the probability one, and stands in a single
place on the right sides. -/
structure Links (id : SymbolId) (rules : List (Rule α)) : Prop where
  rule : ∃ rhs, rules.filter (·.lhs == id) = [⟨id, rhs, 1⟩]
  place : (rules.flatMap (·.rhs)).count id = 1

theorem Links.append (h : Links id rules)
    (hOthers : ∀ r ∈ others, Avoids id r) : Links id (rules ++ others) where
  rule := by
    obtain ⟨rhs, hRule⟩ := h.rule
    refine ⟨rhs, ?_⟩
    rw [List.filter_append, hRule, filter_eq_nil_of_avoids hOthers,
      List.append_nil]
  place := by
    rw [List.flatMap_append, List.count_append, h.place,
      count_eq_zero_of_avoids hOthers]

theorem Links.prepend (h : Links id rules)
    (hOthers : ∀ r ∈ others, Avoids id r) : Links id (others ++ rules) where
  rule := by
    obtain ⟨rhs, hRule⟩ := h.rule
    refine ⟨rhs, ?_⟩
    rw [List.filter_append, hRule, filter_eq_nil_of_avoids hOthers,
      List.nil_append]
  place := by
    rw [List.flatMap_append, List.count_append, h.place,
      count_eq_zero_of_avoids hOthers]

/-! ## Chains -/

/-- The left side of a chain has the first of its rules only. -/
theorem filter_chain {lhs : SymbolId} {p : α} (rhs : List SymbolId)
    {ids : List SymbolId} (hNot : lhs ∉ ids) :
    ∃ rhs', (chain lhs p rhs ids).filter (·.lhs == lhs) = [⟨lhs, rhs', p⟩] := by
  have hSingle : ∀ rhs', ∃ rhs'', [(⟨lhs, rhs', p⟩ : Rule α)].filter
      (·.lhs == lhs) = [⟨lhs, rhs'', p⟩] := fun rhs' => ⟨rhs', by simp⟩
  match rhs, ids with
  | [], _ => exact hSingle _
  | _ :: _, [] => exact hSingle _
  | first :: rest, id :: ids =>
      have hRest : (chain id (1 : α) rest ids).filter (·.lhs == lhs) = [] := by
        rw [List.filter_eq_nil_iff]
        intro r hr hEq
        have hLhs : r.lhs = lhs := by simpa using hEq
        have hIn : r.lhs ∈ id :: ids :=
          List.mem_cons.2 (sides_of_mem_chain hr).1
        exact hNot (hLhs ▸ hIn)
      refine ⟨[first, id], ?_⟩
      rw [chain, List.filter_cons_of_pos (by simp), hRest]

/-- The first fresh symbol links the first rule of a chain to the second one. -/
theorem links_chain_cons {lhs first : SymbolId} {p : α}
    {rest ids : List SymbolId} (hNot : id ∉ ids)
    (hAvoids : Avoids id (⟨lhs, first :: rest, p⟩ : Rule α)) :
    Links id (chain lhs p (first :: rest) (id :: ids)) := by
  obtain ⟨hLhs, hRhs⟩ := hAvoids
  obtain ⟨hNe, hNotRest⟩ := List.ne_and_not_mem_of_not_mem_cons hRhs
  have hLhs : lhs ≠ id := hLhs
  have hNone : ((chain id (1 : α) rest ids).flatMap (·.rhs)).count id = 0 := by
    rw [List.count_eq_zero, List.mem_flatMap]
    rintro ⟨r, hr, hMem⟩
    exact ((sides_of_mem_chain hr).2 id hMem).elim hNotRest hNot
  constructor
  · obtain ⟨rhs, hRule⟩ := filter_chain (p := (1 : α)) rest hNot
    refine ⟨rhs, ?_⟩
    rw [chain, List.filter_cons_of_neg (by simpa using hLhs), hRule]
  · rw [chain, List.flatMap_cons, List.count_append, hNone]
    simp [hNe.symm]

/-- The fresh symbols of a chain link its rules. -/
theorem links_chain (rhs : List SymbolId) :
    ∀ {lhs : SymbolId} {p : α} {ids : List SymbolId},
      ids.length ≤ rhs.length → ids.Nodup →
      (∀ id ∈ ids, Avoids id (⟨lhs, rhs, p⟩ : Rule α)) →
      ∀ id ∈ ids, Links id (chain lhs p rhs ids) := by
  induction rhs with
  | nil =>
      intro lhs p ids hLength _ _ id hId
      rw [List.length_nil, Nat.le_zero, List.length_eq_zero_iff] at hLength
      rw [hLength] at hId
      cases hId
  | cons first rest ih =>
      intro lhs p ids hLength hNodup hAvoids x hx
      cases ids with
      | nil => cases hx
      | cons id ids =>
          obtain ⟨hNot, hNodup⟩ := List.nodup_cons.1 hNodup
          have hBoth : ∀ y ∈ ids, Avoids y (⟨lhs, [first, id], p⟩ : Rule α) ∧
              Avoids y (⟨id, rest, 1⟩ : Rule α) := fun y hy =>
            (hAvoids y (by simp [hy])).handOver fun hEq => hNot (hEq ▸ hy)
          rcases List.mem_cons.1 hx with rfl | hx
          · exact links_chain_cons hNot (hAvoids x (by simp))
          · have hTail := ih (by simpa using hLength) hNodup
              (fun y hy => (hBoth y hy).2) x hx
            rw [chain]
            exact Links.prepend hTail (List.forall_mem_singleton.2 (hBoth x hx).1)

/-! ## Splitting -/

/-- The fresh symbols of the long rules link the rules of their chains. -/
theorem links_splitRules {long : List (Rule α)} :
    ∀ {al extended : Alphabet} {chains : List (Rule α)}, al.WellFormed →
      splitRules al long = .ok (extended, chains) →
      (∀ r ∈ long, Over al r) →
      extended.hasId id = true → al.hasId id = false → Links id chains := by
  induction long with
  | nil =>
      intro al extended chains _ h _ hNew hOld
      cases h
      rw [hOld] at hNew
      cases hNew
  | cons s long ih =>
      intro al extended chains hal h hLong hNew hOld
      obtain ⟨⟨mid, first⟩, hFirst, h⟩ := bind_eq_ok.1 h
      obtain ⟨⟨last, rest⟩, hRest, h⟩ := bind_eq_ok.1 h
      cases h
      have hs : Over al s := hLong s (by simp)
      have hLong : ∀ r ∈ long, Over al r := fun r hr => hLong r (by simp [hr])
      obtain ⟨base, _, hFirst⟩ := bind_eq_ok.1 hFirst
      obtain ⟨⟨ids, _⟩, hAdd, hFirst⟩ := bind_eq_ok.1 hFirst
      cases hFirst
      obtain ⟨hFresh, hLength⟩ := freshens_addFresh hal hAdd
      cases hMid : mid.hasId id with
      | true =>
          have hMem := mem_of_hasId_of_addFresh hAdd hMid hOld
          obtain ⟨more, hMore, hSides, _⟩ :=
            sides_of_splitRules hFresh.wellFormed hRest
          refine Links.append (links_chain s.rhs (by omega) hFresh.nodup
            (fun x hx => hs.avoids (hFresh.not_hasId x hx)) id hMem) ?_
          refine avoids_of_sidesFrom hSides (fun hMem => ?_)
            fun r hr => (hLong r hr).avoids hOld
          rw [hMore.not_hasId id hMem] at hMid
          cases hMid
      | false =>
          refine Links.prepend (ih hFresh.wellFormed hRest
            (fun r hr => (hLong r hr).mono hFresh) hNew hMid) fun r hr => ?_
          exact (over_of_mem_chain hFresh hs hr).avoids hMid

/-- Every symbol that splitting has added is a link. -/
theorem links_splitLong {s t : Stage α} (h : splitLong s = .ok t)
    (hal : s.alphabet.WellFormed) (hOver : ∀ r ∈ s.rules, Over s.alphabet r)
    (hNew : t.alphabet.hasId id = true) (hOld : s.alphabet.hasId id = false) :
    Links id t.rules := by
  obtain ⟨⟨al, chains⟩, hChains, h⟩ := bind_eq_ok.1 h
  cases h
  refine Links.prepend (links_splitRules hal hChains
    (fun r hr => hOver r (List.mem_of_mem_filter hr)) hNew hOld) fun r hr => ?_
  exact (hOver r (List.mem_of_mem_filter hr)).avoids hOld

end StochasticGrammar.NormalForm
