import StochasticGrammar.Alphabet.Basic

/-!
# Well-formed alphabets

The numbers and the labels of the symbols of an alphabet are all different, the
next number is larger than every number in use, and the two reserved symbols
are in their rows.  The alphabet that holds the reserved symbols only is
well-formed, and adding a symbol keeps an alphabet well-formed.  Numbers are
not skipped either: the next number is the least one possible, which the
alphabets that are read share (`NextIsLeast`).

What the conversion to normal form needs of a fresh nonterminal follows: its
number was not in use (`hasId_of_add`), and the terminals are the same as
before (`isTerminal_of_add`).
-/

namespace StochasticGrammar.Alphabet

/-- What holds of every alphabet that is built by adding symbols. -/
structure WellFormed (al : Alphabet) : Prop where
  nodup_ids : (al.symbols.map (·.id)).Nodup
  nodup_labels : (al.symbols.map (·.label)).Nodup
  lt_nextId : ∀ s ∈ al.symbols, s.id < al.nextId
  start_mem : startId ∈ al.ids .nonterminal
  empty_mem : emptyId ∈ al.ids .terminal

theorem wellFormed_initial : initial.WellFormed := by
  constructor <;> decide

/-! ## Membership -/

theorem mem_symbols_of_mem_row {al : Alphabet} {c : Category} {s : Symbol}
    (h : s ∈ al.row c) : s ∈ al.symbols := by
  cases c with
  | nonterminal => exact List.mem_append_left _ h
  | terminal => exact List.mem_append_right _ h

theorem hasId_iff (al : Alphabet) (id : SymbolId) :
    al.hasId id = true ↔ ∃ s ∈ al.symbols, s.id = id := by
  simp [hasId, find?, List.find?_isSome]

theorem hasLabel_iff (al : Alphabet) (label : String) :
    al.hasLabel label = true ↔ ∃ s ∈ al.symbols, s.label = label := by
  simp [hasLabel, findLabel?, List.find?_isSome]

theorem isTerminal_iff (al : Alphabet) (id : SymbolId) :
    al.isTerminal id = true ↔ id ∈ al.ids .terminal := by
  simp [isTerminal, ids, row]

theorem isNonterminal_iff (al : Alphabet) (id : SymbolId) :
    al.isNonterminal id = true ↔ id ∈ al.ids .nonterminal := by
  simp [isNonterminal, ids, row]

theorem hasId_iff_mem_ids (al : Alphabet) (id : SymbolId) :
    al.hasId id = true ↔ id ∈ al.ids .nonterminal ∨ id ∈ al.ids .terminal := by
  rw [hasId_iff]
  simp only [symbols, ids, row, List.mem_append, List.mem_map, or_and_right,
    exists_or]

/-- The numbers of the symbols, nonterminals first. -/
theorem map_id_symbols (al : Alphabet) :
    al.symbols.map (·.id) = al.ids .nonterminal ++ al.ids .terminal := by
  simp [symbols, ids, row]

namespace WellFormed

theorem not_isTerminal {al : Alphabet} (h : al.WellFormed) {id : SymbolId}
    (hId : id ∈ al.ids .nonterminal) : al.isTerminal id = false := by
  have hNodup := h.nodup_ids
  rw [map_id_symbols, List.nodup_append] at hNodup
  rw [Bool.eq_false_iff, Ne, isTerminal_iff]
  intro hTerminal
  exact hNodup.2.2 id hId id hTerminal rfl

theorem isTerminal_startId {al : Alphabet} (h : al.WellFormed) :
    al.isTerminal startId = false :=
  h.not_isTerminal h.start_mem

theorem isTerminal_emptyId {al : Alphabet} (h : al.WellFormed) :
    al.isTerminal emptyId = true :=
  (isTerminal_iff al emptyId).2 h.empty_mem

theorem hasId_startId {al : Alphabet} (h : al.WellFormed) :
    al.hasId startId = true :=
  (hasId_iff_mem_ids al startId).2 (.inl h.start_mem)

theorem lt_nextId_of_hasId {al : Alphabet} (h : al.WellFormed)
    {id : SymbolId} (hId : al.hasId id = true) : id < al.nextId := by
  obtain ⟨s, hMem, rfl⟩ := (hasId_iff al id).1 hId
  exact h.lt_nextId s hMem

theorem hasId_nextId {al : Alphabet} (h : al.WellFormed) :
    al.hasId al.nextId = false := by
  by_cases hId : al.hasId al.nextId = true
  · exact absurd (h.lt_nextId_of_hasId hId) (Int.lt_irrefl _)
  · simpa using hId

end WellFormed

/-! ## Adding a symbol -/

theorem perm_symbols_push (al : Alphabet) (c : Category) (s : Symbol) :
    (al.push c s).symbols.Perm (s :: al.symbols) := by
  cases c with
  | nonterminal =>
      show (al.nonterminals ++ [s] ++ al.terminals).Perm
        (s :: (al.nonterminals ++ al.terminals))
      rw [List.append_assoc]
      exact List.perm_middle
  | terminal =>
      show (al.nonterminals ++ (al.terminals ++ [s])).Perm
        (s :: (al.nonterminals ++ al.terminals))
      rw [← List.append_assoc]
      exact List.perm_append_singleton s _

theorem mem_symbols_push {al : Alphabet} {c : Category} {s t : Symbol} :
    t ∈ (al.push c s).symbols ↔ t = s ∨ t ∈ al.symbols := by
  rw [(perm_symbols_push al c s).mem_iff, List.mem_cons]

theorem nextId_push (al : Alphabet) (c : Category) (s : Symbol) :
    (al.push c s).nextId = max al.nextId (s.id + 1) := by
  cases c <;> rfl

theorem ids_push_subset (al : Alphabet) (c d : Category) (s : Symbol) :
    al.ids d ⊆ (al.push c s).ids d := by
  intro id hId
  by_cases h : d = c
  · subst h
    rw [ids, row_push, List.map_append]
    exact List.mem_append_left _ hId
  · rw [ids, row_push_of_ne al s h]
    exact hId

/-- What insertions keep even before the reserved symbols are there. -/
structure Distinct (al : Alphabet) : Prop where
  nodup_ids : (al.symbols.map (·.id)).Nodup
  nodup_labels : (al.symbols.map (·.label)).Nodup
  lt_nextId : ∀ s ∈ al.symbols, s.id < al.nextId

theorem WellFormed.distinct {al : Alphabet} (h : al.WellFormed) :
    al.Distinct :=
  ⟨h.nodup_ids, h.nodup_labels, h.lt_nextId⟩

/-- An insertion that succeeds keeps the symbols of an alphabet distinct. -/
theorem Distinct.insert {al extended : Alphabet} {c : Category} {s : Symbol}
    (h : al.Distinct) (hInsert : al.insert c s = .ok extended) :
    extended.Distinct := by
  obtain ⟨hLabel, hId, rfl⟩ := insert_eq_ok_iff.1 hInsert
  have hPerm := perm_symbols_push al c s
  constructor
  · rw [(hPerm.map _).nodup_iff, List.map_cons, List.nodup_cons]
    refine ⟨fun hMem => ?_, h.nodup_ids⟩
    obtain ⟨t, ht, hEq⟩ := List.mem_map.1 hMem
    have := (hasId_iff al s.id).2 ⟨t, ht, hEq⟩
    simp [this] at hId
  · rw [(hPerm.map _).nodup_iff, List.map_cons, List.nodup_cons]
    refine ⟨fun hMem => ?_, h.nodup_labels⟩
    obtain ⟨t, ht, hEq⟩ := List.mem_map.1 hMem
    have := (hasLabel_iff al s.label).2 ⟨t, ht, hEq⟩
    simp [this] at hLabel
  · intro t ht
    rw [nextId_push]
    rcases mem_symbols_push.1 ht with rfl | ht
    · exact Int.lt_of_lt_of_le (Int.lt_succ t.id) (Int.le_max_right _ _)
    · exact Int.lt_of_lt_of_le (h.lt_nextId t ht) (Int.le_max_left _ _)

/-- An insertion that succeeds keeps an alphabet well-formed. -/
theorem WellFormed.insert {al extended : Alphabet} {c : Category} {s : Symbol}
    (h : al.WellFormed) (hInsert : al.insert c s = .ok extended) :
    extended.WellFormed := by
  have hDistinct := h.distinct.insert hInsert
  obtain ⟨_, _, rfl⟩ := insert_eq_ok_iff.1 hInsert
  exact ⟨hDistinct.nodup_ids, hDistinct.nodup_labels, hDistinct.lt_nextId,
    ids_push_subset al c .nonterminal s h.start_mem,
    ids_push_subset al c .terminal s h.empty_mem⟩

/-- The number of the next symbol is the least one that is not negative and
larger than all numbers in use. -/
structure NextIsLeast (al : Alphabet) : Prop where
  nonneg : 0 ≤ al.nextId
  le : ∀ n, 0 ≤ n → (∀ s ∈ al.symbols, s.id < n) → al.nextId ≤ n

theorem nextIsLeast_empty : NextIsLeast empty :=
  ⟨Int.le_refl 0, fun _ hn _ => hn⟩

theorem nextIsLeast_initial : NextIsLeast initial := by
  refine ⟨by decide, fun n _ h => ?_⟩
  have hEmpty : emptyId < n := h ⟨emptyId, emptyLabel, some "empty string"⟩
    (by decide)
  exact Int.add_one_le_of_lt hEmpty

theorem NextIsLeast.insert {al extended : Alphabet} {c : Category} {s : Symbol}
    (h : al.NextIsLeast) (hInsert : al.insert c s = .ok extended) :
    extended.NextIsLeast := by
  obtain ⟨_, _, rfl⟩ := insert_eq_ok_iff.1 hInsert
  constructor
  · rw [nextId_push]
    exact Int.le_trans h.nonneg (Int.le_max_left _ _)
  · intro n hn hAll
    have hOld := h.le n hn fun t ht => hAll t (mem_symbols_push.2 (.inr ht))
    have hNew := hAll s (mem_symbols_push.2 (.inl rfl))
    rw [nextId_push]
    exact Int.max_le.2 ⟨hOld, Int.add_one_le_of_lt hNew⟩

/-- Adding a symbol is an insertion under the next number. -/
theorem add_eq_ok_iff {al extended : Alphabet} {c : Category} {label : String}
    {description : Option String} {id : SymbolId} :
    al.add c label description = .ok (id, extended) ↔
      isLabel label = true ∧ id = al.nextId ∧
        al.insert c ⟨al.nextId, label, description⟩ = .ok extended := by
  unfold add
  by_cases hLabel : isLabel label = true
  · rw [if_pos hLabel]
    cases hInsert : al.insert c ⟨al.nextId, label, description⟩ with
    | error e => simp [bind, Except.bind]
    | ok b =>
        simp only [bind, Except.bind, pure, Except.pure, Except.ok.injEq,
          Prod.mk.injEq, hLabel, true_and]
        constructor
        · rintro ⟨rfl, rfl⟩
          exact ⟨rfl, rfl⟩
        · rintro ⟨rfl, rfl⟩
          exact ⟨rfl, rfl⟩
  · simp [hLabel]

section Add

variable {al extended : Alphabet} {c : Category} {label : String}
  {description : Option String} {id : SymbolId}

theorem WellFormed.add (h : al.WellFormed)
    (hAdd : al.add c label description = .ok (id, extended)) :
    extended.WellFormed :=
  h.insert (add_eq_ok_iff.1 hAdd).2.2

/-- The number that an added symbol gets was not in use. -/
theorem hasId_of_add (h : al.WellFormed)
    (hAdd : al.add c label description = .ok (id, extended)) :
    al.hasId id = false := by
  rw [(add_eq_ok_iff.1 hAdd).2.1]
  exact h.hasId_nextId

theorem ids_subset_of_add
    (hAdd : al.add c label description = .ok (id, extended)) (d : Category) :
    al.ids d ⊆ extended.ids d := by
  obtain ⟨_, _, rfl⟩ := insert_eq_ok_iff.1 (add_eq_ok_iff.1 hAdd).2.2
  exact ids_push_subset al c d _

theorem id_mem_of_add
    (hAdd : al.add c label description = .ok (id, extended)) :
    id ∈ extended.ids c := by
  obtain ⟨_, rfl, hInsert⟩ := add_eq_ok_iff.1 hAdd
  obtain ⟨_, _, rfl⟩ := insert_eq_ok_iff.1 hInsert
  rw [ids, row_push]
  simp

/-- A new nonterminal leaves the terminals as they were. -/
theorem isTerminal_of_add
    (hAdd : al.add .nonterminal label description = .ok (id, extended)) :
    extended.isTerminal = al.isTerminal := by
  obtain ⟨_, _, rfl⟩ := insert_eq_ok_iff.1 (add_eq_ok_iff.1 hAdd).2.2
  rfl

/-- A new symbol does not make a terminal of an old one. -/
theorem isTerminal_of_add_of_hasId (h : al.WellFormed)
    (hAdd : al.add c label description = .ok (id, extended)) {x : SymbolId}
    (hId : al.hasId x = true) : extended.isTerminal x = al.isTerminal x := by
  have hNew := hasId_of_add h hAdd
  obtain ⟨_, rfl, hInsert⟩ := add_eq_ok_iff.1 hAdd
  obtain ⟨_, _, rfl⟩ := insert_eq_ok_iff.1 hInsert
  cases c with
  | nonterminal => rfl
  | terminal =>
      have hNe : al.nextId ≠ x := by
        rintro rfl
        rw [hNew] at hId
        cases hId
      simp [isTerminal, push, hNe]

theorem hasId_mono_of_add
    (hAdd : al.add c label description = .ok (id, extended)) {x : SymbolId}
    (hId : al.hasId x = true) : extended.hasId x = true := by
  rw [hasId_iff_mem_ids] at hId ⊢
  exact hId.imp (ids_subset_of_add hAdd _ ·) (ids_subset_of_add hAdd _ ·)

/-- Only the number that an added symbol gets is new. -/
theorem eq_of_hasId_of_add
    (hAdd : al.add c label description = .ok (id, extended)) {x : SymbolId}
    (hNew : extended.hasId x = true) (hOld : al.hasId x = false) : x = id := by
  obtain ⟨_, rfl, hInsert⟩ := add_eq_ok_iff.1 hAdd
  obtain ⟨_, _, rfl⟩ := insert_eq_ok_iff.1 hInsert
  obtain ⟨s, hs, rfl⟩ := (hasId_iff _ x).1 hNew
  rcases mem_symbols_push.1 hs with rfl | hs
  · rfl
  · rw [(hasId_iff al s.id).2 ⟨s, hs, rfl⟩] at hOld
    cases hOld

end Add

/-! ## Fresh nonterminals -/

/-- An alphabet is another one with some nonterminals added. -/
structure Freshens (al extended : Alphabet) (ids : List SymbolId) : Prop where
  wellFormed : extended.WellFormed
  isTerminal_eq : extended.isTerminal = al.isTerminal
  hasId_mono : ∀ {x : SymbolId}, al.hasId x = true → extended.hasId x = true
  not_hasId : ∀ id ∈ ids, al.hasId id = false
  hasId : ∀ id ∈ ids, extended.hasId id = true
  not_isTerminal : ∀ id ∈ ids, extended.isTerminal id = false
  nodup : ids.Nodup

theorem Freshens.refl {al : Alphabet} (h : al.WellFormed) :
    Freshens al al [] := by
  constructor <;> simp [h]

theorem freshens_add {al extended : Alphabet} (h : al.WellFormed)
    {label : String} {description : Option String} {id : SymbolId}
    (hAdd : al.add .nonterminal label description = .ok (id, extended)) :
    Freshens al extended [id] where
  wellFormed := h.add hAdd
  isTerminal_eq := isTerminal_of_add hAdd
  hasId_mono := hasId_mono_of_add hAdd
  not_hasId := by simpa using hasId_of_add h hAdd
  hasId := by
    have hMem := id_mem_of_add hAdd
    simpa using (hasId_iff_mem_ids extended id).2 (.inl hMem)
  not_isTerminal := by
    simpa using (h.add hAdd).not_isTerminal (id_mem_of_add hAdd)
  nodup := by simp

theorem Freshens.append {al mid extended : Alphabet} {ids more : List SymbolId}
    (h : Freshens al mid ids) (h' : Freshens mid extended more) :
    Freshens al extended (ids ++ more) where
  wellFormed := h'.wellFormed
  isTerminal_eq := h'.isTerminal_eq.trans h.isTerminal_eq
  hasId_mono hx := h'.hasId_mono (h.hasId_mono hx)
  not_hasId id hId := by
    rcases List.mem_append.1 hId with hId | hId
    · exact h.not_hasId id hId
    · have hMid := h'.not_hasId id hId
      by_cases hOld : al.hasId id = true
      · rw [h.hasId_mono hOld] at hMid
        simp at hMid
      · simpa using hOld
  hasId id hId := by
    rcases List.mem_append.1 hId with hId | hId
    · exact h'.hasId_mono (h.hasId id hId)
    · exact h'.hasId id hId
  not_isTerminal id hId := by
    rcases List.mem_append.1 hId with hId | hId
    · rw [h'.isTerminal_eq]
      exact h.not_isTerminal id hId
    · exact h'.not_isTerminal id hId
  nodup := by
    rw [List.nodup_append]
    refine ⟨h.nodup, h'.nodup, fun a ha b hb hab => ?_⟩
    have hMid := h'.not_hasId b hb
    rw [← hab, h.hasId a ha] at hMid
    simp at hMid

end StochasticGrammar.Alphabet
