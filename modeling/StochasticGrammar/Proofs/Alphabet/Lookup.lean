import Mathlib.Data.List.Nodup
import StochasticGrammar.Proofs.Alphabet.WellFormed

/-!
# Looking up symbols

Where no two symbols share a number or a label, a search that stops at the first
match has found the only one.  So what a look-up answers is a fact about the
symbols of the alphabet, in whatever order they stand.

Main results: `find?_eq_some_iff`, `idOfLabel_eq_ok_iff`, `rank?_eq_some_iff`.
-/

namespace StochasticGrammar

theorem atSigned?_map {β γ : Type} (f : β → γ) (xs : List β) (i : Int) :
    atSigned? (xs.map f) i = (atSigned? xs i).map f := by
  unfold atSigned?
  rw [List.length_map]
  cases signedPosition? xs.length i <;> simp

namespace Alphabet

/-- The symbols of an alphabet are those at the places of its rows. -/
theorem mem_symbols_iff {al : Alphabet} {s : Symbol} :
    s ∈ al.symbols ↔ ∃ (c : Category) (i : Nat), (al.row c)[i]? = some s := by
  constructor
  · intro hs
    rcases List.mem_append.1 hs with hs | hs
    · exact ⟨.nonterminal, List.mem_iff_getElem?.1 hs⟩
    · exact ⟨.terminal, List.mem_iff_getElem?.1 hs⟩
  · rintro ⟨c, i, hi⟩
    exact mem_symbols_of_mem_row (List.mem_of_getElem? hi)

/-- A search for a value that no two items share finds the item that has it. -/
theorem find?_beq_eq_some_iff {β γ : Type} [BEq γ] [LawfulBEq γ] {f : β → γ}
    {xs : List β} (h : (xs.map f).Nodup) {b : γ} {x : β} :
    xs.find? (f · == b) = some x ↔ x ∈ xs ∧ f x = b := by
  constructor
  · intro hFind
    exact ⟨List.mem_of_find?_eq_some hFind, by simpa using List.find?_some hFind⟩
  · rintro ⟨hx, rfl⟩
    cases hFind : xs.find? (f · == f x) with
    | none => exact absurd (List.find?_eq_none.1 hFind x hx) (by simp)
    | some y =>
        have hy : f y = f x := by simpa using List.find?_some hFind
        rw [List.inj_on_of_nodup_map h (List.mem_of_find?_eq_some hFind) hx hy]

/-- The place that such a search finds is the only one with the value. -/
theorem findIdx?_beq_eq_some_iff {β γ : Type} [BEq γ] [LawfulBEq γ] {f : β → γ}
    {xs : List β} (h : (xs.map f).Nodup) {b : γ} {i : Nat} :
    xs.findIdx? (f · == b) = some i ↔ ∃ x, xs[i]? = some x ∧ f x = b := by
  constructor
  · intro hFind
    obtain ⟨hi, hEq, _⟩ := List.findIdx?_eq_some_iff_getElem.1 hFind
    exact ⟨xs[i], List.getElem?_eq_getElem hi, eq_of_beq hEq⟩
  · rintro ⟨x, hx, rfl⟩
    obtain ⟨hi, rfl⟩ := List.getElem?_eq_some_iff.1 hx
    refine List.findIdx?_eq_some_iff_getElem.2 ⟨hi, beq_self_eq_true _, ?_⟩
    intro j hj hEq
    have hMap : (xs.map f)[j]? = (xs.map f)[i]? := by
      rw [List.getElem?_map, List.getElem?_map, hx,
        List.getElem?_eq_getElem (Nat.lt_trans hj hi)]
      exact congrArg some (eq_of_beq hEq)
    have hLt : j < (xs.map f).length := by
      rw [List.length_map]
      exact Nat.lt_trans hj hi
    exact Nat.ne_of_lt hj ((List.getElem?_inj hLt h).1 hMap)

namespace Distinct

variable {al : Alphabet} (h : al.Distinct) {id : SymbolId} {label : String}

include h

theorem find?_eq_some_iff {s : Symbol} :
    al.find? id = some s ↔ s ∈ al.symbols ∧ s.id = id :=
  find?_beq_eq_some_iff h.nodup_ids

theorem findLabel?_eq_some_iff {s : Symbol} :
    al.findLabel? label = some s ↔ s ∈ al.symbols ∧ s.label = label :=
  find?_beq_eq_some_iff h.nodup_labels

theorem label_eq_ok_iff : al.label id = .ok label ↔
    ∃ s ∈ al.symbols, s.id = id ∧ s.label = label := by
  unfold Alphabet.label symbol
  constructor
  · intro hLabel
    cases hFind : al.find? id with
    | none => simp [hFind, Except.map] at hLabel
    | some s =>
        obtain ⟨hs, hId⟩ := h.find?_eq_some_iff.1 hFind
        refine ⟨s, hs, hId, ?_⟩
        simpa [hFind, Except.map] using hLabel
  · rintro ⟨s, hs, hId, rfl⟩
    rw [h.find?_eq_some_iff.2 ⟨hs, hId⟩]
    rfl

theorem idOfLabel_eq_ok_iff : al.idOfLabel label = .ok id ↔
    ∃ s ∈ al.symbols, s.label = label ∧ s.id = id := by
  unfold idOfLabel
  constructor
  · intro hId
    cases hFind : al.findLabel? label with
    | none => simp [hFind] at hId
    | some s =>
        obtain ⟨hs, hLabel⟩ := h.findLabel?_eq_some_iff.1 hFind
        refine ⟨s, hs, hLabel, ?_⟩
        simpa [hFind] using hId
  · rintro ⟨s, hs, hLabel, rfl⟩
    rw [h.findLabel?_eq_some_iff.2 ⟨hs, hLabel⟩]

/-- No number is in both rows. -/
theorem disjoint_ids : ∀ x ∈ al.ids .nonterminal, ∀ y ∈ al.ids .terminal, x ≠ y :=
  (List.nodup_append.1 (map_id_symbols al ▸ h.nodup_ids)).2.2

theorem nodup_ids_row (c : Category) : ((al.row c).map (·.id)).Nodup := by
  have hNodup := List.nodup_append.1 (map_id_symbols al ▸ h.nodup_ids)
  cases c with
  | nonterminal => exact hNodup.1
  | terminal => exact hNodup.2.1

theorem rank?_eq_some_iff {i : Nat} : al.rank? id = some i ↔
    ∃ (c : Category) (s : Symbol), (al.row c)[i]? = some s ∧ s.id = id := by
  have hIn {c : Category} :
      (al.row c).findIdx? (·.id == id) = some i ↔ _ :=
    findIdx?_beq_eq_some_iff (h.nodup_ids_row c)
  unfold rank?
  constructor
  · intro hRank
    split at hRank
    · rename_i j hFind
      cases hRank
      exact ⟨.nonterminal, hIn.1 hFind⟩
    · exact ⟨.terminal, hIn.1 hRank⟩
  · rintro ⟨c, s, hs, rfl⟩
    cases c with
    | nonterminal =>
        have hFind : al.nonterminals.findIdx? (·.id == s.id) = some i :=
          hIn.2 ⟨s, hs, rfl⟩
        rw [hFind]
    | terminal =>
        have hFind : al.terminals.findIdx? (·.id == s.id) = some i :=
          hIn.2 ⟨s, hs, rfl⟩
        have hNone : al.nonterminals.findIdx? (·.id == s.id) = none := by
          rw [List.findIdx?_eq_none_iff]
          intro r hr
          have hNe := h.disjoint_ids r.id (List.mem_map_of_mem hr) s.id
            (List.mem_map_of_mem (List.mem_of_getElem? hs))
          exact beq_eq_false_iff_ne.2 hNe
        rw [hNone, hFind]

end Distinct

end Alphabet

end StochasticGrammar
