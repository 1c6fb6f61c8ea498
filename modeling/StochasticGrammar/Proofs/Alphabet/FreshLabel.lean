import Mathlib.Data.List.Nodup
import Mathlib.Data.List.Perm.Subperm
import Mathlib.Data.List.Range
import StochasticGrammar.Proofs.Alphabet.Listing

/-!
# Fresh nonterminals

A fresh label is looked for among the numbered labels of a base, one more of
them than there are symbols.  Numbered labels are different from each other, so
one of them is unused, and adding a nonterminal under it cannot fail.

What such additions make of an alphabet is recorded in `Grown`: the terminals
stay, the row of the nonterminals gets longer, and the new nonterminals have
new labels.  So the symbols that were there keep all that is known of them.

Main results: `hasLabel_freshLabel`, `exists_add_freshLabel`,
`Extends.find?_eq`, `Extends.rank?_eq`.
-/

namespace StochasticGrammar

open Text

/-! ## Numbered labels -/

namespace Alphabet

theorem toList_numbered (base : String) (j : Nat) :
    (numbered base j).toList = base.toList ++ '_' :: writeNat j := by
  simp [numbered, natText]

theorem numbered_injective (base : String) :
    Function.Injective (numbered base) := by
  intro i j h
  have hText := congrArg String.toList h
  rw [toList_numbered, toList_numbered, List.append_cancel_left_eq,
    List.cons.injEq] at hText
  exact writeNat_injective hText.2

/-- With a number at its end, a base without blanks is a label, even if it is
empty. -/
theorem isLabel_numbered_iff {base : String} {j : Nat} :
    isLabel (numbered base j) = true ↔ ∀ c ∈ base.toList, isBlank c = false := by
  rw [isLabel_iff, toList_numbered]
  constructor
  · intro h c hc
    exact h.not_blank c (List.mem_append_left _ hc)
  · intro h
    refine ⟨by simp, fun c hc => ?_⟩
    rcases List.mem_append.1 hc with hc | hc
    · exact h c hc
    · rcases List.mem_cons.1 hc with rfl | hc
      · decide
      · exact (isWord_writeNat j).not_blank c hc

/-! ## The search -/

theorem exists_freshFrom_eq (al : Alphabet) (base : String) (fuel : Nat) :
    ∀ j, ∃ k, al.freshFrom base j fuel = numbered base k := by
  induction fuel with
  | zero => exact fun j => ⟨j, rfl⟩
  | succ fuel ih =>
      intro j
      unfold freshFrom
      split
      · exact ih (j + 1)
      · exact ⟨j, rfl⟩

/-- If the search ends with a used label, all labels it looked at are used. -/
theorem hasLabel_of_freshFrom {al : Alphabet} {base : String} {fuel : Nat} :
    ∀ {j : Nat}, al.hasLabel (al.freshFrom base j fuel) = true →
      ∀ i ≤ fuel, al.hasLabel (numbered base (j + i)) = true := by
  induction fuel with
  | zero =>
      intro j h i hi
      rw [Nat.le_zero.1 hi]
      exact h
  | succ fuel ih =>
      intro j h i hi
      unfold freshFrom at h
      split at h
      · rename_i hUsed
        cases i with
        | zero => exact hUsed
        | succ i =>
            have hNext := ih h i (by omega)
            rwa [show j + (i + 1) = j + 1 + i by omega]
      · rename_i hUnused
        exact absurd h hUnused

/-- The label that the search ends with is unused. -/
theorem hasLabel_freshLabel (al : Alphabet) (base : String) :
    al.hasLabel (al.freshLabel base) = false := by
  rw [Bool.eq_false_iff]
  intro hUsed
  have hAll := hasLabel_of_freshFrom hUsed
  let found := (List.range (al.size + 1)).map fun i => numbered base (1 + i)
  have hNodup : found.Nodup := by
    refine List.Nodup.map (fun i j hEq => ?_) List.nodup_range
    exact Nat.add_left_cancel (numbered_injective base hEq)
  have hSubset : found ⊆ al.symbols.map (·.label) := by
    intro label hLabel
    obtain ⟨i, hi, rfl⟩ := List.mem_map.1 hLabel
    have hLt := List.mem_range.1 hi
    obtain ⟨s, hs, hEq⟩ := (hasLabel_iff al _).1 (hAll i (by omega))
    exact List.mem_map.2 ⟨s, hs, hEq⟩
  -- one label more than there are symbols
  have hLe := (hNodup.subperm hSubset).length_le
  simp only [found, List.length_map, List.length_range] at hLe
  exact Nat.not_succ_le_self _ hLe

theorem isLabel_freshLabel_iff (al : Alphabet) {base : String} :
    isLabel (al.freshLabel base) = true ↔
      ∀ c ∈ base.toList, isBlank c = false := by
  obtain ⟨k, hk⟩ := exists_freshFrom_eq al base al.size 1
  rw [freshLabel, hk, isLabel_numbered_iff]

/-- The unused label can be given to a symbol under the next number. -/
theorem WellFormed.add_freshLabel {al : Alphabet} (h : al.WellFormed)
    {base : String} (hBase : ∀ c ∈ base.toList, isBlank c = false)
    (c : Category) (description : Option String) :
    al.add c (al.freshLabel base) description = .ok (al.nextId,
      al.push c ⟨al.nextId, al.freshLabel base, description⟩) :=
  add_eq_ok_iff.2 ⟨(isLabel_freshLabel_iff al).2 hBase, rfl,
    insert_eq_ok_iff.2 ⟨hasLabel_freshLabel al base, h.hasId_nextId, rfl⟩⟩

/-! ## Alphabets with more nonterminals -/

/-- An alphabet has the symbols of another one, in their places, and at the end
of the row of the nonterminals perhaps some with new labels. -/
structure Extends (al extended : Alphabet) : Prop where
  terminals : extended.terminals = al.terminals
  nonterminals : ∃ new, extended.nonterminals = al.nonterminals ++ new ∧
    ∀ s ∈ new, al.hasLabel s.label = false ∧ al.hasId s.id = false

namespace Extends

theorem refl (al : Alphabet) : al.Extends al :=
  ⟨rfl, [], by simp, by simp⟩

theorem mem_symbols {al extended : Alphabet} (h : al.Extends extended)
    {s : Symbol} (hs : s ∈ al.symbols) : s ∈ extended.symbols := by
  obtain ⟨new, hNew, _⟩ := h.nonterminals
  rw [symbols, hNew, h.terminals]
  rcases List.mem_append.1 hs with hs | hs
  · exact List.mem_append_left _ (List.mem_append_left _ hs)
  · exact List.mem_append_right _ hs

theorem hasId_mono {al extended : Alphabet} (h : al.Extends extended)
    {id : SymbolId} (hId : al.hasId id = true) : extended.hasId id = true := by
  obtain ⟨s, hs, hEq⟩ := (hasId_iff al id).1 hId
  exact (hasId_iff extended id).2 ⟨s, h.mem_symbols hs, hEq⟩

theorem hasLabel_mono {al extended : Alphabet} (h : al.Extends extended)
    {label : String} (hLabel : al.hasLabel label = true) :
    extended.hasLabel label = true := by
  obtain ⟨s, hs, hEq⟩ := (hasLabel_iff al label).1 hLabel
  exact (hasLabel_iff extended label).2 ⟨s, h.mem_symbols hs, hEq⟩

theorem trans {al mid extended : Alphabet} (h : al.Extends mid)
    (h' : mid.Extends extended) : al.Extends extended := by
  obtain ⟨new, hNew, hFresh⟩ := h.nonterminals
  obtain ⟨more, hMore, hFresh'⟩ := h'.nonterminals
  refine ⟨h'.terminals.trans h.terminals, new ++ more, ?_, fun s hs => ?_⟩
  · rw [hMore, hNew, List.append_assoc]
  · rcases List.mem_append.1 hs with hs | hs
    · exact hFresh s hs
    · have hUnused := hFresh' s hs
      rw [Bool.eq_false_iff, Bool.eq_false_iff] at hUnused ⊢
      exact ⟨fun hUsed => hUnused.1 (h.hasLabel_mono hUsed),
        fun hUsed => hUnused.2 (h.hasId_mono hUsed)⟩

section Old

variable {al extended : Alphabet} (h : al.Extends extended) {id : SymbolId}
  (hId : al.hasId id = true)

include h

theorem isTerminal_eq : extended.isTerminal = al.isTerminal := by
  funext id
  rw [isTerminal, isTerminal, h.terminals]

include hId

/-- No symbol that was added has the number of an old one. -/
theorem exists_new : ∃ new, extended.nonterminals = al.nonterminals ++ new ∧
    ∀ s ∈ new, (s.id == id) = false := by
  obtain ⟨new, hNew, hFresh⟩ := h.nonterminals
  refine ⟨new, hNew, fun s hs => ?_⟩
  rw [beq_eq_false_iff_ne]
  rintro rfl
  rw [(hFresh s hs).2] at hId
  cases hId

/-- A symbol keeps its label and its description. -/
theorem find?_eq : extended.find? id = al.find? id := by
  obtain ⟨new, hNew, hOther⟩ := h.exists_new hId
  have hNone : new.find? (·.id == id) = none := by
    simpa [List.find?_eq_none] using hOther
  simp only [find?, symbols, hNew, h.terminals, List.find?_append, hNone,
    Option.or_none]

/-- A symbol keeps its rank. -/
theorem rank?_eq : extended.rank? id = al.rank? id := by
  obtain ⟨new, hNew, hOther⟩ := h.exists_new hId
  have hNone : new.findIdx? (·.id == id) = none := by
    simpa [List.findIdx?_eq_none_iff] using hOther
  simp only [rank?, hNew, h.terminals, List.findIdx?_append, hNone,
    Option.map_none, Option.or_none]

end Old

end Extends

/-- An alphabet with more nonterminals whose labels are all words. -/
structure Grown (al extended : Alphabet) : Prop
    extends Extends al extended where
  wellFormed : extended.WellFormed
  isLabel : ∀ s ∈ extended.symbols, isLabel s.label = true

namespace Grown

theorem refl {al : Alphabet} (h : al.WellFormed)
    (hLabels : ∀ s ∈ al.symbols, Alphabet.isLabel s.label = true) :
    al.Grown al :=
  ⟨.refl al, h, hLabels⟩

theorem self {al extended : Alphabet} (h : al.Grown extended) :
    extended.Grown extended :=
  .refl h.wellFormed h.isLabel

theorem trans {al mid extended : Alphabet} (h : al.Grown mid)
    (h' : mid.Grown extended) : al.Grown extended :=
  ⟨h.toExtends.trans h'.toExtends, h'.wellFormed, h'.isLabel⟩

end Grown

/-- A fresh nonterminal is always added. -/
theorem exists_add_freshLabel {al : Alphabet} (hal : al.Grown al)
    {base : String} (hBase : isLabel base = true) :
    ∃ id extended, al.add .nonterminal (al.freshLabel base) none =
      .ok (id, extended) ∧ al.Grown extended := by
  have hPlain := (isLabel_iff.1 hBase).not_blank
  have hLabel := (isLabel_freshLabel_iff al).2 hPlain
  have hAdd := hal.wellFormed.add_freshLabel hPlain .nonterminal none
  refine ⟨_, _, hAdd, ⟨rfl, _, rfl, ?_⟩, hal.wellFormed.add hAdd,
    fun t ht => ?_⟩
  · simpa using ⟨hasLabel_freshLabel al base, hal.wellFormed.hasId_nextId⟩
  · rcases mem_symbols_push.1 ht with rfl | ht
    · exact hLabel
    · exact hal.isLabel t ht

end Alphabet

end StochasticGrammar
