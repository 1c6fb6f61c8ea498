import StochasticGrammar.NormalForm.Conversion
import StochasticGrammar.Proofs.Grammar.WellFormed
import StochasticGrammar.Proofs.NormalForm.EmptyRules
import StochasticGrammar.Proofs.NormalForm.Start
import StochasticGrammar.Proofs.NormalForm.UnitRules

/-!
# The stages before the unit rules go

After the first two stages the rules are short, and the start symbol and the
empty string symbol stand on no right side.  Fresh nonterminals are all that
the alphabet has gained, and the start symbol has the weights that it had in
the grammar.

Main results: `prepared_split`, `total_split`, `tidy_withShortened`.
-/

namespace StochasticGrammar.NormalForm

open Weighting
open scoped ENNReal

variable {α : Type} {φ : α → ℝ≥0∞} {good : α → Prop} {g : Grammar α}

/-- One is a good number, and no weight changes when it is multiplied by that
of one. -/
structure Neutral [One α] (φ : α → ℝ≥0∞) (good : α → Prop) : Prop where
  good_one : good 1
  mul_one : ∀ {p : α}, good p → φ p * φ 1 = φ p

/-! ## Leaving out the empty string symbol -/

theorem plain_stripped (hg : g.WellFormed) :
    Plain g.alphabet (stripped g) := by
  constructor
  · intro r hr x hx
    obtain ⟨s, hs, rfl⟩ := List.mem_map.1 hr
    rcases List.mem_cons.1 hx with rfl | hx
    · show g.alphabet.hasId s.lhs = true
      exact hg.hasId_lhs hs
    · exact hg.hasId_of_mem_rhs hs (List.mem_of_mem_filter hx)
  · intro r hr
    obtain ⟨s, hs, rfl⟩ := List.mem_map.1 hr
    show g.alphabet.isTerminal s.lhs = false
    exact hg.isTerminal_lhs hs
  · intro r hr hMem
    obtain ⟨s, hs, rfl⟩ := List.mem_map.1 hr
    have hNe := (List.mem_filter.1 hMem).2
    simp at hNe

theorem total_stripped (hg : g.WellFormed) :
    total g.alphabet.isTerminal (valued φ (stripped g)) =
      total g.alphabet.isTerminal (valued φ g.rules) := by
  have hMap : valued φ (stripped g) =
      (valued φ g.rules).map Rule.withoutEmpty := by
    rw [valued, stripped, List.map_map, valued, List.map_map]
    rfl
  rw [hMap, total_withoutEmpty hg.alphabet.isTerminal_emptyId]

/-! ## Isolating the start symbol -/

section Isolate

variable {al : Alphabet} {rules : List (Rule α)} {s : Stage α}

/-- Either nothing had to be done, or a fresh copy took over. -/
theorem isolateStart_eq_ok (hal : al.WellFormed)
    (h : isolateStart al rules = .ok s) :
    (s = ⟨al, rules⟩ ∧ ∀ r ∈ rules, startId ∉ r.rhs) ∨
      ∃ copy, al.Freshens s.alphabet [copy] ∧
        s.rules = copyStart copy rules := by
  unfold isolateStart at h
  split at h
  · obtain ⟨⟨copy, extended⟩, hAdd, h⟩ := bind_eq_ok.1 h
    cases h
    exact .inr ⟨copy, Alphabet.freshens_add hal hAdd, rfl⟩
  · rename_i hNone
    cases h
    refine .inl ⟨rfl, fun r hr hMem => hNone ?_⟩
    simp only [List.any_eq_true, List.contains_iff_mem]
    exact ⟨r, hr, hMem⟩

theorem mem_copyStart {copy : SymbolId} {r : Rule α}
    (hr : r ∈ copyStart copy rules) :
    ∃ t ∈ rules, (r.lhs = t.lhs ∨ (r.lhs = copy ∧ t.lhs = startId)) ∧
      r.rhs = substituteStart copy t.rhs ∧
        r.probability = t.probability := by
  rcases List.mem_append.1 hr with hr | hr
  · obtain ⟨t, ht, rfl⟩ := List.mem_map.1 hr
    exact ⟨t, ht, .inl rfl, rfl, rfl⟩
  · obtain ⟨t, ht, rfl⟩ := List.mem_map.1 hr
    have hStart : t.lhs = startId := by simpa using (List.mem_filter.1 ht).2
    exact ⟨t, List.mem_of_mem_filter ht, .inr ⟨rfl, hStart⟩, rfl, rfl⟩

theorem ne_startId_of_freshens (hal : al.WellFormed) {extended : Alphabet}
    {ids : List SymbolId} (hFresh : al.Freshens extended ids) {id : SymbolId}
    (hId : id ∈ ids) : id ≠ startId := by
  intro hEq
  have hNot := hFresh.not_hasId id hId
  rw [hEq, hal.hasId_startId] at hNot
  simp at hNot

theorem sides_of_isolateStart (hal : al.WellFormed)
    (h : isolateStart al rules = .ok s) :
    ∃ ids, al.Freshens s.alphabet ids ∧ SidesFrom ids rules s.rules ∧
      ∀ r ∈ s.rules, startId ∉ r.rhs := by
  rcases isolateStart_eq_ok hal h with ⟨rfl, hNone⟩ | ⟨copy, hFresh, hRules⟩
  · exact ⟨[], .refl hal, fun r hr =>
      ⟨.inr ⟨r, hr, rfl⟩, fun x hx => .inr ⟨r, hr, hx⟩⟩, hNone⟩
  · have hNe : copy ≠ startId := ne_startId_of_freshens hal hFresh (by simp)
    rw [hRules]
    refine ⟨[copy], hFresh, fun r hr => ?_,
      fun r hr => startId_notMem_of_mem_copyStart hNe hr⟩
    obtain ⟨t, ht, hLhs, hRhs, _⟩ := mem_copyStart hr
    constructor
    · rcases hLhs with hLhs | ⟨hLhs, _⟩
      · exact .inr ⟨t, ht, hLhs⟩
      · exact .inl (by simp [hLhs])
    · intro x hx
      rw [hRhs] at hx
      obtain ⟨y, hy, hEq⟩ := List.mem_map.1 hx
      by_cases hStart : y = startId
      · rw [if_pos hStart] at hEq
        exact .inl (by simp [hEq])
      · rw [if_neg hStart] at hEq
        exact .inr ⟨t, ht, hEq ▸ hy⟩

theorem good_of_mem_isolateStart (hal : al.WellFormed)
    (h : isolateStart al rules = .ok s)
    (hGood : ∀ r ∈ rules, good r.probability) :
    ∀ r ∈ s.rules, good r.probability := by
  rcases isolateStart_eq_ok hal h with ⟨rfl, _⟩ | ⟨copy, _, hRules⟩
  · exact hGood
  · intro r hr
    rw [hRules] at hr
    obtain ⟨t, ht, _, _, hProbability⟩ := mem_copyStart hr
    rw [hProbability]
    exact hGood t ht

/-- Isolating the start symbol keeps its weights. -/
theorem total_isolateStart (hal : al.WellFormed) (hPlain : Plain al rules)
    (h : isolateStart al rules = .ok s) :
    total al.isTerminal (valued φ s.rules) startId =
      total al.isTerminal (valued φ rules) startId := by
  rcases isolateStart_eq_ok hal h with ⟨rfl, _⟩ | ⟨copy, hFresh, hRules⟩
  · rfl
  · have hNe : copy ≠ startId := ne_startId_of_freshens hal hFresh (by simp)
    have hMap : valued φ (copyStart copy rules) =
        copyStart copy (valued φ rules) := by
      simp only [valued, copyStart, List.map_append, List.map_map,
        List.filter_map]
      rfl
    have hTerminal : al.isTerminal copy = false := by
      rw [← hFresh.isTerminal_eq]
      exact hFresh.not_isTerminal copy (by simp)
    rw [hRules, hMap]
    refine total_copyStart hal.isTerminal_startId hTerminal hNe ?_ hNe.symm
    intro r hr
    obtain ⟨t, ht, rfl⟩ := List.mem_map.1 hr
    exact (hPlain.known t ht).avoids (hFresh.not_hasId copy (by simp))

end Isolate

/-! ## Both stages -/

/-- What the first two stages make of a grammar. -/
structure Prepared (g : Grammar α) (s : Stage α) : Prop where
  wellFormed : s.alphabet.WellFormed
  isTerminal_eq : s.alphabet.isTerminal = g.alphabet.isTerminal
  plain : Plain s.alphabet s.rules
  noStart : ∀ r ∈ s.rules, startId ∉ r.rhs
  length : ∀ r ∈ s.rules, r.rhs.length ≤ 2

section Split

variable [One α] {s : Stage α}

theorem split_eq_ok (h : split g = .ok s) :
    ∃ t, isolateStart g.alphabet (stripped g) = .ok t ∧
      splitLong t = .ok s := by
  obtain ⟨t, hIsolated, h⟩ := bind_eq_ok.1 h
  exact ⟨t, mapError_eq_ok.1 hIsolated, mapError_eq_ok.1 h⟩

theorem prepared_split (hg : g.WellFormed) (h : split g = .ok s) :
    Prepared g s := by
  obtain ⟨t, hIsolate, hSplit⟩ := split_eq_ok h
  obtain ⟨ids, hFresh, hSides, hNoStart⟩ :=
    sides_of_isolateStart hg.alphabet hIsolate
  obtain ⟨more, hMore, hSides', hShort⟩ :=
    sides_of_splitLong hSplit hFresh.wellFormed
  refine ⟨hMore.wellFormed, hMore.isTerminal_eq.trans hFresh.isTerminal_eq,
    ((plain_stripped hg).extend hFresh hSides).extend hMore hSides',
    fun r hr hMem => ?_, hShort⟩
  rcases (hSides' r hr).2 _ hMem with hId | ⟨u, hu, hMem⟩
  · exact ne_startId_of_freshens hFresh.wellFormed hMore hId rfl
  · exact hNoStart u hu hMem

theorem good_of_mem_split (hg : g.WellFormed) (h : split g = .ok s)
    (hOne : good 1) (hGood : ∀ r ∈ g.rules, good r.probability) :
    ∀ r ∈ s.rules, good r.probability := by
  obtain ⟨t, hIsolate, hSplit⟩ := split_eq_ok h
  refine good_of_mem_splitLong hSplit hOne
    (good_of_mem_isolateStart hg.alphabet hIsolate fun r hr => ?_)
  obtain ⟨u, hu, rfl⟩ := List.mem_map.1 hr
  exact hGood u hu

/-- The start symbol has the weights that it has in the grammar. -/
theorem total_split (hg : g.WellFormed) (h : split g = .ok s)
    (hNeutral : Neutral φ good) (hGood : ∀ r ∈ g.rules, good r.probability) :
    total s.alphabet.isTerminal (valued φ s.rules) startId =
      total g.alphabet.isTerminal (valued φ g.rules) startId := by
  have hTerminal := (prepared_split hg h).isTerminal_eq
  obtain ⟨t, hIsolate, hSplit⟩ := split_eq_ok h
  obtain ⟨ids, hFresh, hSides, _⟩ :=
    sides_of_isolateStart hg.alphabet hIsolate
  have hPlain := (plain_stripped hg).extend hFresh hSides
  have hStripped : ∀ r ∈ stripped g, good r.probability := by
    intro r hr
    obtain ⟨u, hu, rfl⟩ := List.mem_map.1 hr
    exact hGood u hu
  have hGood' := good_of_mem_isolateStart hg.alphabet hIsolate hStripped
  have hLong := total_splitLong (hNeutral.mul_one hNeutral.good_one) hSplit
    hFresh.wellFormed (fun r hr => hNeutral.mul_one (hGood' r hr)) hPlain.known
    hFresh.wellFormed.hasId_startId
  rw [hFresh.isTerminal_eq] at hLong
  rw [hTerminal, hLong, total_isolateStart hg.alphabet (plain_stripped hg)
    hIsolate, total_stripped hg]

end Split

/-! ## Removing empty right sides -/

theorem tidy_withShortened [Mul α] {s : Stage α} (h : Prepared g s)
    (e : Erasure α) : Tidy s.alphabet (withShortened e s.rules) := by
  have hSides : SidesFrom [] s.rules (withShortened e s.rules) := by
    intro r hr
    obtain ⟨t, ht, hLhs, hRhs, _⟩ := sides_of_mem_withShortened hr
    exact ⟨.inr ⟨t, ht, hLhs⟩, fun x hx => .inr ⟨t, ht, hRhs hx⟩⟩
  refine ⟨h.plain.extend (.refl h.wellFormed) hSides, fun r hr hMem => ?_,
    fun r hr => ?_⟩
  · obtain ⟨t, ht, _, hRhs, _⟩ := sides_of_mem_withShortened hr
    exact h.noStart t ht (hRhs hMem)
  · obtain ⟨t, ht, _, _, hLength⟩ := sides_of_mem_withShortened hr
    have hShort := h.length t ht
    have hPos := List.length_pos_iff.2 (ne_nil_of_mem_withShortened hr)
    omega

end StochasticGrammar.NormalForm
