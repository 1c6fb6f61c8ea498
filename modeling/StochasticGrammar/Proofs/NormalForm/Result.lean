import StochasticGrammar.Proofs.NormalForm.Cleanup
import StochasticGrammar.Proofs.NormalForm.Stages
import StochasticGrammar.Proofs.Parse.Cyk.NormalForm

/-!
# The result of the conversion

A conversion that succeeds has gone through all of its stages (`Converted`).
Its result is a well-formed grammar in Chomsky normal form.  It gives the
nonempty words the weights that the grammar gives them, and the empty word the
weight of its own rule.

Main results: `exists_converted`, `Converted.inNormalForm`,
`Converted.total_eq`.
-/

namespace StochasticGrammar.NormalForm

open Weighting
open scoped ENNReal

variable {α : Type}

/-! ## Adding the rules -/

theorem addRules_eq_ok {rules : List (Rule α)} :
    ∀ {g c : Grammar α}, rules.foldlM Grammar.addRule g = .ok c →
      c = ⟨g.alphabet, g.rules ++ rules⟩ ∧ (g.WellFormed → c.WellFormed) := by
  induction rules with
  | nil =>
      intro g c h
      cases h
      exact ⟨by simp, id⟩
  | cons r rules ih =>
      intro g c h
      rw [List.foldlM_cons] at h
      obtain ⟨next, hAdd, h⟩ := bind_eq_ok.1 h
      obtain ⟨hRules, hWellFormed⟩ := ih h
      refine ⟨?_, fun hg => hWellFormed (hg.addRule hAdd)⟩
      rw [hRules, (Grammar.addRule_eq_ok_iff.1 hAdd).2]
      simp

/-- Rules that nothing speaks against are added one after another. -/
theorem addRules_of_faultless {rules : List (Rule α)} :
    ∀ {g : Grammar α},
      (∀ r ∈ rules, Grammar.ruleFault? g.alphabet r = none) →
      rules.foldlM Grammar.addRule g =
        .ok ⟨g.alphabet, g.rules ++ rules⟩ := by
  induction rules with
  | nil => simp [pure, Except.pure]
  | cons r rules ih =>
      intro g h
      have hAdd : g.addRule r = .ok ⟨g.alphabet, g.rules ++ [r]⟩ :=
        Grammar.addRule_eq_ok_iff.2 ⟨h r (by simp), rfl⟩
      have hRest := ih (g := ⟨g.alphabet, g.rules ++ [r]⟩)
        fun s hs => h s (by simp [hs])
      rw [List.foldlM_cons, hAdd]
      exact hRest.trans (by simp)

/-! ## The final rules -/

section Final

variable [Zero α] [LT α] [DecidableLT α]

theorem good_of_mem_withEmptyRule {good : α → Prop} {e : Emptied α}
    (hGood : ∀ r ∈ e.rules, good r.probability)
    (hProbability : 0 < e.emptyProbability → good e.emptyProbability) :
    ∀ r ∈ if 0 < e.emptyProbability then
      e.rules ++ [⟨startId, [emptyId], e.emptyProbability⟩] else e.rules,
      good r.probability := by
  intro r hr
  split at hr
  · rename_i hPos
    rcases List.mem_append.1 hr with hr | hr
    · exact hGood r hr
    · rw [List.mem_singleton.1 hr]
      exact hProbability hPos
  · exact hGood r hr

variable [Add α] {options : Options α}

theorem good_of_mem_finalRules {φ : α → ℝ≥0∞} {good : α → Prop}
    {e : Emptied α} (hMerges : Merges φ good options.mergeDuplicates)
    (hGood : ∀ r ∈ e.rules, good r.probability)
    (hProbability : 0 < e.emptyProbability → good e.emptyProbability) :
    ∀ r ∈ finalRules options e, good r.probability := fun r hr =>
  good_of_mem_mergeDuplicates hMerges
    (good_of_mem_withEmptyRule hGood hProbability) r
    ((sublist_collect _).subset hr)

/-- A final rule has the sides of a rule that was there, or it is the rule for
the empty string. -/
theorem sides_of_mem_finalRules {e : Emptied α} {r : Rule α}
    (hr : r ∈ finalRules options e) :
    (∃ t ∈ e.rules, r.lhs = t.lhs ∧ r.rhs = t.rhs) ∨
      (r.lhs = startId ∧ r.rhs = [emptyId]) := by
  have hMerged := (sublist_collect _).subset hr
  obtain ⟨t, ht, hSides⟩ := exists_sides_of_mem_mergeDuplicates hMerged
  split at ht
  · rcases List.mem_append.1 ht with ht | ht
    · exact .inl ⟨t, ht, hSides⟩
    · rw [List.mem_singleton.1 ht] at hSides
      exact .inr hSides
  · exact .inl ⟨t, ht, hSides⟩

/-- If no other rule leads to the empty string symbol, the one that is added is
as it was. -/
theorem emptyRule_of_mem_finalRules {e : Emptied α}
    (hOther : ∀ t ∈ e.rules, t.rhs ≠ [emptyId]) {r : Rule α}
    (hr : r ∈ finalRules options e) (hRhs : r.rhs = [emptyId]) :
    0 < e.emptyProbability ∧ r = ⟨startId, [emptyId], e.emptyProbability⟩ := by
  have hMerged := (sublist_collect _).subset hr
  have hNotMerged : ∀ t ∈ mergeDuplicates options.mergeDuplicates e.rules,
      t.rhs ≠ [emptyId] := by
    intro t ht
    obtain ⟨u, hu, _, hSame⟩ := exists_sides_of_mem_mergeDuplicates ht
    rw [hSame]
    exact hOther u hu
  by_cases hPos : 0 < e.emptyProbability
  · have hNew : (⟨startId, [emptyId], e.emptyProbability⟩ : Rule α).sides ∉
        (mergeDuplicates options.mergeDuplicates e.rules).map Rule.sides := by
      intro hMem
      obtain ⟨t, ht, hSides⟩ := List.mem_map.1 hMem
      exact hNotMerged t ht (congrArg Prod.snd hSides)
    rw [if_pos hPos, mergeDuplicates_append_singleton,
      mergeInto_of_notMem hNew] at hMerged
    rcases List.mem_append.1 hMerged with hMem | hMem
    · exact absurd hRhs (hNotMerged r hMem)
    · exact ⟨hPos, List.mem_singleton.1 hMem⟩
  · rw [if_neg hPos] at hMerged
    exact absurd hRhs (hNotMerged r hMerged)

/-- The final rules give the empty word the weight of its rule, and else they
give the start symbol the weights that it had. -/
theorem total_finalRules {φ : α → ℝ≥0∞} {good : α → Prop} {e : Emptied α}
    {isTerminal : SymbolId → Bool} {w : List SymbolId}
    (hMerges : Merges φ good options.mergeDuplicates)
    (hGood : ∀ r ∈ e.rules, good r.probability)
    (hProbability : 0 < e.emptyProbability → good e.emptyProbability)
    (hEmpty : isTerminal emptyId = true)
    (hNoStart : ∀ r ∈ e.rules, startId ∉ r.rhs) :
    total isTerminal (valued φ (finalRules options e)) startId w =
      total isTerminal (valued φ e.rules) startId w +
        if w = [] then
          if 0 < e.emptyProbability then φ e.emptyProbability else 0
        else 0 := by
  rw [finalRules, total_collect]
  have hAll := good_of_mem_withEmptyRule hGood hProbability
  by_cases hPos : 0 < e.emptyProbability
  · rw [if_pos hPos] at hAll
    have hNone : ∀ r ∈ valued φ e.rules, startId ∉ r.rhs := by
      intro r hr
      obtain ⟨t, ht, rfl⟩ := List.mem_map.1 hr
      exact hNoStart t ht
    rw [if_pos hPos, if_pos hPos, total_mergeDuplicates hMerges hAll,
      valued_append]
    exact total_emptyRule hEmpty hNone w
  · rw [if_neg hPos, if_neg hPos, total_mergeDuplicates hMerges hGood,
      ite_self, add_zero]

/-- Nothing is left to do but to add the rule for the empty word, if no two
rules have the same sides then, and all left sides are referenced. -/
theorem finalRules_eq {e : Emptied α} {rules : List (Rule α)}
    (hRules : (if 0 < e.emptyProbability then
      e.rules ++ [⟨startId, [emptyId], e.emptyProbability⟩] else e.rules) =
        rules)
    (hNodup : (rules.map Rule.sides).Nodup)
    (hReferenced : ∀ r ∈ rules, isReferenced rules r = true) :
    finalRules options e = rules := by
  rw [finalRules]
  simp only [hRules]
  rw [mergeDuplicates_eq_self hNodup, collect_eq_self hReferenced]

/-- Nothing is left to do if the empty word has no probability, no two rules
have the same sides, and all left sides are referenced. -/
theorem finalRules_eq_self {e : Emptied α} (hNone : ¬ 0 < e.emptyProbability)
    (hNodup : (e.rules.map Rule.sides).Nodup)
    (hReferenced : ∀ r ∈ e.rules, isReferenced e.rules r = true) :
    finalRules options e = e.rules :=
  finalRules_eq (if_neg hNone) hNodup hReferenced

end Final

/-! ## All stages -/

section Stages

variable [Zero α] [One α] [Add α] [Sub α] [Neg α] [Mul α] [Div α]
  [OfScientific α] [LT α] [DecidableLT α] [LE α] [DecidableLE α]
  {options : Options α} {g c : Grammar α} {s : Stage α} {chains : Chains α}

/-- The rules without empty right sides. -/
def shortRules (options : Options α) (s : Stage α) : List (Rule α) :=
  withShortened (.fit options s.rules) s.rules

/-- The stage at which only the final rules are left to be made. -/
def unitFreeStage (options : Options α) (s : Stage α) (chains : Chains α) :
    Emptied α :=
  ⟨s.alphabet, withoutUnits chains s.alphabet (shortRules options s),
    (Erasure.fit options s.rules).probability startId⟩

/-- A grammar is converted, by way of what the second stage leaves and of the
chains of its unit rules. -/
structure Converted (options : Options α) (g : Grammar α) (s : Stage α)
    (chains : Chains α) (c : Grammar α) : Prop where
  split : split g = .ok s
  solve : Chains.solve options s.alphabet (shortRules options s) = .ok chains
  emptied : emptied options g = .ok ⟨s.alphabet, shortRules options s,
    (Erasure.fit options s.rules).probability startId⟩
  result : c =
    ⟨s.alphabet, finalRules options (unitFreeStage options s chains)⟩
  wellFormed : s.alphabet.WellFormed → c.WellFormed

/-- The third stage has the alphabet of the second, and its rules without empty
right sides. -/
theorem removeEmpty_eq_ok {e : Emptied α} (h : removeEmpty options s = .ok e) :
    e = ⟨s.alphabet, shortRules options s,
      (Erasure.fit options s.rules).probability startId⟩ := by
  unfold removeEmpty at h
  dsimp only at h
  split at h
  · cases h
  · cases h
    rfl

theorem emptied_eq_ok {e : Emptied α} (h : emptied options g = .ok e) :
    ∃ s, NormalForm.split g = .ok s ∧ e = ⟨s.alphabet, shortRules options s,
      (Erasure.fit options s.rules).probability startId⟩ := by
  obtain ⟨s, hSplit, h⟩ := bind_eq_ok.1 h
  exact ⟨s, hSplit, removeEmpty_eq_ok h⟩

/-- The fourth stage comes from the second and from the chains. -/
theorem unitFree_eq_ok {final : Emptied α}
    (h : unitFree options g = .ok final) :
    ∃ s chains, NormalForm.split g = .ok s ∧
      Chains.solve options s.alphabet (shortRules options s) = .ok chains ∧
      emptied options g = .ok ⟨s.alphabet, shortRules options s,
        (Erasure.fit options s.rules).probability startId⟩ ∧
      final = unitFreeStage options s chains := by
  obtain ⟨short, hShort, h⟩ := bind_eq_ok.1 h
  obtain ⟨rules, hRules, h⟩ := bind_eq_ok.1 h
  cases h
  obtain ⟨s, hSplit, rfl⟩ := emptied_eq_ok hShort
  have hUnits := mapError_eq_ok.1 hRules
  unfold removeUnits at hUnits
  cases hSolve : Chains.solve options s.alphabet (shortRules options s) with
  | error e =>
      simp [hSolve, Except.map] at hUnits
  | ok chains =>
      simp only [hSolve, Except.map, Except.ok.injEq] at hUnits
      refine ⟨s, chains, hSplit, hSolve, hShort, ?_⟩
      rw [← hUnits]
      rfl

theorem exists_converted (h : result options g = .ok c) :
    ∃ s chains, Converted options g s chains c := by
  obtain ⟨final, hFinal, hResult⟩ := bind_eq_ok.1 h
  obtain ⟨s, chains, hSplit, hSolve, hEmptied, rfl⟩ := unitFree_eq_ok hFinal
  obtain ⟨hRules, hWellFormed⟩ := addRules_eq_ok (mapError_eq_ok.1 hResult)
  refine ⟨s, chains, hSplit, hSolve, hEmptied, hRules,
    fun hal => hWellFormed (Grammar.wellFormed_empty hal)⟩

namespace Converted

/-- Where the fit has to be good enough, it is. -/
theorem converged (h : Converted options g s chains c)
    (hStrict : options.strict = true) :
    (Erasure.fit options s.rules).converged = true := by
  have hEmptied := h.emptied
  rw [NormalForm.emptied, h.split] at hEmptied
  change removeEmpty options s = _ at hEmptied
  unfold removeEmpty at hEmptied
  simp only at hEmptied
  split at hEmptied
  · cases hEmptied
  · rename_i hNot
    simpa [hStrict] using hNot

section Shape

variable (h : Converted options g s chains c) (hg : g.WellFormed)

include h hg

theorem prepared : Prepared g s := prepared_split hg h.split

theorem tidy : Tidy s.alphabet (shortRules options s) :=
  tidy_withShortened (h.prepared hg) _

theorem wellFormed_result : c.WellFormed :=
  h.wellFormed (h.prepared hg).wellFormed

theorem isTerminal_eq : c.alphabet.isTerminal = g.alphabet.isTerminal := by
  rw [h.result]
  exact (h.prepared hg).isTerminal_eq

/-- The result is in normal form. -/
theorem inNormalForm : c.InNormalForm := by
  intro r hr
  rw [h.result] at hr ⊢
  rcases sides_of_mem_finalRules hr with ⟨t, ht, hLhs, hRhs⟩ | ⟨hLhs, hRhs⟩
  · rw [hLhs, hRhs]
    rcases rhs_of_mem_withoutUnits (h.tidy hg) ht with
      hPair | ⟨hStart, x, hOne, hTerminal, _⟩
    · exact .inl hPair
    · exact .inr ⟨hStart, x, hOne, hTerminal⟩
  · exact .inr ⟨hLhs, emptyId, hRhs,
      (h.prepared hg).wellFormed.isTerminal_emptyId⟩

theorem startId_notMem :
    ∀ r ∈ (unitFreeStage options s chains).rules, startId ∉ r.rhs := by
  intro r hr hMem
  rcases rhs_of_mem_withoutUnits (h.tidy hg) hr with
    ⟨x, y, hRhs, hx, hy⟩ | ⟨_, x, hRhs, hTerminal, _⟩
  · rw [hRhs] at hMem
    simp [hx.1.symm, hy.1.symm] at hMem
  · rw [hRhs, List.mem_singleton] at hMem
    rw [← hMem, (h.prepared hg).wellFormed.isTerminal_startId] at hTerminal
    simp at hTerminal

end Shape

/-! ## Weights of the result -/

section Weights

variable {φ : α → ℝ≥0∞} {good : α → Prop}

/-- What the weights of the result depend on: the arithmetic of the numbers,
the factors of the shortened rules, and the chains of the unit rules. -/
structure Faithful (φ : α → ℝ≥0∞) (good : α → Prop) (options : Options α)
    (s : Stage α) (chains : Chains α) : Prop where
  neutral : Neutral φ good
  merges : Merges φ good options.mergeDuplicates
  factors : Factors φ (.fit options s.rules) s.rules
    (totals s.alphabet.isTerminal (valued φ s.rules))
  good_factor : ∀ {x : SymbolId} {p : α},
    (Erasure.fit options s.rules).probability? x = some p →
      ∀ r ∈ s.rules, good (r.probability * p)
  good_empty : 0 < (Erasure.fit options s.rules).probability startId →
    good ((Erasure.fit options s.rules).probability startId)
  renames : Renames φ good s.alphabet chains (shortRules options s)

variable (h : Converted options g s chains c) (hg : g.WellFormed)
  (hGood : ∀ r ∈ g.rules, good r.probability)
  (hFaithful : Faithful φ good options s chains)

include h hg hGood hFaithful

theorem good_shortRules : ∀ r ∈ shortRules options s, good r.probability :=
  good_of_mem_withShortened
    (good_of_mem_split hg h.split hFaithful.neutral.good_one hGood)
    hFaithful.good_factor

theorem good_unitFree :
    ∀ r ∈ (unitFreeStage options s chains).rules, good r.probability :=
  good_of_mem_withoutUnits hFaithful.renames (h.tidy hg)
    (h.good_shortRules hg hGood hFaithful)
    (h.prepared hg).wellFormed.hasId_startId

theorem good_result : ∀ r ∈ c.rules, good r.probability := by
  rw [h.result]
  exact good_of_mem_finalRules hFaithful.merges
    (h.good_unitFree hg hGood hFaithful) hFaithful.good_empty

/-- Without unit rules, and before the rule for the empty word is added, the
empty word has no weight, and all others have what they had. -/
theorem total_unitFree :
    total s.alphabet.isTerminal
        (valued φ (unitFreeStage options s chains).rules) startId =
      erased (total g.alphabet.isTerminal (valued φ g.rules) startId) := by
  have hPrepared := h.prepared hg
  have hShort := h.good_shortRules hg hGood hFaithful
  show total s.alphabet.isTerminal (valued φ (withoutUnits chains s.alphabet
    (shortRules options s))) startId = _
  rw [total_withoutUnits hFaithful.renames (h.tidy hg) hShort
    hPrepared.wellFormed, shortRules, total_withShortened hFaithful.factors
    hPrepared.length hPrepared.plain.noEmpty,
    total_split hg h.split hFaithful.neutral hGood]

/-- The words other than the empty one have the weight that the grammar gives
them, and the empty one has that of its rule. -/
theorem total_eq (w : List SymbolId) :
    total c.alphabet.isTerminal (valued φ c.rules) startId w =
      if w = [] then
        if 0 < (Erasure.fit options s.rules).probability startId then
          φ ((Erasure.fit options s.rules).probability startId)
        else 0
      else total g.alphabet.isTerminal (valued φ g.rules) startId w := by
  have hFinal := total_finalRules (w := w) hFaithful.merges
    (h.good_unitFree hg hGood hFaithful) hFaithful.good_empty
    (h.prepared hg).wellFormed.isTerminal_emptyId (h.startId_notMem hg)
  rw [h.total_unitFree hg hGood hFaithful] at hFinal
  rw [h.result]
  refine hFinal.trans ?_
  by_cases hw : w = []
  · rw [if_pos hw, if_pos hw, hw, erased_nil, zero_add]
    rfl
  · rw [if_neg hw, if_neg hw, erased_of_ne hw, add_zero]

end Weights

end Converted

/-- A conversion ends with the final rules if nothing speaks against them. -/
theorem result_of_finalRules {e : Emptied α} {rules final : List (Rule α)}
    (hEmptied : emptied options g = .ok e)
    (hSolve : Chains.solve options e.alphabet e.rules = .ok chains)
    (hRules : withoutUnits chains e.alphabet e.rules = rules)
    (hFinal : finalRules options ⟨e.alphabet, rules, e.emptyProbability⟩ =
      final)
    (hFault : ∀ r ∈ final, Grammar.ruleFault? e.alphabet r = none) :
    result options g = .ok ⟨e.alphabet, final⟩ := by
  have hUnits : unitFree options g =
      .ok ⟨e.alphabet, rules, e.emptyProbability⟩ := by
    rw [unitFree, hEmptied]
    show ((removeUnits options e.alphabet e.rules).mapError Error.chains
      >>= _) = _
    rw [removeUnits, hSolve, ← hRules]
    rfl
  rw [result, hUnits]
  show ((finalRules options _).foldlM Grammar.addRule
    (.empty e.alphabet)).mapError Error.rule = _
  rw [hFinal, addRules_of_faultless hFault]
  rfl

/-! ## Small conversions -/

/-- A conversion ends with the rules without unit rules if the empty word has
no probability and nothing is left to do. -/
theorem result_eq_ok {e : Emptied α} {rules : List (Rule α)}
    (hEmptied : emptied options g = .ok e)
    (hSolve : Chains.solve options e.alphabet e.rules = .ok chains)
    (hRules : withoutUnits chains e.alphabet e.rules = rules)
    (hNone : ¬ 0 < e.emptyProbability)
    (hNodup : (rules.map Rule.sides).Nodup)
    (hReferenced : ∀ r ∈ rules, isReferenced rules r = true)
    (hFault : ∀ r ∈ rules, Grammar.ruleFault? e.alphabet r = none) :
    result options g = .ok ⟨e.alphabet, rules⟩ :=
  result_of_finalRules hEmptied hSolve hRules
    (finalRules_eq_self hNone hNodup hReferenced) hFault

theorem emptied_detour {p q r : α} :
    emptied options (Grammar.detour p q r) =
      .ok ⟨Grammar.twoSymbols, (Grammar.detour p q r).rules, 0⟩ := by
  show (if options.strict && !true then _ else _) = _
  rw [if_neg (by simp)]
  rfl

/-- The chains of unit rules of the small grammar become one rule. -/
theorem result_detour {p q r : α} (hZero : ¬ (0 : α) < 0)
    (hSolve : Chains.solve options Grammar.twoSymbols
      (Grammar.detour p q r).rules = .ok chains) :
    result options (Grammar.detour p q r) = .ok ⟨Grammar.twoSymbols,
      [⟨startId, [2], chains.rename startId 2⟩]⟩ := by
  refine result_eq_ok emptied_detour hSolve rfl hZero ?_ ?_ ?_
  · simp
  · simp [isReferenced]
  · exact fun s hs => by rw [List.mem_singleton.1 hs]; rfl

theorem emptied_trailing {p : α} :
    emptied options (Grammar.trailing p) =
      .ok ⟨Grammar.oneLetter, [⟨startId, [2], p⟩], 0⟩ := by
  show (if options.strict && !true then _ else _) = _
  rw [if_neg (by simp)]
  rfl

/-- The empty string symbol is left out where it stands beside a letter. -/
theorem result_trailing {p : α} (hZero : ¬ (0 : α) < 0)
    (hSolve : Chains.solve options Grammar.oneLetter [⟨startId, [2], p⟩] =
      .ok chains) :
    result options (Grammar.trailing p) = .ok ⟨Grammar.oneLetter,
      [⟨startId, [2], chains.rename startId 2⟩]⟩ := by
  refine result_eq_ok emptied_trailing hSolve rfl hZero ?_ ?_ ?_
  · simp
  · simp [isReferenced]
  · exact fun s hs => by rw [List.mem_singleton.1 hs]; rfl

/-- The rules of the small grammar with an erasable symbol, once it is erased
nowhere any more. -/
def optionalRules (p r x : α) : List (Rule α) :=
  [⟨startId, [3, 2], p⟩, ⟨3, [2], r⟩, ⟨startId, [2], p * x⟩]

omit [Zero α] [One α] [Add α] [Sub α] [Neg α] [Mul α] [Div α] [OfScientific α]
  [LT α] [DecidableLT α] [LE α] [DecidableLE α] in
theorem erasables_optional (p q r : α) :
    erasables [⟨startId, [3, 2], p⟩, ⟨3, [], q⟩, ⟨3, [2], r⟩] = [3] := by
  rfl

theorem exists_emptied_optional {p q r : α}
    (hStrict : options.strict = false) :
    ∃ x, emptied options (Grammar.optional p q r) =
      .ok ⟨Grammar.twoSymbols, optionalRules p r x, 0⟩ := by
  let rules : List (Rule α) :=
    [⟨startId, [3, 2], p⟩, ⟨3, [], q⟩, ⟨3, [2], r⟩]
  have hErasables : erasables rules = [3] := erasables_optional p q r
  have hNone : ∀ y ≠ 3, (Erasure.fit options rules).probability? y = none := by
    intro y hy
    rwa [probability?_fit_eq_none_iff, hErasables, List.mem_singleton]
  obtain ⟨x, hx⟩ :
      ∃ x, (Erasure.fit options rules).probability? 3 = some x := by
    rw [← Option.ne_none_iff_exists', Ne, probability?_fit_eq_none_iff,
      hErasables]
    simp
  have hShort : withShortened (.fit options rules) rules =
      optionalRules p r x := by
    simp [withShortened, shortened, rules, hx, hNone 2 (by decide),
      optionalRules]
  have hStart : (Erasure.fit options rules).probability startId = 0 := by
    rw [Erasure.probability, hNone startId (by decide)]
    rfl
  refine ⟨x, ?_⟩
  show removeEmpty options ⟨Grammar.twoSymbols, rules⟩ = _
  simp only [removeEmpty, hStrict, Bool.false_and, hShort, hStart]
  rfl

omit [Sub α] [Neg α] [Div α] [OfScientific α] [LT α] [DecidableLT α] [LE α]
  [DecidableLE α] in
theorem withoutUnits_optionalRules (p r x : α) :
    withoutUnits chains Grammar.twoSymbols (optionalRules p r x) =
      [⟨startId, [3, 2], p * chains.rename 3 3 * chains.rename 2 2 *
          chains.rename startId startId⟩,
        ⟨startId, [2, 2], p * chains.rename 3 2 * chains.rename 2 2 *
          chains.rename startId startId⟩,
        ⟨startId, [2], chains.rename startId 2⟩] := by
  rfl

theorem exists_result_optional {p q r : α} (hZero : ¬ (0 : α) < 0)
    (hStrict : options.strict = false)
    (hSolve : ∀ x, ∃ chains, Chains.solve options Grammar.twoSymbols
      (optionalRules p r x) = .ok chains) :
    ∃ c, result options (Grammar.optional p q r) = .ok c := by
  obtain ⟨x, hEmptied⟩ :=
    exists_emptied_optional (p := p) (q := q) (r := r) hStrict
  obtain ⟨chains, hChains⟩ := hSolve x
  refine ⟨_, result_eq_ok hEmptied hChains (withoutUnits_optionalRules p r x)
    hZero ?_ ?_ ?_⟩
  · simp [Rule.sides]
  · simp [isReferenced]
  · simp only [List.forall_mem_cons, List.not_mem_nil, false_implies,
      implies_true, and_true]
    exact ⟨rfl, rfl, rfl⟩

end Stages

end StochasticGrammar.NormalForm
