import StochasticGrammar.Proofs.Grammar.EmptySymbol
import StochasticGrammar.Proofs.NormalForm.Language
import StochasticGrammar.Proofs.NormalForm.Probability
import StochasticGrammar.Proofs.Parse.Earley.Exact

/-!
# The agenda on a grammar and the chart on its normal form

The agenda can work on any grammar, the chart needs a normal form.  What the
two accept is compared for the nonempty inputs.  A rule to the lone empty
string symbol is read as a rule to nothing on both ways.  Where the symbol
stands beside others on a right side, the conversion leaves it out, but for the
agenda it is a terminal, which no input has.

So all that the agenda accepts is accepted by way of the normal form, and both
accept the same if the empty string symbol is a whole right side wherever it
occurs.  Otherwise they may differ: `S -> a e` is a counterexample.

Main results: `Parse.canGenerate_agrees`, `Parse.canGenerate_trailing`.
-/

namespace StochasticGrammar

open NormalForm Weighting
open scoped ENNReal

variable {α : Type} {g : Grammar α}

/-! ## Words and rows of terminals -/

/-- Reading rules to the lone empty string symbol as rules to nothing changes
no weights of words. -/
theorem total_withoutEmptySymbol (hg : g.WellFormed) (φ : α → ℝ≥0∞) :
    total g.alphabet.isTerminal (valued φ g.withoutEmptySymbol.rules) =
      total g.alphabet.isTerminal (valued φ g.rules) := by
  have hTotal := total_stripped (φ := φ) hg.withoutEmptySymbol
  rw [Grammar.stripped_withoutEmptySymbol] at hTotal
  exact hTotal.symm.trans (total_stripped hg)

/-- So it does not change which words are derivable either. -/
theorem exists_derivesWord_withoutEmptySymbol_iff (hg : g.WellFormed)
    {w : List SymbolId} :
    (∃ t, g.withoutEmptySymbol.DerivesWord startId w t) ↔
      ∃ t, g.DerivesWord startId w t := by
  rw [← ParseTree.totals_ne_zero_iff hg.withoutEmptySymbol
      fun _ _ => infinite_ne_zero _,
    ← ParseTree.totals_ne_zero_iff hg fun _ _ => infinite_ne_zero _, totals,
    totals]
  show withLeaves g.alphabet.isTerminal (total g.alphabet.isTerminal
    (valued infinite g.withoutEmptySymbol.rules)) startId w ≠ 0 ↔ _
  rw [total_withoutEmptySymbol hg]

/-- A derivation tree of an input without the empty string symbol is one of
the input as a word. -/
theorem Grammar.Derives.derivesWord {w : List SymbolId}
    (hEmpty : emptyId ∉ w) {t : ParseTree} (h : g.Derives startId w t) :
    g.DerivesWord startId w t := by
  obtain ⟨hDerivation, hSymbol, rfl⟩ := h
  exact ⟨hDerivation, hSymbol, ParseTree.word_eq_yield hEmpty⟩

/-- If the empty string symbol is a whole right side wherever it occurs, the
derivation trees of words are those of inputs, once it was taken out. -/
theorem Grammar.EmptyAlone.derives_iff (h : g.EmptyAlone) {w : List SymbolId}
    (hEmpty : emptyId ∉ w) {t : ParseTree} :
    g.withoutEmptySymbol.Derives startId w t ↔
      g.withoutEmptySymbol.DerivesWord startId w t := by
  refine ⟨Grammar.Derives.derivesWord hEmpty,
    fun ⟨hDerivation, hSymbol, hWord⟩ => ⟨hDerivation, hSymbol, ?_⟩⟩
  have hNone := hDerivation.emptyId_notMem_yield (fun _ hr => h.notMem hr)
    (by rw [hSymbol]; decide)
  rw [← hWord, ParseTree.word_eq_yield hNone]

/-! ## Both parsers -/

section Conversion

variable [Zero α] [One α] [Add α] [Sub α] [Neg α] [Mul α] [Div α]
  [OfScientific α] [LT α] [DecidableLT α] [LE α] [DecidableLE α]
  {options : Options α} {c : Grammar α}

/-- For a nonempty input of terminals other than the empty string symbol both
parsers succeed, one on a grammar and the other on its normal form.  What the
first generates the second does, too; and they generate the same if the empty
string symbol is a whole right side wherever it occurs in the grammar. -/
theorem Parse.canGenerate_agrees (hg : g.WellFormed)
    (hResult : result options g = .ok c) {input : List SymbolId}
    (hInput : ∀ id ∈ input, id ≠ emptyId ∧ g.alphabet.isTerminal id = true)
    (hNil : input ≠ []) :
    ∃ p q, Earley.Parse.make g input = .ok p ∧
      Cyk.Parse.make c input = .ok q ∧
      (p.derivations.canGenerate = true → q.derivations.canGenerate = true) ∧
      (g.EmptyAlone →
        p.derivations.canGenerate = q.derivations.canGenerate) := by
  obtain ⟨p, hMake, hAgenda⟩ := Earley.Parse.canGenerate_make hg hInput
  obtain ⟨q, hMake', hChart⟩ := canGenerate_make_result hg hResult hInput hNil
  have hEmpty : emptyId ∉ input := fun hId => (hInput emptyId hId).1 rfl
  rw [← exists_derivesWord_withoutEmptySymbol_iff hg] at hChart
  refine ⟨p, q, hMake, hMake', fun hGenerate => ?_, fun hAlone => ?_⟩
  · obtain ⟨t, ht⟩ := hAgenda.1 hGenerate
    exact hChart.2 ⟨t, ht.derivesWord hEmpty⟩
  · rw [Bool.eq_iff_iff, hAgenda, hChart]
    exact exists_congr fun t => hAlone.derives_iff hEmpty

end Conversion

theorem Grammar.emptyAlone_optional (p q r : α) :
    (optional p q r).EmptyAlone := by
  intro s hs
  simp only [optional, List.mem_cons, List.not_mem_nil, or_false] at hs
  rcases hs with rfl | rfl | rfl <;> simp [emptyId]

theorem exists_result_exact_optional (p q r : ℝ) :
    ∃ c, result exactOptions (Grammar.optional p q r) = .ok c :=
  exists_result_optional (lt_irrefl 0) rfl (exists_chains_optional p r)

/-- A letter that may be left out does not set them apart. -/
theorem Parse.canGenerate_agrees_optional :
    ∃ c p q,
      result exactOptions (Grammar.optional 1 (1 / 2) (1 / 2)) = .ok c ∧
      Earley.Parse.make (Grammar.optional (1 : ℝ) (1 / 2) (1 / 2)) [2, 2] =
        .ok p ∧
      Cyk.Parse.make c [2, 2] = .ok q ∧
      p.derivations.canGenerate = q.derivations.canGenerate := by
  obtain ⟨c, hResult⟩ := exists_result_exact_optional 1 (1 / 2) (1 / 2)
  obtain ⟨p, q, hMake, hMake', _, hSame⟩ :=
    Parse.canGenerate_agrees (Grammar.wellFormed_optional 1 (1 / 2) (1 / 2))
      hResult
      (by decide : ∀ id ∈ [2, 2], id ≠ emptyId ∧
        Grammar.twoSymbols.isTerminal id = true) (by decide)
  exact ⟨c, p, q, hResult, hMake, hMake',
    hSame (Grammar.emptyAlone_optional 1 (1 / 2) (1 / 2))⟩

/-- The agenda looks for both symbols of the only rule in the input. -/
theorem Grammar.not_derives_trailing {p : α} {t : ParseTree} :
    ¬ (trailing p).withoutEmptySymbol.Derives startId [2] t := by
  rintro ⟨hDerivation, hSymbol, hYield⟩
  have hg := (wellFormed_trailing p).withoutEmptySymbol
  obtain ⟨ix, r, ts, hRule, hSymbols, hBelow, rfl⟩ :=
    hDerivation.exists_branch (hSymbol ▸ hg.alphabet.isTerminal_startId)
  have hOnly : r = ⟨startId, [2, emptyId], p⟩ :=
    List.mem_singleton.1 (List.mem_of_getElem? hRule)
  subst hOnly
  obtain ⟨t, u, rfl⟩ := List.length_eq_two.1
    (by simpa using congrArg List.length hSymbols)
  simp only [List.map_cons, List.map_nil, List.cons.injEq, and_true]
    at hSymbols
  rw [(hBelow t (by simp)).eq_terminal hg (by rw [hSymbols.1]; rfl),
    (hBelow u (by simp)).eq_terminal hg (by rw [hSymbols.2]; rfl)] at hYield
  simp at hYield

/-- After a letter the empty string symbol is a terminal for the agenda, which
finds none in the input; the conversion leaves it out. -/
theorem Parse.canGenerate_trailing :
    ∃ c p q, result exactOptions (Grammar.trailing 1) = .ok c ∧
      Earley.Parse.make (Grammar.trailing (1 : ℝ)) [2] = .ok p ∧
      Cyk.Parse.make c [2] = .ok q ∧
      p.derivations.canGenerate = false ∧
      q.derivations.canGenerate = true := by
  have hg := Grammar.wellFormed_trailing (1 : ℝ)
  have hInput : ∀ id ∈ [2], id ≠ emptyId ∧
      Grammar.oneLetter.isTerminal id = true := by decide
  obtain ⟨chains, hSolve⟩ := exists_chains_trailing 1
  have hResult := result_trailing (lt_irrefl 0) hSolve
  obtain ⟨p, hMake, hAgenda⟩ := Earley.Parse.canGenerate_make hg hInput
  obtain ⟨q, hMake', hChart⟩ :=
    canGenerate_make_result hg hResult hInput (by decide)
  refine ⟨_, p, q, hResult, hMake, hMake', ?_, hChart.2
    ⟨.branch 0 startId [.terminal 2, .terminal emptyId], ?_, rfl, by decide⟩⟩
  · rw [← Bool.not_eq_true, hAgenda]
    rintro ⟨t, ht⟩
    exact Grammar.not_derives_trailing ht
  · refine .branch (r := ⟨startId, [2, emptyId], 1⟩) rfl rfl fun t ht => ?_
    rcases List.mem_pair.1 ht with rfl | rfl
    · exact .terminal rfl
    · exact .terminal rfl

end StochasticGrammar
