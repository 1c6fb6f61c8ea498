import StochasticGrammar.Proofs.NormalForm.Fit
import StochasticGrammar.Proofs.NormalForm.Settled

/-!
# Converting again

In exact arithmetic a grammar that was converted stays the same when it is
converted again, up to the order of its rules, and from then on their order
stays the same too.

The one equation of erasure that is left says that the probability of the empty
string is that of its rule.  No nonterminal is renamed to one, so the system of
the unit rules is minus one and has the unit rules themselves as its solution.

Main results: `result_result`.
-/

namespace StochasticGrammar.NormalForm

noncomputable section

variable {rules : List (Rule ℝ)} {al : Alphabet} {chains : Chains ℝ}
  {options : Options ℝ}

/-! ## Chains -/

theorem unitTotal_eq_zero {x y : SymbolId} (h : (x, y) ∉ renamings rules) :
    unitTotal rules x y = 0 := by
  have hNone : rules.filter (fun r => r.lhs == x && r.rhs == [y]) = [] := by
    refine List.filter_eq_nil_iff.2 fun r hr hBoth => h ?_
    simp only [Bool.and_eq_true, beq_iff_eq] at hBoth
    exact mem_renamings.2 ⟨r, hr, hBoth.1, hBoth.2⟩
  rw [unitTotal, hNone]
  rfl

/-- If unit rules lead to terminals only, chains have one rule at most. -/
theorem rename_eq_unitTotal (hal : al.WellFormed) (hPlain : Plain al rules)
    (hLetters : ∀ r ∈ rules, ∀ t, r.rhs = [t] → al.isTerminal t = true)
    (hExact : IsExact options.solveUnits)
    (hSolve : Chains.solve options al rules = .ok chains) {x y : SymbolId}
    (hx : al.hasId x = true) (hy : al.hasId y = true) :
    chains.rename x y = (if x = y then 1 else 0) + unitTotal rules x y := by
  rw [rename_eq hal hPlain hExact hSolve hx hy, ← unitStep_ite]
  refine congrArg _ (unitStep_congr fun r hr _ t hRhs => ?_)
  -- a terminal has no row
  obtain ⟨totals, rfl, _⟩ := Chains.solve_eq_ok hSolve
  refine rename_of_notMem (fun hMem => ?_) y
  have hTerminal := hLetters r hr t hRhs
  rw [hal.not_isTerminal hMem] at hTerminal
  cases hTerminal

/-! ## Solving what is left -/

/-- The system of unit rules if no nonterminal is renamed to one. -/
def minusOne (n : Nat) : Mat ℝ n n := .ofFn fun i j => if i = j then -1 else 0

/-- Linear systems are solved exactly.  None is better conditioned than minus
one, which has a solution and passes the test if any system does. -/
structure SolvesExactly (options : Options ℝ) : Prop where
  exact : IsExact options.solveUnits
  minusOne_isSome : ∀ n m b, (options.solveUnits n m (minusOne n) b).isSome
  minusOne_regular : ∀ {n a}, options.verdict n a = .regular →
    ∀ m, options.verdict m (minusOne m) = .regular
  finite : ∀ p, options.isFinite p = true

namespace Settled

variable {c : Grammar ℝ} (h : Settled c)

include h

theorem system_eq : (unitMatrix (bodyRules c.rules)
    (c.alphabet.ids .nonterminal) (c.alphabet.ids .nonterminal)).subOne =
      minusOne _ := by
  refine congrArg Mat.ofFn (funext fun i => funext fun j => ?_)
  rw [entry_unitMatrix, unitTotal_eq_zero, Mat.delta, zero_sub]
  · split
    · rfl
    · exact neg_zero
  · intro hEdge
    have hTerminal := (h.eq_startId_of_mem_renamings hEdge).2
    rw [h.wellFormed.alphabet.not_isTerminal (List.get_mem _ j)] at hTerminal
    cases hTerminal

theorem plain_bodyRules : Plain c.alphabet (bodyRules c.rules) where
  known r hr x hx := by
    have hMem := List.mem_of_mem_filter hr
    rcases List.mem_cons.1 hx with rfl | hx
    · exact h.wellFormed.hasId_lhs hMem
    · exact h.wellFormed.hasId_of_mem_rhs hMem hx
  head r hr := h.wellFormed.isTerminal_lhs (List.mem_of_mem_filter hr)
  noEmpty r hr hMem := by
    obtain ⟨hr, hNe⟩ := List.mem_filter.1 hr
    rw [← h.withoutEmpty_eq hr (by simpa using hNe)] at hMem
    simpa using (List.mem_filter.1 hMem).2

theorem unitTotal_eq {r : Rule ℝ} (hr : r ∈ c.rules) {a : SymbolId}
    (hRhs : r.rhs = [a]) (ha : a ≠ emptyId) :
    unitTotal (bodyRules c.rules) r.lhs a = r.probability := by
  have hOwn : (bodyRules c.rules).filter
      (fun s => s.lhs == r.lhs && s.rhs == [a]) = [r] := by
    rw [bodyRules, List.filter_filter, ← filter_sides_eq h.nodup hr, hRhs]
    refine List.filter_congr fun s _ => ?_
    by_cases hSame : s.rhs = [a]
    · simp [hSame, ha]
    · simp [hSame]
  rw [unitTotal, hOwn]
  exact zero_add _

section Rename

variable (hExact : IsExact options.solveUnits) {chains : Chains ℝ}
  (hSolve : Chains.solve options c.alphabet (bodyRules c.rules) = .ok chains)

include hExact hSolve

/-- With renamings that lead to terminals only, there are no longer chains. -/
theorem rename_eq {x y : SymbolId} (hx : c.alphabet.hasId x = true)
    (hy : c.alphabet.hasId y = true) : chains.rename x y =
      (if x = y then 1 else 0) + unitTotal (bodyRules c.rules) x y :=
  rename_eq_unitTotal h.wellFormed.alphabet h.plain_bodyRules
    (fun r hr _ hRhs => (h.eq_startId_of_mem_renamings
      (mem_renamings.2 ⟨r, hr, rfl, hRhs⟩)).2) hExact hSolve hx hy

theorem rename_self {x : SymbolId} (hx : c.alphabet.hasId x = true) :
    chains.rename x x = 1 := by
  rw [h.rename_eq hExact hSolve hx hx, if_pos rfl, unitTotal_eq_zero, add_zero]
  intro hEdge
  obtain ⟨rfl, hTerminal⟩ := h.eq_startId_of_mem_renamings hEdge
  rw [h.wellFormed.alphabet.isTerminal_startId] at hTerminal
  cases hTerminal

theorem rename_letter {r : Rule ℝ} (hr : r ∈ placed c.rules 2) {a : SymbolId}
    (hRhs : r.rhs = [a]) : chains.rename startId a = r.probability := by
  obtain ⟨hMem, hLhs, b, hOne, hb, hNe⟩ := h.letter_of_mem_placed hr
  obtain rfl : b = a := by simpa [hOne] using hRhs
  have hStart : startId ≠ b := by
    rintro rfl
    rw [h.wellFormed.alphabet.isTerminal_startId] at hb
    cases hb
  rw [h.rename_eq hExact hSolve h.wellFormed.alphabet.hasId_startId
    (h.wellFormed.hasId_of_mem_rhs hMem (by simp [hOne])), if_neg hStart,
    zero_add, ← hLhs]
  exact h.unitTotal_eq hMem hOne hNe

end Rename

/-- The last steps put the rule for the empty string at the end. -/
theorem finalRules_arranged {e : Erasure ℝ} (hEmpty : placed c.rules 3 =
    if 0 < e.probability startId then
      [⟨startId, [emptyId], e.probability startId⟩] else []) :
    finalRules options ⟨c.alphabet,
      placed c.rules 0 ++ (placed c.rules 1 ++ placed c.rules 2),
      e.probability startId⟩ = arranged c.rules := by
  have hAll : (if 0 < e.probability startId then
      (placed c.rules 0 ++ (placed c.rules 1 ++ placed c.rules 2)) ++
        [⟨startId, [emptyId], e.probability startId⟩]
      else placed c.rules 0 ++ (placed c.rules 1 ++ placed c.rules 2)) =
        arranged c.rules := by
    rw [arranged, hEmpty]
    split_ifs <;> simp
  exact finalRules_eq hAll h.perm_arranged.nodup h.perm_arranged.referenced

variable (hOptions : SolvesExactly options)
  (hVerdict : ∀ m, options.verdict m (minusOne m) = .regular)

include hOptions hVerdict

/-- The chains are found, and the rules are those that are there. -/
theorem exists_withoutUnits_eq : ∃ chains,
    Chains.solve options c.alphabet (bodyRules c.rules) = .ok chains ∧
      withoutUnits chains c.alphabet (bodyRules c.rules) =
        placed c.rules 0 ++ (placed c.rules 1 ++ placed c.rules 2) := by
  obtain ⟨chains, hSolve⟩ :
      ∃ chains, Chains.solve options c.alphabet (bodyRules c.rules) =
        .ok chains := by
    refine exists_chains_of_regular _ _ ?_ hOptions.finite ?_
    · rw [h.system_eq]
      exact hVerdict _
    · rw [h.system_eq]
      exact hOptions.minusOne_isSome _ _ _
  exact ⟨chains, hSolve, h.withoutUnits_eq
    (fun _ hx => h.rename_self hOptions.exact hSolve hx)
    fun _ hr _ hRhs => h.rename_letter hOptions.exact hSolve hr hRhs⟩

/-- Converting a settled grammar arranges its rules. -/
theorem result_eq {e : Erasure ℝ}
    (hFit : Erasure.fit options (stripped c) = e)
    (hConverged : options.strict = true → e.converged = true)
    (hNone : ∀ x ≠ startId, e.probability? x = none)
    (hEmpty : placed c.rules 3 = if 0 < e.probability startId then
      [⟨startId, [emptyId], e.probability startId⟩] else []) :
    result options c = .ok ⟨c.alphabet, arranged c.rules⟩ := by
  obtain ⟨chains, hSolve, hRules⟩ :=
    h.exists_withoutUnits_eq hOptions hVerdict
  have hEmptied : emptied options c =
      .ok ⟨c.alphabet, bodyRules c.rules, e.probability startId⟩ := by
    have hGoOn : (options.strict && !e.converged) = false := by
      cases hStrict : options.strict with
      | true => simp [hConverged hStrict]
      | false => rfl
    rw [emptied, h.split_eq]
    show removeEmpty options ⟨c.alphabet, stripped c⟩ = _
    simp only [removeEmpty, hFit, hGoOn, Bool.false_eq_true, if_false,
      h.withShortened_eq hNone]
  exact result_of_finalRules hEmptied hSolve hRules
    (h.finalRules_arranged hEmpty) h.perm_arranged.wellFormed.rules

end Settled

/-! ## The rule for the empty string -/

/-- A fit finds the probability of the empty string if its rule is all there
is. -/
def FindsEmpty (options : Options ℝ) (p : ℝ) : Prop :=
  (Erasure.fit options [⟨startId, [], p⟩]).probability startId = p

theorem erasables_emptyRule (p : ℝ) :
    erasables [(⟨startId, [], p⟩ : Rule ℝ)] = [startId] := rfl

/-- Then the fit is good enough. -/
theorem FindsEmpty.converged {p : ℝ} (h : FindsEmpty options p)
    (hTolerance : 0 ≤ options.limits.tolerance) (hRange : 0 ≤ p ∧ p ≤ 1) :
    (Erasure.fit options [⟨startId, [], p⟩]).converged = true := by
  have hFound : (Erasure.fit options [⟨startId, [], p⟩]).probability startId =
      p := h
  refine converged_fit (by simp) hTolerance ?_ ?_ <;>
    simp only [erasables_emptyRule, List.mem_singleton, forall_eq, hFound]
  · simp [nilStep, nilTerm]
  · exact hRange

/-- A settled grammar is converted to its own rules if its rule for the empty
string can be found again. -/
theorem Settled.result_arranged {c : Grammar ℝ} (h : Settled c)
    (hOptions : SolvesExactly options)
    (hVerdict : ∀ m, options.verdict m (minusOne m) = .regular)
    (hEmpty : ∀ r ∈ c.rules, r.rhs = [emptyId] →
      0 < r.probability ∧ r.probability ≤ 1 ∧
        FindsEmpty options r.probability ∧
          (options.strict = true → 0 ≤ options.limits.tolerance)) :
    result options c = .ok ⟨c.alphabet, arranged c.rules⟩ := by
  by_cases hNone : ∀ r ∈ c.rules, r.rhs ≠ [emptyId]
  · refine h.result_eq hOptions hVerdict (h.fit_eq_nothing options hNone)
      (fun _ => rfl) (fun _ _ => rfl) ?_
    rw [placed_three, List.filter_eq_nil_iff.2 (by simpa using hNone), if_neg]
    exact lt_irrefl 0
  · push Not at hNone
    obtain ⟨r, hr, hRhs⟩ := hNone
    obtain ⟨hPos, hLe, hFinds, hTolerance⟩ := hEmpty r hr hRhs
    refine h.result_eq hOptions hVerdict (h.fit_eq hr hRhs options)
      (fun hStrict => hFinds.converged (hTolerance hStrict) ⟨hPos.le, hLe⟩)
      (fun x hx => ?_) ?_
    · rw [probability?_fit_eq_none_iff, erasables_emptyRule]
      simpa using hx
    · have hFound : (Erasure.fit options
          [⟨startId, [], r.probability⟩]).probability startId =
            r.probability := hFinds
      rw [placed_three, h.filter_emptyRule hr hRhs, hFound, if_pos hPos,
        ← hRhs, ← h.lhs_eq hr hRhs]

/-! ## The result of a result -/

/-- The rule for the empty string has a probability, and then the start symbol
was erasable. -/
theorem Converted.pos_of_emptyRule {g c : Grammar ℝ} {s : Stage ℝ}
    (h : Converted options g s chains c) (hg : g.WellFormed) {r : Rule ℝ}
    (hr : r ∈ c.rules) (hRhs : r.rhs = [emptyId]) :
    0 < r.probability ∧ startId ∈ erasables s.rules := by
  have hOther : ∀ t ∈ (unitFreeStage options s chains).rules,
      t.rhs ≠ [emptyId] := by
    intro t ht hEmpty
    rcases rhs_of_mem_withoutUnits (h.tidy hg) ht with
      ⟨x, y, hPair, _⟩ | ⟨_, x, hOne, _, hNe⟩
    · simp [hPair] at hEmpty
    · simp [hOne, hNe] at hEmpty
  rw [h.result] at hr
  obtain ⟨hPos, rfl⟩ := emptyRule_of_mem_finalRules hOther hr hRhs
  refine ⟨hPos, ?_⟩
  by_contra hNot
  have hZero : (Erasure.fit options s.rules).probability startId = 0 := by
    rw [Erasure.probability, probability?_fit_eq_none_iff.2 hNot]
    rfl
  exact absurd hZero hPos.ne'

/-- Converting the result of a conversion changes nothing but the order of the
rules, and converting once more does not change their order either. -/
theorem result_result {g c : Grammar ℝ} (hg : g.WellFormed)
    (hOptions : SolvesExactly options) (hResult : result options g = .ok c)
    (hEmpty : ∀ r ∈ c.rules, r.rhs = [emptyId] →
      r.probability ≤ 1 ∧ FindsEmpty options r.probability) :
    ∃ d, result options c = .ok d ∧ d.alphabet = c.alphabet ∧
      d.rules.Perm c.rules ∧ (d.rules.map Rule.sides).Nodup ∧
        result options d = .ok d := by
  obtain ⟨s, chains, hConverted⟩ := exists_converted hResult
  have hSettled := hConverted.settled hg
  have hVerdict : ∀ m, options.verdict m (minusOne m) = .regular :=
    hOptions.minusOne_regular (Chains.verdict_of_solve hConverted.solve)
  have hRule : ∀ r ∈ c.rules, r.rhs = [emptyId] →
      0 < r.probability ∧ r.probability ≤ 1 ∧
        FindsEmpty options r.probability ∧
          (options.strict = true → 0 ≤ options.limits.tolerance) := by
    intro r hr hRhs
    obtain ⟨hLe, hFinds⟩ := hEmpty r hr hRhs
    obtain ⟨hPos, hStart⟩ := hConverted.pos_of_emptyRule hg hr hRhs
    exact ⟨hPos, hLe, hFinds, fun hStrict => tolerance_nonneg
      (List.ne_nil_of_mem hStart) (hConverted.converged hStrict)⟩
  have hPerm := perm_arranged c.rules
  refine ⟨_, hSettled.result_arranged hOptions hVerdict hRule, rfl, hPerm,
    hSettled.perm_arranged.nodup, ?_⟩
  have hAgain := hSettled.perm_arranged.result_arranged hOptions hVerdict
    fun r hr => hRule r (hPerm.subset hr)
  rwa [arranged_arranged] at hAgain

/-! ## A small grammar -/

theorem solvesExactly_exactOptions : SolvesExactly exactOptions where
  exact := isExact_solveByInverse
  minusOne_isSome n m b := by
    have hMatrix : toMatrix (minusOne n) = -1 := by
      ext i j
      simp only [toMatrix, minusOne, Matrix.of_apply, Mat.entry_ofFn,
        Matrix.neg_apply, Matrix.one_apply]
      split
      · rfl
      · exact neg_zero.symm
    refine isSome_solveByInverse ?_
    rw [hMatrix, Matrix.det_neg, Matrix.det_one, mul_one]
    exact (isUnit_one.neg).pow _
  minusOne_regular _ _ := rfl
  finite _ := rfl

/-- A letter or nothing, with the letter by way of another symbol: `S -> A`,
`S -> e` and `A -> a`. -/
def letterOrNothing (p q r : ℝ) : Grammar ℝ where
  alphabet := Grammar.twoSymbols
  rules := [⟨startId, [3], p⟩, ⟨startId, [emptyId], q⟩, ⟨3, [2], r⟩]

theorem wellFormed_letterOrNothing (p q r : ℝ) :
    (letterOrNothing p q r).WellFormed := by
  refine ⟨Grammar.wellFormed_twoSymbols, fun s hs => ?_⟩
  simp only [letterOrNothing, List.mem_cons, List.not_mem_nil, or_false] at hs
  rcases hs with rfl | rfl | rfl <;> rfl

/-- Without iterations, a fit ends where it starts. -/
theorem probability_exactOptions {rules : List (Rule ℝ)} {x : SymbolId}
    (hx : x ∈ erasables rules) :
    (Erasure.fit exactOptions rules).probability x = 1 / 2 := by
  obtain ⟨i, rfl⟩ := List.get_of_mem hx
  rw [← entry_fit]
  show (fitStart (α := ℝ) (erasables rules).length).entry i = 1 / 2
  rw [fitStart, Vec.entry_ofFn]
  norm_num

theorem emptied_letterOrNothing (p q r : ℝ) :
    emptied exactOptions (letterOrNothing p q r) =
      .ok ⟨Grammar.twoSymbols, [⟨startId, [3], p⟩, ⟨3, [2], r⟩], 1 / 2⟩ := by
  have hStart : erasables (stripped (letterOrNothing p q r)) = [startId] := rfl
  have hHalf : (Erasure.fit exactOptions
      (stripped (letterOrNothing p q r))).probability startId = 1 / 2 :=
    probability_exactOptions (by simp [hStart])
  rw [← hHalf]
  rfl

theorem exists_result_letterOrNothing : ∃ p,
    result exactOptions (letterOrNothing (1 / 2) (1 / 2) 1) =
      .ok ⟨Grammar.twoSymbols,
        [⟨startId, [2], p⟩, ⟨startId, [emptyId], 1 / 2⟩]⟩ := by
  let short : List (Rule ℝ) := [⟨startId, [3], 1 / 2⟩, ⟨3, [2], 1⟩]
  obtain ⟨chains, hSolve⟩ : ∃ chains,
      Chains.solve exactOptions Grammar.twoSymbols short = .ok chains := by
    refine exists_chains_of_isUnit (isUnit_pair ?_)
    simp [unitTotal, short, startId]
  have hFinal : finalRules exactOptions ⟨Grammar.twoSymbols,
      [⟨startId, [2], chains.rename startId 2⟩], 1 / 2⟩ =
      [⟨startId, [2], chains.rename startId 2⟩,
        ⟨startId, [emptyId], 1 / 2⟩] := by
    refine finalRules_eq ?_ ?_ ?_
    · norm_num
    · simp [Rule.sides, emptyId]
    · simp [isReferenced]
  refine ⟨chains.rename startId 2,
    result_of_finalRules (emptied_letterOrNothing _ _ _) hSolve rfl hFinal
      ?_⟩
  simp only [List.forall_mem_cons, List.not_mem_nil, false_implies,
    implies_true, and_true]
  exact ⟨rfl, rfl⟩

/-- The grammar is converted, and its result is converted to itself. -/
theorem result_result_letterOrNothing : ∃ c d,
    result exactOptions (letterOrNothing (1 / 2) (1 / 2) 1) = .ok c ∧
      result exactOptions c = .ok d ∧ d.alphabet = c.alphabet ∧
        d.rules.Perm c.rules ∧ (d.rules.map Rule.sides).Nodup ∧
          result exactOptions d = .ok d := by
  obtain ⟨p, hResult⟩ := exists_result_letterOrNothing
  obtain ⟨d, h⟩ := result_result (wellFormed_letterOrNothing _ _ _)
    solvesExactly_exactOptions hResult fun r hr hRhs => by
      simp only [List.mem_cons, List.not_mem_nil, or_false] at hr
      rcases hr with rfl | rfl
      · simp [emptyId] at hRhs
      · exact ⟨by norm_num, probability_exactOptions (by decide)⟩
  exact ⟨_, d, hResult, h⟩

end

end StochasticGrammar.NormalForm
