import StochasticGrammar.Proofs.Alphabet.FreshLabel
import StochasticGrammar.Proofs.NormalForm.Result

/-!
# How a conversion can fail

A conversion makes fresh symbols, looks symbols up and adds rules, and each of
these could fail.  For a grammar that was put together from symbols and rules
none of them does:

* fresh labels are unused, and words, since the labels they are made from are
  (`exists_split`);
* the symbols that unit rules lead to are symbols of the alphabet, so they all
  have rows and columns in the table of chains (`closed_emptied`);
* the rules of the result have symbols of the alphabet, and their left sides
  are nonterminals (`faultless_finalRules`).

What is left are failures of the numbers: a fit that has not converged, or
chains of unit rules whose probabilities cannot be found.

Main results: `error_of_result`, `closed_emptied`.
-/

namespace StochasticGrammar.NormalForm

variable {α : Type}

/-! ## Fresh symbols -/

theorem grown_self {g : Grammar α} (hg : g.Built) :
    g.alphabet.Grown g.alphabet :=
  .refl hg.wellFormed.alphabet hg.isLabel

theorem exists_isolateStart {al : Alphabet} (hal : al.Grown al)
    (rules : List (Rule α)) :
    ∃ s, isolateStart al rules = .ok s ∧ al.Grown s.alphabet := by
  have hLabel : Alphabet.isLabel startLabel = true := by decide
  obtain ⟨copy, extended, hAdd, hGrown⟩ :=
    Alphabet.exists_add_freshLabel hal hLabel
  unfold isolateStart
  split
  · refine ⟨⟨extended, copyStart copy rules⟩, ?_, hGrown⟩
    rw [hAdd]
    rfl
  · exact ⟨⟨al, rules⟩, rfl, hal⟩

theorem exists_addFresh {base : String}
    (hBase : Alphabet.isLabel base = true) {n : Nat} :
    ∀ {al : Alphabet}, al.Grown al →
      ∃ ids extended, addFresh base n al = .ok (ids, extended) ∧
        al.Grown extended := by
  induction n with
  | zero => exact fun {al} hal => ⟨[], al, rfl, hal⟩
  | succ n ih =>
      intro al hal
      obtain ⟨id, mid, hAdd, hMid⟩ := Alphabet.exists_add_freshLabel hal hBase
      obtain ⟨ids, extended, hRest, hGrown⟩ := ih hMid.self
      refine ⟨id :: ids, extended, ?_, hMid.trans hGrown⟩
      rw [addFresh, hAdd]
      show (addFresh base n mid >>= _) = _
      rw [hRest]
      rfl

/-- A symbol of an alphabet has a label. -/
theorem exists_label {al : Alphabet} (hal : al.Grown al) {id : SymbolId}
    (hId : al.hasId id = true) :
    ∃ label, al.label id = .ok label ∧ Alphabet.isLabel label = true := by
  obtain ⟨s, hs⟩ := Option.isSome_iff_exists.1 hId
  refine ⟨s.label, ?_, hal.isLabel s (List.mem_of_find?_eq_some hs)⟩
  rw [Alphabet.label, Alphabet.symbol, hs]
  rfl

section Split

variable [One α]

theorem exists_splitRules (long : List (Rule α)) :
    ∀ {al : Alphabet}, al.Grown al →
      (∀ r ∈ long, al.hasId r.lhs = true) →
      ∃ extended chains, splitRules al long = .ok (extended, chains) ∧
        al.Grown extended := by
  induction long with
  | nil => exact fun {al} hal _ => ⟨al, [], rfl, hal⟩
  | cons r long ih =>
      intro al hal hIds
      obtain ⟨base, hLabel, hBase⟩ := exists_label hal (hIds r (by simp))
      obtain ⟨ids, mid, hFresh, hMid⟩ :=
        exists_addFresh hBase (n := r.rhs.length - 2) hal
      obtain ⟨extended, chains, hRest, hGrown⟩ :=
        ih hMid.self fun s hs =>
          hMid.hasId_mono (hIds s (by simp [hs]))
      have hFirst : splitRule al r =
          .ok (mid, chain r.lhs r.probability r.rhs ids) := by
        rw [splitRule, hLabel]
        show (addFresh base (r.rhs.length - 2) al >>= _) = _
        rw [hFresh]
        rfl
      refine ⟨extended, chain r.lhs r.probability r.rhs ids ++ chains, ?_,
        hMid.trans hGrown⟩
      rw [splitRules, hFirst]
      show (splitRules mid long >>= _) = _
      rw [hRest]
      rfl

/-- The first two stages succeed. -/
theorem exists_split {g : Grammar α} (hg : g.Built) :
    ∃ s, split g = .ok s ∧ g.alphabet.Grown s.alphabet := by
  obtain ⟨t, hIsolate, hGrown⟩ :=
    exists_isolateStart (grown_self hg) (stripped g)
  obtain ⟨ids, hFresh, hSides, _⟩ :=
    sides_of_isolateStart hg.wellFormed.alphabet hIsolate
  have hPlain := (plain_stripped hg.wellFormed).extend hFresh hSides
  obtain ⟨extended, chains, hSplit, hMore⟩ :=
    exists_splitRules (t.rules.filter isLong) hGrown.self fun r hr =>
      hPlain.known r (List.mem_of_mem_filter hr) r.lhs (by simp)
  refine ⟨⟨extended, t.rules.filter (!isLong ·) ++ chains⟩, ?_,
    hGrown.trans hMore⟩
  rw [split, isolated, hIsolate]
  show ((splitLong t).mapError Error.symbol) = _
  rw [splitLong, hSplit]
  rfl

end Split

/-! ## Looking symbols up -/

/-- Rules whose symbols, and all symbols that unit rules lead to, are found
where they are looked for: left sides among the rows, the others among the
columns of the table of chains. -/
structure Closed (al : Alphabet) (rules : List (Rule α)) : Prop where
  start : startId ∈ columns al
  lhs : ∀ r ∈ rules, r.lhs ∈ al.ids .nonterminal
  rhs : ∀ r ∈ rules, ∀ x ∈ r.rhs, x ∈ columns al
  renamed : ∀ x ∈ columns al, ∀ y ∈ unitClosure (renamings rules) x,
    y ∈ columns al

theorem mem_nonterminals {al : Alphabet} {id : SymbolId}
    (hId : al.hasId id = true) (hHead : al.isTerminal id = false) :
    id ∈ al.ids .nonterminal := by
  rcases (Alphabet.hasId_iff_mem_ids al id).1 hId with hMem | hMem
  · exact hMem
  · rw [(Alphabet.isTerminal_iff al id).2 hMem] at hHead
    cases hHead

theorem Plain.lhs_ne_emptyId {al : Alphabet} {rules : List (Rule α)}
    (h : Plain al rules) (hal : al.WellFormed) :
    ∀ r ∈ rules, r.lhs ≠ emptyId := by
  intro r hr hEq
  have hTerminal := h.head r hr
  rw [hEq, hal.isTerminal_emptyId] at hTerminal
  cases hTerminal

theorem closed_of_plain {al : Alphabet} {rules : List (Rule α)}
    (hal : al.WellFormed) (h : Plain al rules) : Closed al rules where
  start := mem_columns.2 hal.hasId_startId
  lhs r hr := mem_nonterminals (h.known r hr r.lhs (by simp)) (h.head r hr)
  rhs r hr x hx := mem_columns.2 (h.known r hr x (by simp [hx]))
  renamed x hx y hy :=
    mem_columns.2 (h.hasId_of_mem_unitClosure (mem_columns.1 hx) y hy)

/-- Chains from every nonterminal to every symbol are in the table. -/
theorem isSome_total? [Zero α] [One α] [Add α] [Sub α] [Neg α]
    {options : Options α} {al : Alphabet} {rules : List (Rule α)}
    {chains : Chains α} (h : Chains.solve options al rules = .ok chains)
    {x y : SymbolId} (hx : x ∈ al.ids .nonterminal) (hy : y ∈ columns al) :
    (chains.total? x y).isSome = true := by
  obtain ⟨totals, rfl, _⟩ := Chains.solve_eq_ok h
  have hRow : ((al.ids .nonterminal).findFinIdx? (· == x)).isSome = true := by
    rw [List.isSome_findFinIdx?, List.any_eq_true]
    exact ⟨x, hx, beq_self_eq_true x⟩
  have hColumn : ((columns al).findFinIdx? (· == y)).isSome = true := by
    rw [List.isSome_findFinIdx?, List.any_eq_true]
    exact ⟨y, hy, beq_self_eq_true y⟩
  obtain ⟨i, hi⟩ := Option.isSome_iff_exists.1 hRow
  obtain ⟨j, hj⟩ := Option.isSome_iff_exists.1 hColumn
  simp [Chains.total?, hi, hj]

/-! ## Accepting the rules -/

/-- Nothing speaks against the rules without unit rules. -/
theorem faultless_withoutUnits [Zero α] [One α] [Add α] [Mul α] {al : Alphabet}
    {rules : List (Rule α)} {c : Chains α} (hal : al.WellFormed)
    (h : Tidy al rules) :
    ∀ r ∈ withoutUnits c al rules, Grammar.ruleFault? al r = none := by
  have hPairs : ∀ r ∈ spreadRules c rules,
      (∀ x ∈ r.lhs :: r.rhs, al.hasId x = true) ∧
        al.isTerminal r.lhs = false := by
    intro r hr
    obtain ⟨s, hs, x, y, hRhs, x', hx', y', hy', rfl⟩ :=
      exists_of_mem_spreadRules hr
    have hOver := h.known s hs
    have hFirst :=
      h.hasId_of_mem_unitClosure (hOver x (by simp [hRhs])) x' hx'
    have hSecond :=
      h.hasId_of_mem_unitClosure (hOver y (by simp [hRhs])) y' hy'
    exact ⟨by simp [hOver s.lhs, hFirst, hSecond], h.head s hs⟩
  have hStart := hal.hasId_startId
  intro r hr
  rw [Grammar.ruleFault?_eq_none_iff]
  rcases mem_withoutUnits_cases h hr with
    hPair | ⟨x, hx, ⟨_, _, rfl⟩ | ⟨s, hs, rfl⟩⟩
  · exact hPairs r hPair
  · have hTarget := h.hasId_of_mem_unitClosure hStart x hx
    exact ⟨by simp [hStart, hTarget], hal.isTerminal_startId⟩
  · obtain ⟨hIds, _⟩ := hPairs s hs
    exact ⟨List.forall_mem_cons.2 ⟨hStart, (List.forall_mem_cons.1 hIds).2⟩,
      hal.isTerminal_startId⟩

/-- Nothing speaks against the rules of the result. -/
theorem faultless_finalRules [Zero α] [Add α] [LT α] [DecidableLT α]
    {options : Options α} {e : Emptied α} (hal : e.alphabet.WellFormed)
    (h : ∀ r ∈ e.rules, Grammar.ruleFault? e.alphabet r = none) :
    ∀ r ∈ finalRules options e, Grammar.ruleFault? e.alphabet r = none := by
  have hEmpty : Grammar.ruleFault? e.alphabet
      ⟨startId, [emptyId], e.emptyProbability⟩ = none := by
    have hId := (Alphabet.hasId_iff_mem_ids e.alphabet emptyId).2
      (.inr hal.empty_mem)
    rw [Grammar.ruleFault?_eq_none_iff]
    exact ⟨by simp [hal.hasId_startId, hId], hal.isTerminal_startId⟩
  intro r hr
  rw [Grammar.ruleFault?_eq_none_iff]
  rcases sides_of_mem_finalRules hr with ⟨t, ht, hLhs, hRhs⟩ | ⟨hLhs, hRhs⟩
  · rw [hLhs, hRhs]
    exact Grammar.ruleFault?_eq_none_iff.1 (h t ht)
  · rw [hLhs, hRhs]
    exact Grammar.ruleFault?_eq_none_iff.1 hEmpty

/-! ## The whole conversion -/

section Result

variable [Zero α] [One α] [Add α] [Sub α] [Neg α] [Mul α] [Div α]
  [OfScientific α] [LT α] [DecidableLT α] [LE α] [DecidableLE α]
  {options : Options α} {g : Grammar α}

theorem wellFormed_emptied (hg : g.WellFormed) {e : Emptied α}
    (h : emptied options g = .ok e) : e.alphabet.WellFormed := by
  obtain ⟨s, hSplit, rfl⟩ := emptied_eq_ok h
  exact (prepared_split hg hSplit).wellFormed

/-- The rules of the third stage find their symbols. -/
theorem closed_emptied (hg : g.WellFormed) {e : Emptied α}
    (h : emptied options g = .ok e) : Closed e.alphabet e.rules := by
  obtain ⟨s, hSplit, rfl⟩ := emptied_eq_ok h
  have hPrepared := prepared_split hg hSplit
  exact closed_of_plain hPrepared.wellFormed
    (tidy_withShortened hPrepared _).toPlain

/-- If no symbol is erasable, the third stage does not depend on any number. -/
theorem emptied_of_erasables_nil {s : Stage α} (hSplit : split g = .ok s)
    (hNone : erasables s.rules = []) :
    emptied options g =
      .ok ⟨s.alphabet, withShortened .nothing s.rules, 0⟩ := by
  rw [emptied, hSplit]
  show removeEmpty options s = _
  simp only [removeEmpty, fit_of_erasables_nil hNone, Erasure.nothing,
    Bool.not_true, Bool.and_false, Bool.false_eq_true, if_false]
  rfl

theorem removeEmpty_eq_error {s : Stage α} {e : Error α}
    (h : removeEmpty options s = .error e) :
    ∃ residual iterations evaluations,
      e = .notConverged residual iterations evaluations := by
  unfold removeEmpty at h
  dsimp only at h
  split at h
  · cases h
    exact ⟨_, _, _, rfl⟩
  · cases h

theorem error_of_unitFree (hg : g.Built) {e : Error α}
    (h : unitFree options g = .error e) :
    (∃ residual iterations evaluations,
      e = .notConverged residual iterations evaluations) ∨
        ∃ reason, e = .chains reason := by
  rcases bind_eq_error.1 h with h | ⟨s, _, h⟩
  · rcases bind_eq_error.1 h with h | ⟨s, _, h⟩
    · obtain ⟨s, hSplit, _⟩ := exists_split hg
      rw [hSplit] at h
      cases h
    · exact .inl (removeEmpty_eq_error h)
  · rcases bind_eq_error.1 h with h | ⟨rules, _, h⟩
    · obtain ⟨reason, _, rfl⟩ := mapError_eq_error.1 h
      exact .inr ⟨reason, rfl⟩
    · cases h

/-- A conversion fails only because of its numbers. -/
theorem error_of_result (hg : g.Built) {e : Error α}
    (h : result options g = .error e) :
    (∃ residual iterations evaluations,
      e = .notConverged residual iterations evaluations) ∨
        ∃ reason, e = .chains reason := by
  rcases bind_eq_error.1 h with h | ⟨final, hFinal, h⟩
  · exact error_of_unitFree hg h
  · obtain ⟨s, chains, hSplit, _, _, rfl⟩ := unitFree_eq_ok hFinal
    have hPrepared := prepared_split hg.wellFormed hSplit
    have hFault := faultless_withoutUnits (c := chains) hPrepared.wellFormed
      (tidy_withShortened hPrepared (.fit options s.rules))
    have hAll : ∀ r ∈ finalRules options (unitFreeStage options s chains),
        Grammar.ruleFault? s.alphabet r = none :=
      faultless_finalRules hPrepared.wellFormed hFault
    rw [addRules_of_faultless hAll] at h
    cases h

/-- A conversion succeeds if the probabilities of its chains can be found. -/
theorem exists_result (hg : g.WellFormed) {e : Emptied α} {chains : Chains α}
    (hEmptied : emptied options g = .ok e)
    (hSolve : Chains.solve options e.alphabet e.rules = .ok chains) :
    ∃ c, result options g = .ok c := by
  obtain ⟨s, hSplit, rfl⟩ := emptied_eq_ok hEmptied
  have hPrepared := prepared_split hg hSplit
  have hFault := faultless_withoutUnits (c := chains) hPrepared.wellFormed
    (tidy_withShortened hPrepared (.fit options s.rules))
  exact ⟨_, result_of_finalRules hEmptied hSolve rfl rfl
    (faultless_finalRules hPrepared.wellFormed hFault)⟩

theorem emptied_ne_chains {reason : ChainError} :
    emptied options g ≠ .error (.chains reason) := by
  intro h
  rcases bind_eq_error.1 h with h | ⟨s, _, h⟩
  · rcases bind_eq_error.1 h with h | ⟨t, _, h⟩
    · obtain ⟨_, _, hReason⟩ := mapError_eq_error.1 h
      cases hReason
    · obtain ⟨_, _, hReason⟩ := mapError_eq_error.1 h
      cases hReason
  · obtain ⟨_, _, _, hReason⟩ := removeEmpty_eq_error h
    cases hReason

/-- A conversion fails because of its chains exactly if it gets to them and
their probabilities cannot be found. -/
theorem result_eq_chains_iff {reason : ChainError} :
    result options g = .error (.chains reason) ↔
      ∃ e, emptied options g = .ok e ∧
        Chains.solve options e.alphabet e.rules = .error reason := by
  constructor
  · intro h
    rcases bind_eq_error.1 h with h | ⟨_, _, h⟩
    · rcases bind_eq_error.1 h with h | ⟨e, hEmptied, h⟩
      · exact absurd h emptied_ne_chains
      · rcases bind_eq_error.1 h with h | ⟨_, _, h⟩
        · obtain ⟨_, hUnits, hReason⟩ := mapError_eq_error.1 h
          cases hReason
          exact ⟨e, hEmptied, map_eq_error.1 hUnits⟩
        · cases h
    · obtain ⟨_, _, hReason⟩ := mapError_eq_error.1 h
      cases hReason
  · rintro ⟨e, hEmptied, hSolve⟩
    refine bind_eq_error.2 (.inl (bind_eq_error.2 (.inr ⟨e, hEmptied, ?_⟩)))
    exact bind_eq_error.2
      (.inl (mapError_eq_error.2 ⟨reason, map_eq_error.2 hSolve, rfl⟩))

end Result

/-! ## Undefined systems -/

/-- The probabilities of chains are undefined exactly if the test of their
system fails. -/
theorem solve_eq_undefined_iff [Zero α] [One α] [Add α] [Sub α] [Neg α]
    {options : Options α} {al : Alphabet} {rules : List (Rule α)} :
    Chains.solve options al rules = .error .undefined ↔
      options.verdict _ (unitMatrix rules (al.ids .nonterminal)
        (al.ids .nonterminal)).subOne = .undefined := by
  unfold Chains.solve
  dsimp only
  split
  · simp [*]
  · simp [*]
  · rename_i hRegular
    rw [hRegular]
    split
    · simp
    · split <;> simp

end StochasticGrammar.NormalForm

namespace StochasticGrammar.LinearAlgebra

/-- The test of a floating-point system fails exactly if its condition number
cannot be found. -/
theorem verdict_eq_undefined_iff {l : LinearAlgebra} {minRcond : Float}
    {n : Nat} {a : Mat Float n n} (hn : n ≠ 0) :
    l.verdict minRcond n a = .undefined ↔ l.condition? n a = none := by
  unfold verdict
  rw [if_neg hn]
  cases l.condition? n a with
  | none => simp
  | some condition =>
      dsimp only
      split <;> simp

/-- No condition number is found for a matrix with an entry that is not a
number. -/
def RefusesNotNumbers (l : LinearAlgebra) : Prop :=
  ∀ (n : Nat) (a : Mat Float n n),
    NormalForm.anyEntry Float.isNaN a = true → l.condition? n a = none

theorem refusesNotNumbers_standard : standard.RefusesNotNumbers :=
  fun _ _ hEntry => if_pos hEntry

end StochasticGrammar.LinearAlgebra
