import StochasticGrammar.Proofs.NormalForm.Erasable
import StochasticGrammar.Proofs.NormalForm.Result

/-!
# Grammars that are in normal form already

What a conversion leaves is settled: every stage of another conversion finds
nothing to do.  The rule for the empty string is taken apart and put together
again, the letters of the start symbol are found again by way of its chains,
and the rules come out in the order in which a conversion puts them
(`arranged`), which is a permutation and the same after the first time.

Main results: `Converted.settled`, `arranged_arranged`,
`Settled.withoutUnits_eq`.
-/

namespace StochasticGrammar.NormalForm

variable {α : Type}

/-- A grammar as a conversion leaves it. -/
structure Settled (c : Grammar α) : Prop where
  wellFormed : c.WellFormed
  startId_notMem : ∀ r ∈ c.rules, startId ∉ r.rhs
  rhs : ∀ r ∈ c.rules,
    (∃ x y, r.rhs = [x, y] ∧ x ≠ emptyId ∧ y ≠ emptyId) ∨
    (r.lhs = startId ∧ ∃ a, r.rhs = [a] ∧ c.alphabet.isTerminal a = true ∧
      a ≠ emptyId) ∨
    (r.lhs = startId ∧ r.rhs = [emptyId])
  nodup : (c.rules.map Rule.sides).Nodup
  referenced : ∀ r ∈ c.rules, isReferenced c.rules r = true

/-- What a conversion leaves is settled. -/
theorem Converted.settled [Zero α] [One α] [Add α] [Sub α] [Neg α] [Mul α]
    [Div α] [OfScientific α] [LT α] [DecidableLT α] [LE α] [DecidableLE α]
    {options : Options α} {g c : Grammar α} {s : Stage α} {chains : Chains α}
    (h : Converted options g s chains c) (hg : g.WellFormed) : Settled c := by
  have hRules : c.rules = finalRules options (unitFreeStage options s chains) :=
    congrArg Grammar.rules h.result
  have hAlphabet : c.alphabet = s.alphabet := congrArg Grammar.alphabet h.result
  refine ⟨h.wellFormed_result hg, ?_, ?_, ?_, ?_⟩
  · intro r hr
    rw [hRules] at hr
    rcases sides_of_mem_finalRules hr with ⟨t, ht, _, hRhs⟩ | ⟨_, hRhs⟩
    · rw [hRhs]
      exact h.startId_notMem hg t ht
    · simp [hRhs, startId, emptyId]
  · intro r hr
    rw [hRules] at hr
    rcases sides_of_mem_finalRules hr with ⟨t, ht, hLhs, hRhs⟩ | hEmpty
    · rw [hLhs, hRhs, hAlphabet]
      rcases rhs_of_mem_withoutUnits (h.tidy hg) ht with
        ⟨x, y, hPair, hx, hy⟩ | hOne
      · exact .inl ⟨x, y, hPair, hx.2, hy.2⟩
      · exact .inr (.inl hOne)
    · exact .inr (.inr hEmpty)
  · rw [hRules]
    exact nodup_sides_mergeDuplicates.sublist ((sublist_collect _).map _)
  · rw [hRules]
    exact fun r hr => isReferenced_of_mem_collect _ hr

/-! ## The order of the rules -/

/-- The rules other than those to the empty string symbol. -/
def bodyRules (rules : List (Rule α)) : List (Rule α) :=
  rules.filter (·.rhs != [emptyId])

/-- Where a conversion puts a rule: first the pairs of the nonterminals, then
those of the start symbol, then the letters, and last the empty string. -/
def place (r : Rule α) : Nat :=
  if r.rhs = [emptyId] then 3
  else if r.rhs.length = 1 then 2
  else if r.lhs = startId then 1
  else 0

/-- The rules at a place. -/
def placed (rules : List (Rule α)) (k : Nat) : List (Rule α) :=
  rules.filter (place · == k)

/-- The rules in the order of their places. -/
def arranged (rules : List (Rule α)) : List (Rule α) :=
  placed rules 0 ++ (placed rules 1 ++ (placed rules 2 ++ placed rules 3))

theorem place_of_length_two {r : Rule α} (h : r.rhs.length = 2) :
    place r = if r.lhs = startId then 1 else 0 := by
  have hNe : r.rhs ≠ [emptyId] := fun hRhs => by simp [hRhs] at h
  simp [place, hNe, h]

theorem place_of_length_one {r : Rule α} (h : r.rhs.length = 1) :
    place r = if r.rhs = [emptyId] then 3 else 2 := by
  simp [place, h]

theorem placed_three (rules : List (Rule α)) :
    placed rules 3 = rules.filter (·.rhs == [emptyId]) := by
  refine List.filter_congr fun r _ => ?_
  unfold place
  split_ifs with hEmpty <;> simp [hEmpty]

theorem placed_placed (rules : List (Rule α)) (j k : Nat) :
    placed (placed rules j) k = if j = k then placed rules k else [] := by
  unfold placed
  rw [List.filter_filter]
  by_cases h : j = k
  · simp [h]
  · rw [if_neg h, List.filter_eq_nil_iff]
    intro r _
    simp only [Bool.and_eq_true, beq_iff_eq, not_and]
    omega

theorem placed_arranged (rules : List (Rule α)) {k : Nat} (h : k < 4) :
    placed (arranged rules) k = placed rules k := by
  have hAppend : ∀ rs more : List (Rule α),
      placed (rs ++ more) k = placed rs k ++ placed more k :=
    fun rs more => List.filter_append ..
  rw [arranged, hAppend, hAppend, hAppend]
  simp only [placed_placed]
  match k, h with
  | 0, _ | 1, _ | 2, _ | 3, _ => simp

theorem arranged_arranged (rules : List (Rule α)) :
    arranged (arranged rules) = arranged rules := by
  have hSame : ∀ k < 4, placed (arranged rules) k = placed rules k :=
    fun k hk => placed_arranged rules hk
  rw [arranged, hSame 0 (by decide), hSame 1 (by decide), hSame 2 (by decide),
    hSame 3 (by decide), ← arranged]

theorem perm_arranged (rules : List (Rule α)) :
    (arranged rules).Perm rules := by
  induction rules with
  | nil => exact List.Perm.refl []
  | cons r rules ih =>
      refine List.Perm.trans ?_ (ih.cons r)
      have hMiddle : ∀ before after : List (Rule α),
          (before ++ r :: after).Perm (r :: (before ++ after)) :=
        fun _ _ => List.perm_middle
      have hPlace : place r = 0 ∨ place r = 1 ∨ place r = 2 ∨ place r = 3 := by
        unfold place
        split_ifs <;> simp
      unfold arranged
      rcases hPlace with h | h | h | h
      · simp [placed, h]
      · simp [placed, h]
      · simpa [placed, h] using hMiddle (placed rules 0 ++ placed rules 1) _
      · simpa [placed, h] using
          hMiddle (placed rules 0 ++ placed rules 1 ++ placed rules 2) _

/-- If no two rules have the same sides, a rule is found by its sides. -/
theorem filter_sides_eq {rules : List (Rule α)}
    (hNodup : (rules.map Rule.sides).Nodup) {r : Rule α} (hr : r ∈ rules) :
    rules.filter (fun s => s.lhs == r.lhs && s.rhs == r.rhs) = [r] := by
  obtain ⟨before, after, rfl⟩ := List.append_of_mem hr
  rw [List.map_append, List.map_cons, List.nodup_middle, List.nodup_cons,
    ← List.map_append] at hNodup
  have hOther : ∀ s ∈ before ++ after,
      ¬ (s.lhs == r.lhs && s.rhs == r.rhs) = true := by
    intro s hs hSame
    simp only [Bool.and_eq_true, beq_iff_eq] at hSame
    have hSides : s.sides = r.sides := Prod.ext hSame.1 hSame.2
    exact hNodup.1 (hSides ▸ List.mem_map_of_mem hs)
  rw [List.filter_append, List.filter_cons,
    List.filter_eq_nil_iff.2 fun s hs => hOther s (by simp [hs]),
    List.filter_eq_nil_iff.2 fun s hs => hOther s (by simp [hs])]
  simp

/-! ## The erasure system reads the rules over erasable symbols -/

section System

variable [Zero α] [Add α] {rules : List (Rule α)} {symbols : List SymbolId}

theorem mem_of_lastPosition? {x : SymbolId} {i : Nat}
    (h : lastPosition? symbols x = some i) : x ∈ symbols := by
  obtain ⟨q, hLast, _⟩ := Option.map_eq_some_iff.1 h
  obtain ⟨hAt, hSymbol⟩ := List.mem_filter.1 (List.mem_of_getLast? hLast)
  rw [← eq_of_beq hSymbol]
  exact List.fst_mem_of_mem_zipIdx hAt

/-- An entry of the system sums over rules with erasable symbols only. -/
theorem sumWhere_filter {p q : Rule α → Bool}
    (hp : ∀ r ∈ rules, (∀ t ∈ r.lhs :: r.rhs, t ∈ symbols) → p r = true)
    (hq : ∀ r, q r = true → ∀ t ∈ r.rhs, t ∈ symbols) (i : Nat) :
    sumWhere ((rules.filter p).filter fun r =>
        lastPosition? symbols r.lhs == some i) q =
      sumWhere (rules.filter fun r =>
        lastPosition? symbols r.lhs == some i) q := by
  rw [sumWhere, sumWhere, List.filter_filter, List.filter_filter,
    List.filter_filter]
  refine congrArg (List.foldl _ 0) (List.filter_congr fun r hr => ?_)
  by_cases hAt : lastPosition? symbols r.lhs = some i
  · by_cases hMatch : q r = true
    · have hOver : p r = true := hp r hr
        (List.forall_mem_cons.2 ⟨mem_of_lastPosition? hAt, hq r hMatch⟩)
      simp [hOver]
    · simp [hMatch]
  · simp [hAt]

/-- Rules with a symbol that is not erasable may be left out. -/
theorem erasureSystem_filter {p : Rule α → Bool}
    (hp : ∀ r ∈ rules, (∀ t ∈ r.lhs :: r.rhs, t ∈ symbols) → p r = true) :
    erasureSystem (rules.filter p) symbols = erasureSystem rules symbols := by
  have hLast : ∀ {t : SymbolId} {j : Fin symbols.length},
      (lastPosition? symbols t == some j.val) = true → t ∈ symbols :=
    fun h => mem_of_lastPosition? (eq_of_beq h)
  unfold erasureSystem
  simp only [ErasureSystem.mk.injEq]
  refine ⟨congrArg Vector.ofFn (funext fun i =>
      sumWhere_filter hp (fun r hr => ?_) i),
    congrArg Vector.ofFn (funext fun i => congrArg Vector.ofFn
      (funext fun j => sumWhere_filter hp (fun r hr => ?_) i)),
    congrArg Vector.ofFn (funext fun i => congrArg Mat.ofFn
      (funext fun j => funext fun k =>
        sumWhere_filter hp (fun r hr => ?_) i))⟩
  · simp [List.isEmpty_iff.1 hr]
  · split at hr
    · rename_i t hRhs
      simpa [hRhs] using hLast hr
    · cases hr
  · split at hr
    · rename_i t u hRhs
      obtain ⟨ht, hu⟩ := Bool.and_eq_true_iff.1 hr
      simpa [hRhs] using ⟨hLast ht, hLast hu⟩
    · cases hr

/-- A fit is determined by the rules over erasable symbols. -/
theorem fit_filter [One α] [Sub α] [Neg α] [Mul α] [Div α] [OfScientific α]
    [LT α] [DecidableLT α] [LE α] [DecidableLE α] {options : Options α}
    {p : Rule α → Bool}
    (hErasables : erasables (rules.filter p) = erasables rules)
    (hp : ∀ r ∈ rules, (∀ t ∈ r.lhs :: r.rhs, t ∈ erasables rules) →
      p r = true) :
    Erasure.fit options (rules.filter p) = Erasure.fit options rules := by
  unfold Erasure.fit
  generalize erasables (rules.filter p) = symbols at hErasables
  subst hErasables
  simp only [erasureSystem_filter hp]

end System

/-! ## The stages before the unit rules go -/

namespace Settled

variable {c : Grammar α} (h : Settled c)

include h

/-- The order of the rules does not matter. -/
theorem of_perm {rules : List (Rule α)} (hPerm : rules.Perm c.rules) :
    Settled ⟨c.alphabet, rules⟩ where
  wellFormed := ⟨h.wellFormed.alphabet,
    fun r hr => h.wellFormed.rules r (hPerm.subset hr)⟩
  startId_notMem r hr := h.startId_notMem r (hPerm.subset hr)
  rhs r hr := h.rhs r (hPerm.subset hr)
  nodup := (hPerm.map Rule.sides).nodup_iff.2 h.nodup
  referenced r hr := by
    rw [isReferenced, hPerm.any_eq]
    exact h.referenced r (hPerm.subset hr)

theorem perm_arranged : Settled ⟨c.alphabet, arranged c.rules⟩ :=
  h.of_perm (NormalForm.perm_arranged c.rules)

theorem withoutEmpty_eq {r : Rule α} (hr : r ∈ c.rules)
    (hRhs : r.rhs ≠ [emptyId]) : r.withoutEmpty = r := by
  have hKeep : r.rhs.filter (· != emptyId) = r.rhs := by
    rcases h.rhs r hr with ⟨x, y, hPair, hx, hy⟩ | ⟨_, a, hOne, _, ha⟩ | hEmpty
    · simp [hPair, hx, hy]
    · simp [hOne, ha]
    · exact absurd hEmpty.2 hRhs
  rw [Rule.withoutEmpty, hKeep]

theorem length_rhs {r : Rule α} (hr : r ∈ c.rules) :
    r.rhs.length = 1 ∨ r.rhs.length = 2 := by
  rcases h.rhs r hr with ⟨x, y, hPair, _⟩ | ⟨_, a, hOne, _⟩ | hEmpty
  · exact .inr (by simp [hPair])
  · exact .inl (by simp [hOne])
  · exact .inl (by simp [hEmpty.2])

/-- A right side becomes empty exactly if it is the empty string symbol. -/
theorem isEmpty_withoutEmpty {r : Rule α} (hr : r ∈ c.rules) :
    r.withoutEmpty.rhs.isEmpty = (r.rhs == [emptyId]) := by
  by_cases hRhs : r.rhs = [emptyId]
  · simp [Rule.withoutEmpty, hRhs]
  · have hLength := h.length_rhs hr
    rw [h.withoutEmpty_eq hr hRhs]
    cases hCons : r.rhs with
    | nil => simp [hCons] at hLength
    | cons x rest => simpa [hCons] using hRhs

theorem rhs_stripped {r : Rule α} (hr : r ∈ stripped c) :
    startId ∉ r.rhs ∧ r.rhs.length ≤ 2 := by
  obtain ⟨s, hs, rfl⟩ := List.mem_map.1 hr
  refine ⟨fun hMem => h.startId_notMem s hs (List.mem_of_mem_filter hMem), ?_⟩
  have hLength := List.length_filter_le (· != emptyId) s.rhs
  have := h.length_rhs hs
  show (s.rhs.filter (· != emptyId)).length ≤ 2
  omega

/-- The first two stages have nothing to do but to leave out the empty string
symbol. -/
theorem split_eq [One α] : split c = .ok ⟨c.alphabet, stripped c⟩ := by
  have hIsolate : isolateStart c.alphabet (stripped c) =
      .ok ⟨c.alphabet, stripped c⟩ := by
    unfold isolateStart
    rw [if_neg]
    · rfl
    · simp only [List.any_eq_true, List.contains_iff_mem]
      rintro ⟨r, hr, hMem⟩
      exact (h.rhs_stripped hr).1 hMem
  have hShort : ∀ r ∈ stripped c, isLong r = false := by
    intro r hr
    have := (h.rhs_stripped hr).2
    simpa [isLong] using this
  have hNone : (stripped c).filter isLong = [] :=
    List.filter_eq_nil_iff.2 fun r hr => by simp [hShort r hr]
  have hAll : (stripped c).filter (!isLong ·) = stripped c :=
    List.filter_eq_self.2 fun r hr => by simp [hShort r hr]
  rw [NormalForm.split, isolated, hIsolate]
  show (splitLong ⟨c.alphabet, stripped c⟩).mapError Error.symbol = _
  rw [splitLong, hNone, hAll]
  show Except.ok _ = _
  rw [List.append_nil]

/-- No rule has a shortened version, and the empty right side goes. -/
theorem withShortened_eq [Mul α] {e : Erasure α}
    (hErasure : ∀ x ≠ startId, e.probability? x = none) :
    withShortened e (stripped c) = bodyRules c.rules := by
  have hKept : (stripped c).filter (!·.rhs.isEmpty) = bodyRules c.rules := by
    have hBody : c.rules.filter ((!·.rhs.isEmpty) ∘ Rule.withoutEmpty) =
        bodyRules c.rules :=
      List.filter_congr fun r hr => congrArg not (h.isEmpty_withoutEmpty hr)
    rw [stripped, List.filter_map, hBody]
    refine (List.map_congr_left fun r hr => ?_).trans (List.map_id _)
    obtain ⟨hMem, hRhs⟩ := List.mem_filter.1 hr
    exact h.withoutEmpty_eq hMem (by simpa using hRhs)
  have hNone : (bodyRules c.rules).flatMap (shortened e) = [] := by
    refine List.flatMap_eq_nil_iff.2 fun r hr => ?_
    have hStart := h.startId_notMem r (List.mem_of_mem_filter hr)
    unfold shortened
    split
    · rename_i x y hRhs
      rw [hRhs] at hStart
      simp only [List.mem_cons, List.not_mem_nil, or_false, not_or] at hStart
      rw [hErasure x (Ne.symm hStart.1), hErasure y (Ne.symm hStart.2)]
      rfl
    · rfl
  rw [withShortened, hKept, hNone, List.append_nil]

/-- Only the start symbol may be erasable. -/
theorem erasables_subset : ∀ x ∈ erasables (stripped c), x = startId := by
  refine erasables_induction fun r hr hAll => ?_
  obtain ⟨s, hs, rfl⟩ := List.mem_map.1 hr
  by_cases hRhs : s.rhs = [emptyId]
  · rcases h.rhs s hs with ⟨x, y, hPair, _⟩ | ⟨_, a, hOne, _, ha⟩ | hEmpty
    · simp [hPair] at hRhs
    · rw [hOne] at hRhs
      simp [ha] at hRhs
    · exact hEmpty.1
  · -- what stands on the right is not the start symbol
    rw [h.withoutEmpty_eq hs hRhs] at hAll
    have hLength := h.length_rhs hs
    obtain ⟨x, hx⟩ : ∃ x, x ∈ s.rhs :=
      List.exists_mem_of_length_pos (by omega)
    exact absurd (hAll x hx ▸ hx) (h.startId_notMem s hs)

/-- Without a rule for the empty string there is nothing to erase. -/
theorem fit_eq_nothing [Zero α] [One α] [Add α] [Sub α] [Neg α] [Mul α]
    [Div α] [OfScientific α] [LT α] [DecidableLT α] [LE α] [DecidableLE α]
    (options : Options α) (hNone : ∀ r ∈ c.rules, r.rhs ≠ [emptyId]) :
    Erasure.fit options (stripped c) = .nothing := by
  have hErasables : erasables (stripped c) = [] := by
    refine List.eq_nil_iff_forall_not_mem.2 (erasables_induction ?_)
    intro r hr hAll
    obtain ⟨s, hs, rfl⟩ := List.mem_map.1 hr
    rw [h.withoutEmpty_eq hs (hNone s hs)] at hAll
    have hLength := h.length_rhs hs
    obtain ⟨x, hx⟩ : ∃ x, x ∈ s.rhs :=
      List.exists_mem_of_length_pos (by omega)
    exact hAll x hx
  exact fit_of_erasables_nil hErasables

section EmptyRule

variable {r : Rule α} (hr : r ∈ c.rules) (hRhs : r.rhs = [emptyId])

include hr hRhs

theorem lhs_eq : r.lhs = startId := by
  rcases h.rhs r hr with ⟨x, y, hPair, _⟩ | ⟨hLhs, _⟩ | ⟨hLhs, _⟩
  · simp [hPair] at hRhs
  · exact hLhs
  · exact hLhs

/-- There is one rule for the empty string at most. -/
theorem filter_emptyRule :
    c.rules.filter (·.rhs == [emptyId]) = [r] := by
  rw [← filter_sides_eq h.nodup hr]
  refine List.filter_congr fun s hs => ?_
  rw [hRhs, Bool.eq_iff_iff, Bool.and_eq_true, beq_iff_eq, beq_iff_eq,
    iff_and_self, h.lhs_eq hr hRhs]
  exact h.lhs_eq hs

theorem filter_stripped : (stripped c).filter (·.rhs.isEmpty) =
    [⟨startId, [], r.probability⟩] := by
  have hEmpty : c.rules.filter ((·.rhs.isEmpty) ∘ Rule.withoutEmpty) =
      c.rules.filter (·.rhs == [emptyId]) :=
    List.filter_congr fun s hs => h.isEmpty_withoutEmpty hs
  rw [stripped, List.filter_map, hEmpty,
    h.filter_emptyRule hr hRhs, List.map_singleton, Rule.withoutEmpty,
    h.lhs_eq hr hRhs, hRhs]
  rfl

theorem erasables_stripped : erasables (stripped c) = [startId] := by
  have hStart : startId ∈ erasables (stripped c) := by
    have hRule : (⟨startId, [], r.probability⟩ : Rule α) ∈ stripped c := by
      have hMem := List.mem_singleton_self
        (⟨startId, [], r.probability⟩ : Rule α)
      rw [← h.filter_stripped hr hRhs] at hMem
      exact List.mem_of_mem_filter hMem
    exact eraseClosed_erasables _ _ hRule (by simp)
  refine List.perm_singleton.1 ((List.perm_ext_iff_of_nodup
    (nodup_erasables _) (List.nodup_singleton _)).2 fun x => ?_)
  rw [List.mem_singleton]
  exact ⟨h.erasables_subset x, fun hx => hx ▸ hStart⟩

/-- The fit solves the equation of the rule for the empty string. -/
theorem fit_eq [Zero α] [One α] [Add α] [Sub α] [Neg α] [Mul α] [Div α]
    [OfScientific α] [LT α] [DecidableLT α] [LE α] [DecidableLE α]
    (options : Options α) : Erasure.fit options (stripped c) =
      Erasure.fit options [⟨startId, [], r.probability⟩] := by
  rw [← h.filter_stripped hr hRhs]
  refine (fit_filter ?_ ?_).symm
  · rw [h.filter_stripped hr hRhs, h.erasables_stripped hr hRhs]
    rfl
  · intro s hs hAll
    have hNot := (h.rhs_stripped hs).1
    cases hCons : s.rhs with
    | nil => rfl
    | cons x rest =>
        rw [h.erasables_stripped hr hRhs, hCons] at hAll
        have hx : x = startId := by simpa using hAll x (by simp)
        simp [hCons, hx] at hNot

end EmptyRule

/-! ## Unit rules -/

/-- A rule other than that for the empty string leads to two symbols, or from
the start symbol to a terminal. -/
theorem rhs_of_mem_bodyRules {r : Rule α} (hr : r ∈ bodyRules c.rules) :
    (∃ x y, r.rhs = [x, y]) ∨
      (r.lhs = startId ∧ ∃ a, r.rhs = [a] ∧
        c.alphabet.isTerminal a = true ∧ a ≠ emptyId) := by
  obtain ⟨hMem, hRhs⟩ := List.mem_filter.1 hr
  rcases h.rhs r hMem with ⟨x, y, hPair, _⟩ | hOne | ⟨_, hEmpty⟩
  · exact .inl ⟨x, y, hPair⟩
  · exact .inr hOne
  · simp [hEmpty] at hRhs

/-- Every renaming leads from the start symbol to a terminal. -/
theorem eq_startId_of_mem_renamings {x y : SymbolId}
    (hEdge : (x, y) ∈ renamings (bodyRules c.rules)) :
    x = startId ∧ c.alphabet.isTerminal y = true := by
  obtain ⟨r, hr, rfl, hRhs⟩ := mem_renamings.1 hEdge
  rcases h.rhs_of_mem_bodyRules hr with ⟨t, u, hPair⟩ | ⟨hLhs, a, hOne, ha, _⟩
  · simp [hPair] at hRhs
  · rw [hOne, List.cons.injEq] at hRhs
    exact ⟨hLhs, hRhs.1 ▸ ha⟩

/-- The start symbol is renamed to its letters, in the order of the rules. -/
theorem targetsOf_startId :
    targetsOf (renamings (bodyRules c.rules)) startId =
      (placed c.rules 2).flatMap Rule.rhs := by
  have hAll : ∀ rs ⊆ c.rules,
      targetsOf (renamings (bodyRules rs)) startId =
        (placed rs 2).flatMap Rule.rhs := by
    intro rs
    induction rs with
    | nil => exact fun _ => rfl
    | cons r rs ih =>
        intro hSubset
        obtain ⟨hr, hSubset⟩ := List.cons_subset.1 hSubset
        have ih := ih hSubset
        unfold targetsOf renamings bodyRules placed at ih ⊢
        rcases h.rhs r hr with ⟨x, y, hPair, _⟩ | ⟨hLhs, a, hOne, _, ha⟩ |
          ⟨_, hEmpty⟩
        · have hPlace : place r ≠ 2 := by
            simp only [place, hPair]
            split_ifs <;> simp_all
          simpa [hPair, hPlace] using ih
        · have hPlace : place r = 2 := by simp [place, hOne, ha]
          simpa [hOne, ha, hLhs, hPlace] using ih
        · have hPlace : place r ≠ 2 := by simp [place, hEmpty]
          simpa [hEmpty, hPlace] using ih
  exact hAll c.rules (List.Subset.refl _)

/-- The rules at the third place lead from the start symbol to letters. -/
theorem letter_of_mem_placed {r : Rule α} (hr : r ∈ placed c.rules 2) :
    r ∈ c.rules ∧ r.lhs = startId ∧ ∃ a, r.rhs = [a] ∧
      c.alphabet.isTerminal a = true ∧ a ≠ emptyId := by
  obtain ⟨hMem, hPlace⟩ := List.mem_filter.1 hr
  refine ⟨hMem, ?_⟩
  rcases h.rhs r hMem with ⟨x, y, hPair, _⟩ | hOne | ⟨_, hEmpty⟩
  · rw [place_of_length_two (by simp [hPair])] at hPlace
    split_ifs at hPlace <;> simp at hPlace
  · exact hOne
  · simp [place, hEmpty] at hPlace

/-- What the start symbol can be renamed to. -/
theorem unitClosure_startId :
    unitClosure (renamings (bodyRules c.rules)) startId =
      startId :: (placed c.rules 2).flatMap Rule.rhs := by
  have hTerminal : ∀ a ∈ (placed c.rules 2).flatMap Rule.rhs,
      c.alphabet.isTerminal a = true := by
    intro a ha
    obtain ⟨r, hr, ha⟩ := List.mem_flatMap.1 ha
    obtain ⟨_, _, b, hRhs, hb, _⟩ := h.letter_of_mem_placed hr
    rw [hRhs, List.mem_singleton] at ha
    rwa [ha]
  have hNot : ∀ a ∈ (placed c.rules 2).flatMap Rule.rhs, a ≠ startId := by
    intro a ha hEq
    have hStart := hTerminal a ha
    rw [hEq, h.wellFormed.alphabet.isTerminal_startId] at hStart
    cases hStart
  have hSides : ((placed c.rules 2).flatMap Rule.rhs).map
      (fun a => (startId, [a])) = (placed c.rules 2).map Rule.sides := by
    rw [List.map_flatMap, List.map_eq_flatMap]
    refine List.flatMap_congr fun r hr => ?_
    obtain ⟨_, hLhs, a, hRhs, _⟩ := h.letter_of_mem_placed hr
    simp [Rule.sides, hLhs, hRhs]
  have hNodup : ((placed c.rules 2).flatMap Rule.rhs).Nodup := by
    refine List.Nodup.of_map (fun a => (startId, [a])) ?_
    rw [hSides]
    exact h.nodup.sublist (List.filter_sublist.map _)
  rw [unitClosure_eq_cons, h.targetsOf_startId]
  · rw [h.targetsOf_startId, List.nodup_cons]
    exact ⟨fun hMem => hNot _ hMem rfl, hNodup⟩
  · intro a ha
    rw [h.targetsOf_startId] at ha
    refine List.eq_nil_iff_forall_not_mem.2 fun y hy => hNot a ha ?_
    exact (h.eq_startId_of_mem_renamings (mem_targetsOf.1 hy)).1

/-- No other symbol can be renamed. -/
theorem unitClosure_of_ne_startId {x : SymbolId} (hx : x ≠ startId) :
    unitClosure (renamings (bodyRules c.rules)) x = [x] := by
  have hNone : targetsOf (renamings (bodyRules c.rules)) x = [] := by
    refine List.eq_nil_iff_forall_not_mem.2 fun y hy => hx ?_
    exact (h.eq_startId_of_mem_renamings (mem_targetsOf.1 hy)).1
  rw [unitClosure_eq_cons (by simp [hNone]) (by simp [hNone]), hNone]

section Chains

variable [Semiring α] {chains : Chains α}

omit [Semiring α] in
theorem filter_pairRules {k : Nat} (hk : k < 2) {p : Rule α → Bool}
    (hp : ∀ r, p r = ((if r.lhs = startId then 1 else 0) == k)) :
    (pairRules c.rules).filter p = placed c.rules k := by
  rw [pairRules, List.filter_filter]
  refine List.filter_congr fun r hr => ?_
  rw [hp]
  rcases h.length_rhs hr with hLength | hLength
  · rw [place_of_length_one hLength]
    split_ifs <;> simp [hLength] <;> omega
  · rw [place_of_length_two hLength]
    simp [hLength]

/-- A pair is left alone if symbols are renamed to themselves with probability
one. -/
theorem renamed_pair
    (hStay : ∀ x, c.alphabet.hasId x = true → chains.rename x x = 1)
    {r : Rule α} (hr : r ∈ c.rules) {x y : SymbolId} (hPair : r.rhs = [x, y]) :
    renamed chains (renamings (bodyRules c.rules)) r = [r] := by
  have hStart := h.startId_notMem r hr
  have hKnown : ∀ t ∈ r.rhs, chains.rename t t = 1 := fun t ht =>
    hStay t (h.wellFormed.hasId_of_mem_rhs hr ht)
  have hAlone : ∀ t ∈ r.rhs,
      unitClosure (renamings (bodyRules c.rules)) t = [t] := fun t ht =>
    h.unitClosure_of_ne_startId fun hEq => hStart (hEq ▸ ht)
  have hSame : (⟨r.lhs, [x, y], r.probability⟩ : Rule α) = r := by
    rw [← hPair]
  rw [hPair] at hKnown hAlone
  simp [renamed, hPair, hAlone x (by simp), hAlone y (by simp),
    hKnown x (by simp), hKnown y (by simp), hSame]

/-- All pairs are left alone, and no other rule is taken for one. -/
theorem flatMap_renamed
    (hStay : ∀ x, c.alphabet.hasId x = true → chains.rename x x = 1) :
    (bodyRules c.rules).flatMap
        (renamed chains (renamings (bodyRules c.rules))) =
      pairRules c.rules := by
  have hPairs : ∀ r ∈ c.rules, ∀ x y, r.rhs = [x, y] →
      renamed chains (renamings (bodyRules c.rules)) r = [r] :=
    fun r hr x y hPair => h.renamed_pair hStay hr hPair
  generalize renamings (bodyRules c.rules) = edges at hPairs ⊢
  have hAll : ∀ rs ⊆ c.rules,
      (bodyRules rs).flatMap (renamed chains edges) = pairRules rs := by
    intro rs
    induction rs with
    | nil => exact fun _ => rfl
    | cons r rs ih =>
        intro hSubset
        obtain ⟨hr, hSubset⟩ := List.cons_subset.1 hSubset
        have ih := ih hSubset
        unfold bodyRules pairRules at ih ⊢
        rcases h.rhs r hr with ⟨x, y, hPair, _⟩ | ⟨_, a, hOne, _, ha⟩ |
          ⟨_, hEmpty⟩
        · simpa [hPair, hPairs r hr x y hPair] using ih
        · simpa [renamed, hOne, ha] using ih
        · simpa [hEmpty] using ih
  exact hAll c.rules (List.Subset.refl _)

/-- The start symbol takes over its own pairs as they are. -/
theorem takenOver_startId
    (hStay : ∀ x, c.alphabet.hasId x = true → chains.rename x x = 1) :
    takenOver chains c.alphabet (pairRules c.rules) startId =
      placed c.rules 1 := by
  have hOwn : (pairRules c.rules).filter (·.lhs == startId) =
      placed c.rules 1 :=
    h.filter_pairRules (by decide) fun r => by
      by_cases hLhs : r.lhs = startId <;> simp [hLhs]
  have hNot := h.wellFormed.alphabet.isTerminal_startId
  have hOne := hStay startId h.wellFormed.alphabet.hasId_startId
  unfold takenOver
  simp only [hNot, Bool.false_eq_true, if_false, hOwn, hOne, mul_one]
  refine (List.map_congr_left fun r hr => ?_).trans (List.map_id _)
  have hLhs : r.lhs = startId := by
    rw [← hOwn] at hr
    exact eq_of_beq (List.mem_filter.1 hr).2
  rw [← hLhs]
  rfl

/-- The start symbol takes over its letters as they are. -/
theorem flatMap_takenOver
    (hLetter : ∀ r ∈ placed c.rules 2, ∀ a, r.rhs = [a] →
      chains.rename startId a = r.probability) :
    ((placed c.rules 2).flatMap Rule.rhs).flatMap
        (takenOver chains c.alphabet (pairRules c.rules)) =
      placed c.rules 2 := by
  rw [List.flatMap_assoc]
  refine Eq.trans (List.flatMap_congr fun r hr => ?_)
    (List.flatMap_singleton' _)
  obtain ⟨_, hLhs, a, hRhs, ha, hNe⟩ := h.letter_of_mem_placed hr
  rw [hRhs, List.flatMap_singleton]
  unfold takenOver
  simp only [ha, if_true, if_neg hNe, hLetter r hr a hRhs]
  rw [← hLhs, ← hRhs]

/-- The unit rules of the start symbol, and they alone, are made again. -/
theorem withoutUnits_eq
    (hStay : ∀ x, c.alphabet.hasId x = true → chains.rename x x = 1)
    (hLetter : ∀ r ∈ placed c.rules 2, ∀ a, r.rhs = [a] →
      chains.rename startId a = r.probability) :
    withoutUnits chains c.alphabet (bodyRules c.rules) =
      placed c.rules 0 ++ (placed c.rules 1 ++ placed c.rules 2) := by
  have hOthers : (pairRules c.rules).filter (·.lhs != startId) =
      placed c.rules 0 :=
    h.filter_pairRules (by decide) fun r => by
      by_cases hLhs : r.lhs = startId <;> simp [hLhs]
  rw [withoutUnits]
  simp only [h.flatMap_renamed hStay]
  rw [hOthers, h.unitClosure_startId, List.flatMap_cons,
    h.takenOver_startId hStay, h.flatMap_takenOver hLetter]

end Chains
end Settled

end StochasticGrammar.NormalForm
