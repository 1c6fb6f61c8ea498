import StochasticGrammar.Proofs.NormalForm.Failure
import StochasticGrammar.Proofs.NormalForm.Links
import StochasticGrammar.Proofs.Tree.Folding

/-!
# Derivation trees through the first two stages

Isolating the start symbol and splitting the long rules change the derivation
trees of a symbol only in how they are drawn: below the root, the copy stands
for the start symbol, and where a long rule was used there is a row of nodes in
place of one.  So the trees correspond to each other, and their products do not
change, in any monoid of numbers.

Main results: `sameTrees_split`.
-/

namespace StochasticGrammar.NormalForm

variable {α : Type}

/-! ## Handing over the rest of a right side -/

section HandOver

variable {al : Alphabet} {lhs first id : SymbolId} {rest : List SymbolId} {p : α}
  {rules : List (Rule α)}

/-- The rest of a right side is taken back. -/
def takenBack (id : SymbolId) (rest : List SymbolId) : Folding where
  hidden x := x == id
  body _ := rest
  symbol x := x
  rule ix := ix - 1

theorem spell_takenBack_of_ne {x : SymbolId} (hx : x ≠ id) :
    (takenBack id rest).spell x = [x] := by
  simp [Folding.spell, takenBack, hx]

theorem flatMap_spell_takenBack {rhs : List SymbolId} (hNot : id ∉ rhs) :
    rhs.flatMap (takenBack id rest).spell = rhs := by
  induction rhs with
  | nil => rfl
  | cons x rhs ih =>
      obtain ⟨hx, hNot⟩ := List.ne_and_not_mem_of_not_mem_cons hNot
      rw [List.flatMap_cons, spell_takenBack_of_ne hx.symm, ih hNot]
      rfl

theorem flatMap_spell_takenBack_pair (hFirst : first ≠ id) :
    [first, id].flatMap (takenBack id rest).spell = first :: rest := by
  have hRest : (takenBack id rest).spell id = rest := by
    simp [Folding.spell, takenBack]
  simp [spell_takenBack_of_ne hFirst, hRest]

/-- A rule is the first one, the second one or one of the rest. -/
theorem getElem?_cons_cons_cases {β : Type} {x y z : β} {xs : List β} {ix : ℕ}
    (h : (x :: y :: xs)[ix]? = some z) :
    (ix = 0 ∧ z = x) ∨ (ix = 1 ∧ z = y) ∨ ∃ k, ix = k + 2 ∧ xs[k]? = some z := by
  match ix with
  | 0 => exact .inl ⟨rfl, (Option.some.inj h).symm⟩
  | 1 => exact .inr (.inl ⟨rfl, (Option.some.inj h).symm⟩)
  | k + 2 => exact .inr (.inr ⟨k, rfl, h⟩)

/-- The symbol that is handed the rest has the second rule, and no other
one. -/
theorem lhs_eq_iff_of_handOver [One α] (hLhs : lhs ≠ id)
    (hRules : ∀ r ∈ rules, Avoids id r) {ix : ℕ} {r : Rule α}
    (h : ((⟨lhs, [first, id], p⟩ : Rule α) :: ⟨id, rest, 1⟩ :: rules)[ix]? =
      some r) : r.lhs = id ↔ ix = 1 := by
  rcases getElem?_cons_cons_cases h with
    ⟨rfl, rfl⟩ | ⟨rfl, rfl⟩ | ⟨k, rfl, hRule⟩
  · exact iff_of_false hLhs (by omega)
  · exact iff_of_true rfl rfl
  · exact iff_of_false (hRules r (List.mem_of_getElem? hRule)).1 (by omega)

theorem valid_takenBack [One α] (hTerminal : al.isTerminal id = false)
    (hRule : Avoids id ⟨lhs, first :: rest, p⟩)
    (hRules : ∀ r ∈ rules, Avoids id r) :
    (takenBack id rest).Valid
      ⟨al, ⟨lhs, [first, id], p⟩ :: ⟨id, rest, 1⟩ :: rules⟩
      ⟨al, ⟨lhs, first :: rest, p⟩ :: rules⟩ := by
  obtain ⟨hLhs, hRhs⟩ := hRule
  obtain ⟨hFirst, hRest⟩ := List.ne_and_not_mem_of_not_mem_cons hRhs
  have hOnly : ∀ {ix : ℕ} {r : Rule α}, ((⟨lhs, [first, id], p⟩ : Rule α) ::
      ⟨id, rest, 1⟩ :: rules)[ix]? = some r → (r.lhs = id ↔ ix = 1) :=
    lhs_eq_iff_of_handOver hLhs hRules
  constructor
  case terminal =>
    intro x hx
    refine ⟨beq_eq_false_iff_ne.2 ?_, rfl⟩
    rintro rfl
    rw [hTerminal] at hx
    cases hx
  case isTerminal_symbol => exact fun _ => rfl
  case rule_of_visible =>
    intro ix r hRule hVisible
    have hNe : r.lhs ≠ id := beq_eq_false_iff_ne.1 hVisible
    rcases getElem?_cons_cons_cases hRule with
      ⟨rfl, rfl⟩ | ⟨_, rfl⟩ | ⟨k, rfl, hRule⟩
    · rw [flatMap_spell_takenBack_pair hFirst.symm]
      rfl
    · exact absurd rfl hNe
    · have hAvoids := hRules r (List.mem_of_getElem? hRule)
      rw [flatMap_spell_takenBack hAvoids.2]
      exact hRule
  case rule_of_hidden =>
    intro ix r hRule hHidden
    obtain rfl := (hOnly hRule).1 (beq_iff_eq.1 hHidden)
    cases hRule
    exact ⟨flatMap_spell_takenBack hRest, rfl⟩
  case unique =>
    -- two places become one only where one of them is that of the rest
    intro ix jx r s hRule hRule' hSame hPlace
    have hFirst := hOnly hRule
    have hSecond := hOnly hRule'
    rw [← hSame] at hSecond
    by_cases hId : r.lhs = id
    · exact (hFirst.1 hId).trans (hSecond.1 hId).symm
    · have hPlace : ix - 1 = jx - 1 := hPlace (beq_eq_false_iff_ne.2 hId)
      have hFirstNe := mt hFirst.2 hId
      have hSecondNe := mt hSecond.2 hId
      omega
  case exists_visible =>
    intro x ix r hVisible hRule hx
    cases ix with
    | zero =>
        cases hRule
        exact ⟨0, _, rfl, hx, rfl⟩
    | succ k => exact ⟨k + 2, r, hRule, hx, rfl⟩
  case exists_hidden =>
    intro x hHidden
    obtain rfl : x = id := beq_iff_eq.1 hHidden
    exact ⟨1, _, rfl, rfl, fun y hy =>
      beq_eq_false_iff_ne.2 fun hEq => hRest (hEq ▸ hy)⟩

/-- Derivation trees correspond when rules are put into another order and when
right sides are handed over. -/
theorem respects_sameTrees [Monoid α] (al : Alphabet) :
    Respects al.isTerminal (fun _ => True) fun a rules rules' =>
      (⟨al, rules⟩ : Grammar α).SameTrees ⟨al, rules'⟩ a a where
  trans := Grammar.SameTrees.trans
  perm hPerm := .of_perm rfl hPerm _
  handOver _ hTerminal hRule hRules ha :=
    (valid_takenBack hTerminal hRule hRules).sameTrees
      (beq_eq_false_iff_ne.2 ha)

end HandOver

/-! ## The copy of the start symbol -/

section Copy

variable {al extended : Alphabet} {copy : SymbolId}
  {rules starts others : List (Rule α)}

/-- The copy is taken for the start symbol, whose rules come first. -/
def uncopied (copy : SymbolId) (count : ℕ) : Folding where
  hidden _ := false
  body _ := []
  symbol x := if x = copy then startId else x
  rule ix := if ix < count then ix else ix - count

theorem rule_uncopied_of_lt {count ix : ℕ} (hIx : ix < count) :
    (uncopied copy count).rule ix = ix :=
  if_pos hIx

theorem rule_uncopied_add (count k : ℕ) :
    (uncopied copy count).rule (count + k) = k :=
  (if_neg (by omega)).trans (Nat.add_sub_cancel_left _ _)

theorem flatMap_spell_uncopied {count : ℕ} {rhs : List SymbolId}
    (hNot : copy ∉ rhs) :
    (substituteStart copy rhs).flatMap (uncopied copy count).spell = rhs := by
  induction rhs with
  | nil => rfl
  | cons x rhs ih =>
      obtain ⟨hx, hNot⟩ := List.ne_and_not_mem_of_not_mem_cons hNot
      have hHead : (uncopied copy count).spell
          (if x = startId then copy else x) = [x] := by
        by_cases hStart : x = startId
        · simp [Folding.spell, uncopied, hStart]
        · simp [Folding.spell, uncopied, hStart, hx.symm]
      show (uncopied copy count).spell (if x = startId then copy else x) ++
        (substituteStart copy rhs).flatMap (uncopied copy count).spell = _
      rw [hHead, ih hNot]
      rfl

/-- The rules are there with the copy on their right sides, and behind them are
those of the start symbol. -/
theorem getElem?_copyStart_eq_some_iff
    (hStarts : rules.filter (·.lhs == startId) = starts) {ix : ℕ}
    {r : Rule α} : (copyStart copy rules)[ix]? = some r ↔
      (∃ s, rules[ix]? = some s ∧
        r = ⟨s.lhs, substituteStart copy s.rhs, s.probability⟩) ∨
      ∃ k s, ix = rules.length + k ∧ starts[k]? = some s ∧
        r = ⟨copy, substituteStart copy s.rhs, s.probability⟩ := by
  rw [copyStart, hStarts, List.getElem?_append, List.length_map]
  by_cases hIx : ix < rules.length
  · rw [if_pos hIx, List.getElem?_map, Option.map_eq_some_iff]
    constructor
    · rintro ⟨s, hRule, rfl⟩
      exact .inl ⟨s, hRule, rfl⟩
    · rintro (⟨s, hRule, rfl⟩ | ⟨k, _, rfl, _⟩)
      · exact ⟨s, hRule, rfl⟩
      · omega
  · rw [if_neg hIx, List.getElem?_map, Option.map_eq_some_iff]
    constructor
    · rintro ⟨s, hRule, rfl⟩
      exact .inr ⟨ix - rules.length, s, by omega, hRule, rfl⟩
    · rintro (⟨s, hRule, rfl⟩ | ⟨k, s, rfl, hRule, rfl⟩)
      · exact absurd (List.getElem?_eq_some_iff.1 hRule).1 hIx
      · exact ⟨s, by rwa [Nat.add_sub_cancel_left], rfl⟩

theorem valid_uncopied [One α] (hal : al.WellFormed)
    (hFresh : al.Freshens extended [copy])
    (hOver : ∀ r ∈ starts ++ others, Over al r)
    (hStarts : ∀ r ∈ starts, r.lhs = startId)
    (hOthers : ∀ r ∈ others, r.lhs ≠ startId) :
    (uncopied copy (starts ++ others).length).Valid
      ⟨extended, copyStart copy (starts ++ others)⟩ ⟨al, starts ++ others⟩ := by
  have hAvoids : ∀ r ∈ starts ++ others, Avoids copy r := fun r hr =>
    (hOver r hr).avoids (hFresh.not_hasId copy (by simp))
  have hFilter : (starts ++ others).filter (·.lhs == startId) = starts := by
    rw [List.filter_append, List.filter_eq_self.2 (by simpa using hStarts),
      List.filter_eq_nil_iff.2 (by simpa using hOthers), List.append_nil]
  have hCases : ∀ {ix : ℕ} {r : Rule α},
      (copyStart copy (starts ++ others))[ix]? = some r ↔ _ :=
    getElem?_copyStart_eq_some_iff hFilter
  have hCopy : extended.isTerminal copy = false :=
    hFresh.not_isTerminal copy (by simp)
  have hLow : ∀ {ix : ℕ} {r : Rule α}, (starts ++ others)[ix]? = some r →
      (uncopied copy (starts ++ others).length).rule ix = ix :=
    fun hRule => rule_uncopied_of_lt (List.getElem?_eq_some_iff.1 hRule).1
  have hFirst : ∀ {k : ℕ} {r : Rule α}, starts[k]? = some r →
      (starts ++ others)[k]? = some r := fun hRule => by
    rwa [List.getElem?_append_left (List.getElem?_eq_some_iff.1 hRule).1]
  constructor
  case terminal =>
    intro x hx
    refine ⟨rfl, if_neg ?_⟩
    rintro rfl
    rw [hCopy] at hx
    cases hx
  case isTerminal_symbol =>
    intro x _
    show al.isTerminal (if x = copy then startId else x) = extended.isTerminal x
    by_cases hx : x = copy
    · rw [if_pos hx, hx, hCopy, hal.isTerminal_startId]
    · rw [if_neg hx, hFresh.isTerminal_eq]
  case rule_of_visible =>
    intro ix r hRule _
    rcases hCases.1 hRule with ⟨s, hOld, rfl⟩ | ⟨k, s, rfl, hOld, rfl⟩
    · have hs := hAvoids s (List.mem_of_getElem? hOld)
      rw [hLow hOld, flatMap_spell_uncopied hs.2]
      simp [uncopied, hs.1, hOld]
    · have hs := hAvoids s (by simp [List.mem_of_getElem? hOld])
      rw [rule_uncopied_add, flatMap_spell_uncopied hs.2]
      simp only [uncopied, if_true]
      rw [← hStarts s (List.mem_of_getElem? hOld)]
      exact hFirst hOld
  case rule_of_hidden =>
    exact fun _ hHidden => Bool.noConfusion hHidden
  case unique =>
    intro ix jx r s hRule hRule' hSame hPlace
    replace hPlace : (uncopied copy (starts ++ others).length).rule ix =
        (uncopied copy (starts ++ others).length).rule jx := hPlace rfl
    rcases hCases.1 hRule with ⟨t, hOld, rfl⟩ | ⟨k, t, rfl, hOld, rfl⟩ <;>
      rcases hCases.1 hRule' with ⟨t', hOld', rfl⟩ | ⟨k', t', rfl, hOld', rfl⟩
    · rwa [hLow hOld, hLow hOld'] at hPlace
    · exact absurd hSame (hAvoids t (List.mem_of_getElem? hOld)).1
    · exact absurd hSame.symm (hAvoids t' (List.mem_of_getElem? hOld')).1
    · rw [rule_uncopied_add, rule_uncopied_add] at hPlace
      rw [hPlace]
  case exists_visible =>
    -- the rules of the copy come from the first ones, which are those of the
    -- start symbol, and so their places are right
    intro x ix r _ hRule hLhs
    have hLhs : r.lhs = if x = copy then startId else x := hLhs
    by_cases hx : x = copy
    · rw [if_pos hx] at hLhs
      have hIx : ix < starts.length := by
        by_contra hNot
        rw [List.getElem?_append_right (by omega)] at hRule
        exact hOthers r (List.mem_of_getElem? hRule) hLhs
      rw [List.getElem?_append_left hIx] at hRule
      exact ⟨_, _, hCases.2 (.inr ⟨ix, r, rfl, hRule, rfl⟩), hx.symm,
        rule_uncopied_add _ ix⟩
    · rw [if_neg hx] at hLhs
      exact ⟨ix, _, hCases.2 (.inl ⟨r, hRule, rfl⟩), hLhs, hLow hRule⟩
  case exists_hidden =>
    exact fun hHidden => Bool.noConfusion hHidden

/-- The trees of all symbols but the copy are those without a copy. -/
theorem sameTrees_copyStart [Monoid α] (hal : al.WellFormed)
    (hFresh : al.Freshens extended [copy]) (hOver : ∀ r ∈ rules, Over al r)
    {a : SymbolId} (ha : a ≠ copy) :
    (⟨extended, copyStart copy rules⟩ : Grammar α).SameTrees ⟨al, rules⟩ a a := by
  have hSorted : (rules.filter (·.lhs == startId) ++
      rules.filter (!·.lhs == startId)).Perm rules :=
    List.filter_append_perm _ rules
  have hCopied : (copyStart copy rules).Perm
      (copyStart copy (rules.filter (·.lhs == startId) ++
        rules.filter (!·.lhs == startId))) :=
    (hSorted.symm.map _).append ((hSorted.symm.filter _).map _)
  have hValid := valid_uncopied hal hFresh
    (fun r hr => hOver r (hSorted.mem_iff.1 hr))
    (fun r hr => by simpa using (List.mem_filter.1 hr).2)
    (fun r hr => by simpa using (List.mem_filter.1 hr).2)
  have hMiddle := hValid.sameTrees (x := a) rfl
  rw [show (uncopied copy _).symbol a = a from if_neg ha] at hMiddle
  have hFirst : (⟨extended, copyStart copy rules⟩ : Grammar α).SameTrees
      ⟨extended, copyStart copy (rules.filter (·.lhs == startId) ++
        rules.filter (!·.lhs == startId))⟩ a a :=
    .of_perm rfl hCopied a
  have hLast : (⟨al, rules.filter (·.lhs == startId) ++
      rules.filter (!·.lhs == startId)⟩ : Grammar α).SameTrees
        ⟨al, rules⟩ a a :=
    .of_perm rfl hSorted a
  exact hFirst.trans (hMiddle.trans hLast)

theorem sameTrees_isolateStart [Monoid α] {s : Stage α} (hal : al.WellFormed)
    (h : isolateStart al rules = .ok s) (hOver : ∀ r ∈ rules, Over al r)
    {a : SymbolId} (ha : al.hasId a = true) :
    (⟨s.alphabet, s.rules⟩ : Grammar α).SameTrees ⟨al, rules⟩ a a := by
  rcases isolateStart_eq_ok hal h with ⟨rfl, _⟩ | ⟨copy, hFresh, hRules⟩
  · exact .refl _ a
  · rw [hRules]
    refine sameTrees_copyStart hal hFresh hOver ?_
    rintro rfl
    rw [hFresh.not_hasId a (by simp)] at ha
    cases ha

end Copy

/-! ## Both stages -/

section Stages

variable [Monoid α] {g : Grammar α}

/-- The trees of the symbols of a grammar are those of the second stage. -/
theorem sameTrees_split (hg : g.WellFormed) {s : Stage α} (h : split g = .ok s)
    {a : SymbolId} (ha : g.alphabet.hasId a = true) :
    (⟨g.alphabet, stripped g⟩ : Grammar α).SameTrees
      ⟨s.alphabet, s.rules⟩ a a := by
  obtain ⟨t, hIsolate, hSplit⟩ := split_eq_ok h
  obtain ⟨_, hFresh, hSides, _⟩ := sides_of_isolateStart hg.alphabet hIsolate
  obtain ⟨_, hMore, _, _⟩ := sides_of_splitLong hSplit hFresh.wellFormed
  have hPlain := plain_stripped hg
  have hOver := (hPlain.extend hFresh hSides).known
  have hIsolated : (⟨t.alphabet, t.rules⟩ : Grammar α).SameTrees
      ⟨g.alphabet, stripped g⟩ a a :=
    sameTrees_isolateStart hg.alphabet hIsolate hPlain.known ha
  have hLong : (⟨t.alphabet, s.rules⟩ : Grammar α).SameTrees
      ⟨t.alphabet, t.rules⟩ a a :=
    (respects_sameTrees t.alphabet).splitLong trivial hSplit hFresh.wellFormed
      (fun _ _ => trivial) hOver (hFresh.hasId_mono ha)
  have hExtended : (⟨t.alphabet, s.rules⟩ : Grammar α).SameTrees
      ⟨s.alphabet, s.rules⟩ a a :=
    .of_perm hMore.isTerminal_eq (.refl _) a
  exact (hLong.trans hIsolated).symm.trans hExtended

/-- The symbols that splitting has added link rules. -/
theorem links_split (hg : g.WellFormed) {t s : Stage α}
    (hIsolated : isolated g = .ok t) (h : split g = .ok s) {id : SymbolId}
    (hNew : s.alphabet.hasId id = true) (hOld : t.alphabet.hasId id = false) :
    Links id s.rules := by
  obtain ⟨u, hIsolate, hSplit⟩ := split_eq_ok h
  obtain rfl : u = t :=
    Except.ok.inj (hIsolate.symm.trans (mapError_eq_ok.1 hIsolated))
  obtain ⟨_, hFresh, hSides, _⟩ := sides_of_isolateStart hg.alphabet hIsolate
  exact links_splitLong hSplit hFresh.wellFormed
    ((plain_stripped hg).extend hFresh hSides).known hNew hOld

/-- The first two stages turn the rules of a grammar, without the empty string
symbol, into short rules that do not have the start symbol on the right.  The
derivation trees of each nonterminal correspond to those before, for every word,
with the same products, and each symbol that splitting has added links two
rules. -/
theorem exists_split_sameTrees (hg : g.Built) :
    ∃ t s, isolated g = .ok t ∧ split g = .ok s ∧
      (∀ r ∈ s.rules, r.rhs.length ≤ 2 ∧ startId ∉ r.rhs) ∧
      (∀ a ∈ g.alphabet.ids .nonterminal, ∀ w,
        ∃ e : {t : ParseTree //
              (⟨g.alphabet, stripped g⟩ : Grammar α).DerivesWord a w t} ≃
            {t : ParseTree //
              (⟨s.alphabet, s.rules⟩ : Grammar α).DerivesWord a w t},
          ∀ t, (e t).1.product? ⟨s.alphabet, s.rules⟩ =
            t.1.product? ⟨g.alphabet, stripped g⟩) ∧
      ∀ id, s.alphabet.hasId id = true → t.alphabet.hasId id = false →
        (∃ rhs, s.rules.filter (·.lhs == id) = [⟨id, rhs, 1⟩]) ∧
        (s.rules.flatMap (·.rhs)).count id = 1 := by
  obtain ⟨s, hSplit, _⟩ := exists_split hg
  obtain ⟨t, hIsolated, _⟩ := bind_eq_ok.1 hSplit
  have hPrepared := prepared_split hg.wellFormed hSplit
  refine ⟨t, s, hIsolated, hSplit, fun r hr => ?_, fun a ha => ?_,
    fun id hNew hOld => ?_⟩
  · exact ⟨hPrepared.length r hr, hPrepared.noStart r hr⟩
  · exact sameTrees_split hg.wellFormed hSplit
      ((Alphabet.hasId_iff_mem_ids _ a).2 (.inl ha))
  · have hLinks := links_split hg.wellFormed hIsolated hSplit hNew hOld
    exact ⟨hLinks.rule, hLinks.place⟩

end Stages

/-- A grammar whose start symbol is on the right side of a long rule:
`S -> S A a S`, `S -> e` and `A -> a`. -/
def nested : Grammar ℚ where
  alphabet := Grammar.described
  rules := [⟨startId, [startId, 2, 3, startId], 1⟩, ⟨startId, [emptyId], 2⟩,
    ⟨2, [3], 1⟩]

theorem built_nested : nested.Built := by
  refine Grammar.built_described.addRules fun r hr => ?_
  simp only [List.mem_cons, List.not_mem_nil, or_false] at hr
  rcases hr with rfl | rfl | rfl <;> rfl

/-- The long rule and the one of the copy are split with two fresh symbols
each. -/
theorem exists_split_sameTrees_nested :
    ∃ s, split nested = .ok s ∧
      (∀ id ∈ ([5, 6, 7, 8] : List SymbolId), Links id s.rules) ∧
      (⟨nested.alphabet, stripped nested⟩ : Grammar ℚ).SameTrees
        ⟨s.alphabet, s.rules⟩ startId startId := by
  obtain ⟨t, s, hIsolated, hSplit, -, hTrees, hLinks⟩ :=
    exists_split_sameTrees built_nested
  have hOld : (isolated nested).toOption.map (fun t : Stage ℚ =>
      ([5, 6, 7, 8] : List SymbolId).map t.alphabet.hasId) =
        some [false, false, false, false] := by decide +kernel
  have hNew : (split nested).toOption.map (fun s : Stage ℚ =>
      ([5, 6, 7, 8] : List SymbolId).map s.alphabet.hasId) =
        some [true, true, true, true] := by decide +kernel
  rw [hIsolated] at hOld
  rw [hSplit] at hNew
  simp only [Except.toOption, Option.map_some, List.map_cons, List.map_nil,
    Option.some.injEq, List.cons.injEq, and_true] at hOld hNew
  refine ⟨s, hSplit, fun id hId => ?_, hTrees startId (by decide)⟩
  have hAdded : s.alphabet.hasId id = true ∧ t.alphabet.hasId id = false := by
    simp only [List.mem_cons, List.not_mem_nil, or_false] at hId
    rcases hId with rfl | rfl | rfl | rfl <;> simp [hOld, hNew]
  obtain ⟨hRule, hPlace⟩ := hLinks id hAdded.1 hAdded.2
  exact ⟨hRule, hPlace⟩

end StochasticGrammar.NormalForm
