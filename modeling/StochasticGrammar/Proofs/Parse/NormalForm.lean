import Mathlib.Data.List.Perm.Basic
import StochasticGrammar.Proofs.Grammar.EmptySymbol
import StochasticGrammar.Proofs.Parse.Earley.Exact
import StochasticGrammar.Proofs.Parse.Cyk.NormalForm

/-!
# Both parsers on a grammar in normal form

One parser works top down with an agenda, over a grammar whose rules to the
lone empty string symbol are taken as rules to nothing.  The other fills a
chart bottom up.  On a grammar in normal form a derivation tree of a word other
than the empty one has two children at each node, or it is a rule to a lone
terminal.  Such trees do not depend on how the empty string symbol is read, and
no node of them repeats, because yields get shorter on the way down.  So the
agenda never drops a cyclic derivation, and both parsers list the same trees.

The empty word has one tree for each rule from the start symbol to the empty
string symbol.  They differ in a leaf, but not in their number.

Main results: `Parse.make_same`.
-/

namespace StochasticGrammar

variable {α : Type} {g : Grammar α}

/-! ## Trees with two children at each node -/

namespace ParseTree

/-- Yields get shorter on the way down. -/
theorem Binary.length_yield_lt {t d : ParseTree} {k : Nat} (h : t.Binary)
    (hBelow : Below t k d) : d.yield.length < t.yield.length := by
  induction h generalizing k with
  | terminal s => exact absurd hBelow not_below_terminal
  | @branch rule s t u ht hu iht ihu =>
      have htPos := ht.length_yield_pos
      have huPos := hu.length_yield_pos
      obtain ⟨before, v, after, hSplit, hCase⟩ := below_branch_iff.1 hBelow
      have hMem : v ∈ [t, u] := by simp [hSplit]
      have hLe : d.yield.length ≤ v.yield.length := by
        rcases hCase with ⟨rfl, _⟩ | ⟨m, _, hDeep⟩
        · exact Nat.le_refl _
        · rcases List.mem_pair.1 hMem with rfl | rfl
          · exact Nat.le_of_lt (iht hDeep)
          · exact Nat.le_of_lt (ihu hDeep)
      simp only [yield_branch, yieldList_cons, yieldList_nil,
        List.append_nil, List.length_append]
      rcases List.mem_pair.1 hMem with rfl | rfl <;> omega

theorem Binary.not_repeats {t : ParseTree} (h : t.Binary) : ¬ t.Repeats := by
  rintro ⟨d, hBelow, hLength, _⟩
  have := h.length_yield_lt hBelow
  omega

/-- No node of them repeats. -/
theorem Binary.repetitionFree {t : ParseTree} (h : t.Binary) :
    t.RepetitionFree := by
  induction h with
  | terminal s => exact repetitionFree_terminal s
  | @branch rule s t u ht hu iht ihu =>
      refine repetitionFree_branch_iff.2
        ⟨(Binary.branch rule s ht hu).not_repeats, fun v hv => ?_⟩
      rcases List.mem_pair.1 hv with rfl | rfl
      · exact iht
      · exact ihu

/-- They do not depend on how a rule to the lone empty string symbol is
read. -/
theorem Binary.isDerivation_withoutEmptySymbol_iff {t : ParseTree}
    (h : t.Binary) :
    t.IsDerivation g.withoutEmptySymbol ↔ t.IsDerivation g := by
  induction h with
  | terminal s =>
      rw [isDerivation_terminal_iff, isDerivation_terminal_iff,
        Grammar.alphabet_withoutEmptySymbol]
  | @branch rule s t u ht hu iht ihu =>
      have hRows : (∀ v ∈ [t, u], v.IsDerivation g.withoutEmptySymbol) ↔
          ∀ v ∈ [t, u], v.IsDerivation g := by
        simp [iht, ihu]
      rw [isDerivation_branch_iff, isDerivation_branch_iff, hRows]
      constructor
      · rintro ⟨r, hRule, hLhs, hSymbols, hBelow⟩
        obtain ⟨r, hGet, rfl⟩ := Grammar.getElem?_withoutEmptySymbol.1 hRule
        rw [Rule.withoutLoneEmpty_eq_of_ne_nil (by simp [← hSymbols])]
          at hLhs hSymbols
        exact ⟨r, hGet, hLhs, hSymbols, hBelow⟩
      · rintro ⟨r, hRule, hLhs, hSymbols, hBelow⟩
        exact ⟨r, Grammar.getElem?_withoutEmptySymbol.2 ⟨r, hRule,
          Rule.withoutLoneEmpty_eq (by simp [← hSymbols])⟩, hLhs, hSymbols,
          hBelow⟩

/-- No node of a tree repeats whose children are leaves. -/
theorem repetitionFree_leaves (ix : Nat) (s : SymbolId)
    {symbols : List SymbolId}
    (hTerminal : ∀ x ∈ symbols, g.alphabet.isTerminal x = true) :
    (branch ix s (symbols.map terminal)).RepetitionFree := by
  have hRows : ∀ t ∈ symbols.map terminal, t.IsDerivation g := by
    intro t ht
    obtain ⟨x, hx, rfl⟩ := List.mem_map.1 ht
    exact .terminal (hTerminal x hx)
  rw [repetitionFree_branch_iff, repeats_branch_iff hRows]
  constructor
  · rintro ⟨t, ht, hHolds⟩
    obtain ⟨x, _, rfl⟩ := List.mem_map.1 ht
    exact not_holds_terminal hHolds
  · intro t ht
    obtain ⟨x, _, rfl⟩ := List.mem_map.1 ht
    exact repetitionFree_terminal x

theorem map_symbol_terminal (symbols : List SymbolId) :
    (symbols.map terminal).map symbol = symbols := by
  simp [Function.comp_def]

@[simp] theorem yieldList_map_terminal (symbols : List SymbolId) :
    yieldList (symbols.map terminal) = symbols := by
  induction symbols with
  | nil => simp
  | cons x symbols ih => simp [ih]

end ParseTree

/-! ## Derivations in the grammar that the agenda works on -/

open ParseTree

/-- A rule to a lone symbol becomes one to the word of the symbol. -/
theorem Rule.rhs_withoutLoneEmpty_singleton {r : Rule α} {x : SymbolId}
    (hRhs : r.rhs = [x]) : r.withoutLoneEmpty.rhs = (terminal x).word := by
  rw [word_terminal]
  by_cases hEmpty : x = emptyId
  · rw [if_pos hEmpty, Rule.rhs_withoutLoneEmpty (by rw [hRhs, hEmpty])]
  · rw [if_neg hEmpty, Rule.withoutLoneEmpty_eq (by simp [hRhs, hEmpty]), hRhs]

/-- The derivation trees of an input either have two children at each node, or
they consist of a rule from the start symbol to a terminal, whose leaf is left
out if it is the empty string symbol. -/
theorem Grammar.InNormalForm.derives_withoutEmptySymbol_iff (hg : g.WellFormed)
    (hNormal : g.InNormalForm) {w : List SymbolId} {t : ParseTree} :
    g.withoutEmptySymbol.Derives startId w t ↔
      (2 ≤ w.length ∧ g.Derives startId w t ∧ t.Binary) ∨
      ∃ ix r x, g.rules[ix]? = some r ∧ r.lhs = startId ∧ r.rhs = [x] ∧
        g.alphabet.isTerminal x = true ∧
          t = .branch ix startId (w.map .terminal) ∧
            w = (terminal x).word := by
  have hPairs : ∀ r ∈ g.withoutEmptySymbol.rules,
      IsPair r.rhs ∨ r.lhs = startId := by
    intro r hr
    obtain ⟨s, hs, rfl⟩ := Grammar.mem_withoutEmptySymbol.1 hr
    rcases hNormal.pairs s hs with hPair | hLhs
    · obtain ⟨x, y, hRhs, _⟩ := id hPair
      rw [Rule.withoutLoneEmpty_eq (by simp [hRhs])]
      exact .inl hPair
    · exact .inr (by rwa [Rule.lhs_withoutLoneEmpty])
  constructor
  · rintro ⟨hDerivation, hSymbol, rfl⟩
    obtain ⟨ix, r, ts, hRule, hSymbols, hBelow, rfl⟩ :=
      hDerivation.exists_branch
        (hSymbol ▸ hg.withoutEmptySymbol.alphabet.isTerminal_startId)
    obtain ⟨r, hGet, rfl⟩ := Grammar.getElem?_withoutEmptySymbol.1 hRule
    rw [Rule.lhs_withoutLoneEmpty] at hDerivation hSymbol ⊢
    have hLhs : r.lhs = startId := hSymbol
    rcases hNormal r (List.mem_of_getElem? hGet) with
      hPair | ⟨_, x, hRhs, hTerminal⟩
    · obtain ⟨x, y, hRhs, _⟩ := id hPair
      rw [Rule.withoutLoneEmpty_eq (by simp [hRhs])] at hSymbols
      obtain ⟨t, u, rfl, ht, hu⟩ := exists_trees_of_isPair hSymbols hPair
      obtain ⟨hBinary, _⟩ := (hBelow t (by simp)).binary hPairs ht.1 ht.2
      obtain ⟨hBinary', _⟩ := (hBelow u (by simp)).binary hPairs hu.1 hu.2
      have hTree := Binary.branch ix r.lhs hBinary hBinary'
      have hPos := hBinary.length_yield_pos
      have hPos' := hBinary'.length_yield_pos
      refine .inl ⟨?_, ⟨hTree.isDerivation_withoutEmptySymbol_iff.1 hDerivation,
        hLhs, rfl⟩, hTree⟩
      simp only [yield_branch, yieldList_cons, List.length_append]
      omega
    · rw [Rule.rhs_withoutLoneEmpty_singleton hRhs] at hSymbols
      have hLeaves : ts = (terminal x).word.map terminal := by
        rw [← hSymbols, List.map_map]
        refine ((List.map_congr_left fun t ht => ?_).trans
          (List.map_id ts)).symm
        refine ((hBelow t ht).eq_terminal hg.withoutEmptySymbol ?_).symm
        have hMem : t.symbol ∈ (terminal x).word :=
          hSymbols ▸ List.mem_map_of_mem ht
        rw [word, List.mem_filter, yield_terminal, List.mem_singleton] at hMem
        exact hMem.1 ▸ hTerminal
      refine .inr ⟨ix, r, x, hGet, hLhs, hRhs, hTerminal, ?_, ?_⟩
      · rw [hLeaves, hLhs]
        simp
      · rw [hLeaves]
        simp
  · rintro (⟨_, ⟨hDerivation, hSymbol, hYield⟩, hBinary⟩ |
      ⟨ix, r, x, hRule, hLhs, hRhs, hTerminal, rfl, hWord⟩)
    · exact ⟨hBinary.isDerivation_withoutEmptySymbol_iff.2 hDerivation, hSymbol,
        hYield⟩
    · refine ⟨isDerivation_branch_iff.2 ⟨_,
        Grammar.getElem?_withoutEmptySymbol.2 ⟨r, hRule, rfl⟩, ?_, ?_, ?_⟩,
        rfl, ?_⟩
      · rwa [Rule.lhs_withoutLoneEmpty]
      · rw [Rule.rhs_withoutLoneEmpty_singleton hRhs, ← hWord,
          map_symbol_terminal]
      · intro t ht
        obtain ⟨y, hy, rfl⟩ := List.mem_map.1 ht
        rw [hWord, word, List.mem_filter, yield_terminal,
          List.mem_singleton] at hy
        exact .terminal (hy.1 ▸ hTerminal)
      · simp

/-- No node of them repeats. -/
theorem Grammar.InNormalForm.repetitionFree (hg : g.WellFormed)
    (hNormal : g.InNormalForm) {w : List SymbolId} {t : ParseTree}
    (h : g.withoutEmptySymbol.Derives startId w t) : t.RepetitionFree := by
  rcases (hNormal.derives_withoutEmptySymbol_iff hg).1 h with
    ⟨_, _, hBinary⟩ | ⟨ix, _, x, _, _, _, hTerminal, rfl, hWord⟩
  · exact hBinary.repetitionFree
  · refine repetitionFree_leaves (g := g) ix startId fun y hy => ?_
    rw [hWord, word, List.mem_filter, yield_terminal, List.mem_singleton] at hy
    exact hy.1 ▸ hTerminal

/-- They are the derivation trees of the input as a word, unless the input is
empty. -/
theorem Grammar.InNormalForm.derives_iff_derivesWord (hg : g.WellFormed)
    (hNormal : g.InNormalForm) {w : List SymbolId} (hNil : w ≠ [])
    (hEmpty : emptyId ∉ w) {t : ParseTree} :
    g.withoutEmptySymbol.Derives startId w t ↔ g.DerivesWord startId w t := by
  rw [hNormal.derives_withoutEmptySymbol_iff hg, hNormal.derivesWord_iff hg]
  have hLeaf : ∀ {x : SymbolId}, w = (terminal x).word →
      w.map terminal = [terminal x] := by
    intro x hWord
    rw [word_terminal] at hWord
    split at hWord
    · exact absurd hWord hNil
    · simp [hWord]
  constructor
  · rintro (⟨hLong, hDerives, hBinary⟩ |
      ⟨ix, r, x, hRule, hLhs, hRhs, hTerminal, rfl, hWord⟩)
    · exact .inl ⟨hLong, hEmpty, hDerives, hBinary⟩
    · exact .inr ⟨ix, r, x, hRule, hLhs, hRhs, hTerminal, by rw [hLeaf hWord],
        hWord⟩
  · rintro (⟨hLong, _, hDerives, hBinary⟩ |
      ⟨ix, r, x, hRule, hLhs, hRhs, hTerminal, rfl, hWord⟩)
    · exact .inl ⟨hLong, hDerives, hBinary⟩
    · exact .inr ⟨ix, r, x, hRule, hLhs, hRhs, hTerminal, by rw [hLeaf hWord],
        hWord⟩

/-- The empty input has one for each rule to the empty string symbol. -/
theorem Grammar.InNormalForm.derives_nil_iff (hg : g.WellFormed)
    (hNormal : g.InNormalForm) {t : ParseTree} :
    g.withoutEmptySymbol.Derives startId [] t ↔
      ∃ ix ∈ Cyk.startRulesTo g emptyId, branch ix startId [] = t := by
  rw [hNormal.derives_withoutEmptySymbol_iff hg]
  simp only [Cyk.mem_startRulesTo]
  constructor
  · rintro (⟨hLong, _⟩ | ⟨ix, r, x, hRule, hLhs, hRhs, _, rfl, hWord⟩)
    · simp at hLong
    · have hx : x = emptyId := by
        rw [word_terminal] at hWord
        split at hWord
        · assumption
        · simp at hWord
      exact ⟨ix, ⟨r, hRule, hLhs, hx ▸ hRhs⟩, rfl⟩
  · rintro ⟨ix, ⟨r, hRule, hLhs, hRhs⟩, rfl⟩
    exact .inr ⟨ix, r, emptyId, hRule, hLhs, hRhs,
      hg.alphabet.isTerminal_emptyId, rfl, by simp [word_terminal]⟩

/-! ## The same trees -/

/-- The trees of the first row are those of the second in some order, up to
the numbers of their entries. -/
def SameTrees (ts us : List ParseTree) : Prop :=
  ∃ vs, vs.Perm us ∧ sameList ts vs = true

theorem sameTrees_iff {ts us : List ParseTree} :
    SameTrees ts us ↔ (ts.map shape).Perm (us.map shape) := by
  have hComp := congrFun (congrFun (List.eq_map_comp_perm shape)
    (ts.map shape)) us
  rw [← hComp, SameTrees, Relation.Comp]
  refine exists_congr fun vs => ?_
  rw [sameList_iff, shapeList_eq_map, shapeList_eq_map, and_comm]

/-- The trees of the rules from the start symbol to the empty string symbol
differ from rule to rule. -/
theorem nodup_emptyTrees (g : Grammar α) :
    ((Cyk.startRulesTo g emptyId).map fun ix => branch ix startId []).Nodup := by
  refine (Cyk.nodup_startRulesTo g emptyId).map fun i j h => ?_
  simp only [branch, node.injEq, Entry.mk.injEq, Option.some.injEq,
    Int.natCast_inj] at h
  exact h.1.2.2.1

/-- For terminals other than the empty string symbol both parsers succeed on a
grammar in normal form.  They offer equally many trees, and the same ones
unless the input is empty. -/
theorem Parse.make_same (hg : g.WellFormed) (hNormal : g.InNormalForm)
    {input : List SymbolId}
    (hInput : ∀ id ∈ input, id ≠ emptyId ∧ g.alphabet.isTerminal id = true) :
    ∃ p q, Earley.Parse.make g input = .ok p ∧
      Cyk.Parse.make g input = .ok q ∧
      p.derivations.count = q.derivations.count ∧
      (input ≠ [] → p.derivations.trees.Yields fun ts =>
        q.derivations.trees.Yields fun us => SameTrees ts us) := by
  obtain ⟨p, hMake, _, shapes, hLists, hNodup, hMem⟩ :=
    Earley.Parse.lists_make hg hInput
  obtain ⟨q, hMake', _, shapes', hLists', hNodup', hMem'⟩ :=
    Cyk.Parse.lists_of_inNormalForm hg hNormal hInput
  have hDerives : ∀ t, t ∈ shapes ↔
      g.withoutEmptySymbol.Derives startId input t := by
    intro t
    rw [hMem]
    exact and_iff_left_of_imp (hNormal.repetitionFree hg)
  have hPerm (hNil : input ≠ []) : shapes.Perm shapes' := by
    have hEmpty : emptyId ∉ input := fun hId => (hInput emptyId hId).1 rfl
    rw [List.perm_ext_iff_of_nodup hNodup hNodup']
    intro t
    rw [hDerives, hMem', hNormal.derives_iff_derivesWord hg hNil hEmpty]
  refine ⟨p, q, hMake, hMake', ?_, fun hNil => ?_⟩
  · rw [← hLists.length_eq, ← hLists'.length_eq]
    by_cases hNil : input = []
    · -- the empty input has a tree for each rule to the empty string symbol
      subst hNil
      have hAgenda : shapes.Perm ((Cyk.startRulesTo g emptyId).map
          fun ix => branch ix startId []) := by
        rw [List.perm_ext_iff_of_nodup hNodup (nodup_emptyTrees g)]
        intro t
        rw [hDerives, hNormal.derives_nil_iff hg, List.mem_map]
      have hChart : shapes'.Perm (Cyk.startTrees g emptyId) := by
        rw [List.perm_ext_iff_of_nodup hNodup'
          (Cyk.nodup_startTrees g emptyId)]
        intro t
        rw [hMem', Cyk.Parse.mem_startTrees_iff_derivesWord hg hNormal
          hg.alphabet.isTerminal_emptyId, word_terminal, if_pos rfl]
      rw [hAgenda.length_eq, hChart.length_eq, Cyk.startTrees,
        List.length_map, List.length_map]
    · exact (hPerm hNil).length_eq
  · refine hLists.trees.mono fun ts hts => hLists'.trees.mono fun us hus => ?_
    rw [sameTrees_iff, hts, hus]
    exact hPerm hNil

theorem Grammar.inNormalForm_brackets (p q : α) :
    (brackets p q).InNormalForm := by
  intro r hr
  simp only [brackets, List.mem_cons, List.not_mem_nil, or_false] at hr
  rcases hr with rfl | rfl | rfl | rfl
  · exact .inl ⟨3, 3, rfl, by decide, by decide⟩
  · exact .inr ⟨rfl, emptyId, rfl, rfl⟩
  · exact .inl ⟨3, 3, rfl, by decide, by decide⟩
  · exact .inl ⟨2, 2, rfl, by decide, by decide⟩

/-- Three pairs of letters can be bracketed in two ways. -/
theorem Parse.make_same_brackets :
    ∃ p q, Earley.Parse.make (Grammar.brackets 1 2) [2, 2, 2, 2, 2, 2] =
        .ok p ∧
      Cyk.Parse.make (Grammar.brackets 1 2) [2, 2, 2, 2, 2, 2] = .ok q ∧
      p.derivations.count = q.derivations.count ∧
      p.derivations.trees.Yields fun ts =>
        q.derivations.trees.Yields fun us => SameTrees ts us := by
  obtain ⟨p, q, hMake, hMake', hCount, hTrees⟩ :=
    Parse.make_same (Grammar.wellFormed_brackets 1 2)
      (Grammar.inNormalForm_brackets 1 2)
      (by decide : ∀ id ∈ [2, 2, 2, 2, 2, 2], id ≠ emptyId ∧
        (Grammar.brackets 1 2).alphabet.isTerminal id = true)
  exact ⟨p, q, hMake, hMake', hCount, hTrees (by decide)⟩

end StochasticGrammar
