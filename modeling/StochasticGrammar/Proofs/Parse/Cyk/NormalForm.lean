import StochasticGrammar.Proofs.Parse.Cyk.Exact

/-!
# Parsing with grammars in normal form

In a grammar in Chomsky normal form every derivation tree of a word is of the
kinds that the parser knows.  So the parser lists all of them, and the empty
string symbol need not be looked for in them: it stands under the start symbol
of the empty word only.

Main results: `Parse.lists_of_inNormalForm`.
-/

namespace StochasticGrammar

variable {α : Type}

/-- Two symbols, neither of them the start symbol or the empty string
symbol. -/
def IsPair (rhs : List SymbolId) : Prop :=
  ∃ x y, rhs = [x, y] ∧ (x ≠ startId ∧ x ≠ emptyId) ∧
    y ≠ startId ∧ y ≠ emptyId

/-- Every rule has a pair on the right, or it leads from the start symbol to a
terminal. -/
def Grammar.InNormalForm (g : Grammar α) : Prop :=
  ∀ r ∈ g.rules, IsPair r.rhs ∨
    (r.lhs = startId ∧ ∃ x, r.rhs = [x] ∧ g.alphabet.isTerminal x = true)

variable {g : Grammar α}

/-- Only the start symbol has something else than a pair on the right. -/
theorem Grammar.InNormalForm.pairs (hNormal : g.InNormalForm) :
    ∀ r ∈ g.rules, IsPair r.rhs ∨ r.lhs = startId :=
  fun r hr => (hNormal r hr).imp_right And.left

namespace ParseTree

/-- A row of two trees for a pair. -/
theorem exists_trees_of_isPair {ts : List ParseTree} {rhs : List SymbolId}
    (hSymbols : ts.map symbol = rhs) (hPair : IsPair rhs) :
    ∃ t u, ts = [t, u] ∧ (t.symbol ≠ startId ∧ t.symbol ≠ emptyId) ∧
      u.symbol ≠ startId ∧ u.symbol ≠ emptyId := by
  obtain ⟨x, y, rfl, hx, hy⟩ := hPair
  have hLength := congrArg List.length hSymbols
  rw [List.length_map] at hLength
  obtain ⟨t, u, rfl⟩ := List.length_eq_two.1 hLength
  simp only [List.map_cons, List.map_nil, List.cons.injEq, and_true]
    at hSymbols
  obtain ⟨rfl, rfl⟩ := hSymbols
  exact ⟨t, u, rfl, hx, hy⟩

/-- If only the start symbol has something else than a pair on the right, the
derivation trees below the root have two children at each node, and no empty
string symbol. -/
theorem IsDerivation.binary
    (hPairs : ∀ r ∈ g.rules, IsPair r.rhs ∨ r.lhs = startId) {t : ParseTree}
    (h : t.IsDerivation g) (hStart : t.symbol ≠ startId)
    (hEmpty : t.symbol ≠ emptyId) : t.Binary ∧ emptyId ∉ t.yield := by
  induction h with
  | terminal hTerminal =>
      refine ⟨.terminal _, ?_⟩
      rw [yield_terminal, List.mem_singleton]
      exact hEmpty.symm
  | @branch ix r ts hRule hSymbols hBelow ih =>
      rcases hPairs r (List.mem_of_getElem? hRule) with hPair | hLhs
      · obtain ⟨t, u, rfl, ht, hu⟩ := exists_trees_of_isPair hSymbols hPair
        obtain ⟨hBinary, hYield⟩ := ih t (by simp) ht.1 ht.2
        obtain ⟨hBinary', hYield'⟩ := ih u (by simp) hu.1 hu.2
        refine ⟨.branch ix r.lhs hBinary hBinary', ?_⟩
        simp [hYield, hYield']
      · exact absurd hLhs hStart

theorem length_word_terminal_lt (s : SymbolId) :
    (terminal s).word.length < 2 := by
  rw [word_terminal]
  split
  · simp
  · simp

/-- The word of a leaf tells which symbol it has. -/
theorem word_terminal_injective {x y : SymbolId}
    (h : (terminal x).word = (terminal y).word) : x = y := by
  rw [word_terminal, word_terminal] at h
  split at h
  · rename_i hx
    split at h
    · rename_i hy
      exact hx.trans hy.symm
    · simp at h
  · split at h
    · simp at h
    · exact List.singleton_inj.1 h

end ParseTree

open ParseTree in
/-- The derivation trees of a word either have two children at each node, or
they consist of a rule from the start symbol to a terminal. -/
theorem Grammar.InNormalForm.derivesWord_iff (hg : g.WellFormed)
    (hNormal : g.InNormalForm) {w : List SymbolId} {t : ParseTree} :
    g.DerivesWord startId w t ↔
      (2 ≤ w.length ∧ emptyId ∉ w ∧ g.Derives startId w t ∧ t.Binary) ∨
      ∃ ix r x, g.rules[ix]? = some r ∧ r.lhs = startId ∧ r.rhs = [x] ∧
        g.alphabet.isTerminal x = true ∧
          t = .branch ix startId [.terminal x] ∧ w = (terminal x).word := by
  constructor
  · rintro ⟨hDerivation, hSymbol, rfl⟩
    obtain ⟨ix, r, ts, hRule, hSymbols, hBelow, rfl⟩ :=
      hDerivation.exists_branch
        (hSymbol ▸ hg.alphabet.isTerminal_startId)
    have hLhs : r.lhs = startId := hSymbol
    rcases hNormal r (List.mem_of_getElem? hRule) with
      hPair | ⟨_, x, hRhs, hTerminal⟩
    · obtain ⟨t, u, rfl, ht, hu⟩ := exists_trees_of_isPair hSymbols hPair
      obtain ⟨hBinary, hYield⟩ :=
        (hBelow t (by simp)).binary hNormal.pairs ht.1 ht.2
      obtain ⟨hBinary', hYield'⟩ :=
        (hBelow u (by simp)).binary hNormal.pairs hu.1 hu.2
      have hEmpty : emptyId ∉ (branch ix r.lhs [t, u]).yield := by
        simp [hYield, hYield']
      have hWord := word_eq_yield hEmpty
      have hPos := hBinary.length_yield_pos
      have hPos' := hBinary'.length_yield_pos
      refine .inl ⟨?_, hWord ▸ hEmpty, ⟨hDerivation, hLhs, hWord.symm⟩,
        .branch ix r.lhs hBinary hBinary'⟩
      rw [hWord]
      simp only [yield_branch, yieldList_cons, List.length_append]
      omega
    · rw [hRhs] at hSymbols
      obtain ⟨t, rfl⟩ : ∃ t, ts = [t] := by
        have hLength := congrArg List.length hSymbols
        rw [List.length_map] at hLength
        exact List.length_eq_one_iff.1 hLength
      have hRoot : t.symbol = x := by simpa using hSymbols
      have hLeaf := (hBelow t (by simp)).eq_terminal hg
        (hRoot.symm ▸ hTerminal)
      rw [hRoot] at hLeaf
      rw [hLeaf, hLhs]
      exact .inr ⟨ix, r, x, hRule, hLhs, hRhs, hTerminal, rfl, by simp⟩
  · rintro (⟨_, hEmpty, ⟨hDerivation, hSymbol, hYield⟩, _⟩ |
      ⟨ix, r, x, hRule, hLhs, hRhs, hTerminal, rfl, rfl⟩)
    · exact ⟨hDerivation, hSymbol,
        (word_eq_yield (hYield.symm ▸ hEmpty)).trans hYield⟩
    · refine ⟨?_, rfl, by simp⟩
      rw [← hLhs]
      refine .branch hRule (by simp [hRhs]) fun t ht => ?_
      rw [List.mem_singleton.1 ht]
      exact .terminal hTerminal

namespace Cyk.Parse

/-- The trees that are offered for an input of one symbol, or none. -/
theorem mem_startTrees_iff_derivesWord (hg : g.WellFormed)
    (hNormal : g.InNormalForm) {x : SymbolId}
    (hx : g.alphabet.isTerminal x = true) {t : ParseTree} :
    t ∈ startTrees g x ↔
      g.DerivesWord startId (ParseTree.terminal x).word t := by
  rw [mem_startTrees, hNormal.derivesWord_iff hg]
  constructor
  · rintro ⟨ix, r, hRule, hLhs, hRhs, rfl⟩
    exact .inr ⟨ix, r, x, hRule, hLhs, hRhs, hx, rfl, rfl⟩
  · rintro (⟨hLength, _⟩ | ⟨ix, r, y, hRule, hLhs, hRhs, _, rfl, hWord⟩)
    · have := ParseTree.length_word_terminal_lt x
      omega
    · obtain rfl := ParseTree.word_terminal_injective hWord
      exact ⟨ix, r, hRule, hLhs, hRhs, rfl⟩

/-- The parser lists the derivation trees of the input. -/
theorem lists_of_inNormalForm (hg : g.WellFormed) (hNormal : g.InNormalForm)
    {input : List SymbolId}
    (hInput : ∀ id ∈ input, id ≠ emptyId ∧ g.alphabet.isTerminal id = true) :
    ∃ p, Parse.make g input = .ok p ∧ p.derivations.grammar = g ∧
      ∃ shapes, p.derivations.Lists shapes ∧ shapes.Nodup ∧
        ∀ t, t ∈ shapes ↔ g.DerivesWord startId input t := by
  refine ⟨ofChecked g input, ?_, ?_, ?_⟩
  · rw [Parse.make, (Parse.inputFault?_eq_none_iff _ 0 input).2 hInput]
  · unfold derivations
    split
    · rfl
    · rfl
  have hLone : ∀ x, g.alphabet.isTerminal x = true →
      input = (ParseTree.terminal x).word → ∀ t,
        t ∈ startTrees g x ↔ g.DerivesWord startId input t := by
    rintro x hx rfl t
    exact mem_startTrees_iff_derivesWord hg hNormal hx
  rcases input with _ | ⟨a, _ | ⟨b, rest⟩⟩
  · exact ⟨_, lists_nil g, nodup_startTrees g emptyId,
      hLone emptyId hg.alphabet.isTerminal_emptyId rfl⟩
  · obtain ⟨hNe, hTerminal⟩ := hInput a (by simp)
    have ha : a ≠ startId := by
      rintro rfl
      rw [hg.alphabet.isTerminal_startId] at hTerminal
      simp at hTerminal
    exact ⟨_, lists_singleton g ha, nodup_startTrees g a,
      hLone a hTerminal (by rw [ParseTree.word_terminal, if_neg hNe])⟩
  · have hLong : 2 ≤ (a :: b :: rest).length := by simp
    have hNoEmpty : emptyId ∉ a :: b :: rest :=
      fun hMem => (hInput emptyId hMem).1 rfl
    obtain ⟨shapes, hLists, hNodup, hMem⟩ :=
      lists_long (g := g) hLong fun id hId => (hInput id hId).2
    refine ⟨shapes, hLists, hNodup, fun t => ?_⟩
    rw [hMem, hNormal.derivesWord_iff hg]
    constructor
    · rintro ⟨hDerives, hBinary⟩
      exact .inl ⟨hLong, hNoEmpty, hDerives, hBinary⟩
    · rintro (⟨_, _, hDerives, hBinary⟩ | ⟨_, _, x, _, _, _, _, _, hEq⟩)
      · exact ⟨hDerives, hBinary⟩
      · have := ParseTree.length_word_terminal_lt x
        rw [← hEq] at this
        omega

end Cyk.Parse

end StochasticGrammar
