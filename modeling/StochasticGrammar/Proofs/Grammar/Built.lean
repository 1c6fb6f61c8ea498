import StochasticGrammar.Proofs.Grammar.WellFormed

/-!
# Grammars that are put together

A program makes a grammar from the alphabet with the reserved symbols by adding
symbols and rules, one after another, each of which may be refused.  What it
gets in this way is well-formed; every label is one word, which need not be so
in a grammar that was read; and the numbers of the symbols leave no gap at the
end.
-/

namespace StochasticGrammar.Grammar

variable {α : Type}

/-- The grammars that come about by adding symbols and rules. -/
inductive Built : Grammar α → Prop
  | initial : Built (empty .initial)
  | symbol {g : Grammar α} {c : Category} {label : String}
      {description : Option String} {id : SymbolId} {al : Alphabet} :
      Built g → g.alphabet.add c label description = .ok (id, al) →
        Built ⟨al, g.rules⟩
  | rule {g h : Grammar α} {r : Rule α} :
      Built g → g.addRule r = .ok h → Built h

/-- A symbol that is added keeps a grammar well-formed. -/
theorem WellFormed.addSymbol {g : Grammar α} (hg : g.WellFormed)
    {c : Category} {label : String} {description : Option String}
    {id : SymbolId} {al : Alphabet}
    (hAdd : g.alphabet.add c label description = .ok (id, al)) :
    WellFormed ⟨al, g.rules⟩ := by
  refine ⟨hg.alphabet.add hAdd, fun r hr => ?_⟩
  obtain ⟨hIds, hHead⟩ := ruleFault?_eq_none_iff.1 (hg.rules r hr)
  rw [ruleFault?_eq_none_iff]
  constructor
  · intro x hx
    exact Alphabet.hasId_mono_of_add hAdd (hIds x hx)
  · rw [Alphabet.isTerminal_of_add_of_hasId hg.alphabet hAdd
      (hIds r.lhs (by simp))]
    exact hHead

namespace Built

variable {g : Grammar α}

theorem wellFormed (h : g.Built) : g.WellFormed := by
  induction h with
  | initial => exact wellFormed_empty Alphabet.wellFormed_initial
  | symbol _ hAdd ih => exact ih.addSymbol hAdd
  | rule _ hAdd ih => exact ih.addRule hAdd

theorem nextIsLeast (h : g.Built) : g.alphabet.NextIsLeast := by
  induction h with
  | initial => exact Alphabet.nextIsLeast_initial
  | symbol _ hAdd ih => exact ih.insert (Alphabet.add_eq_ok_iff.1 hAdd).2.2
  | rule _ hAdd ih => rwa [alphabet_of_addRule hAdd]

/-- Every label is one word. -/
theorem isLabel (h : g.Built) :
    ∀ s ∈ g.alphabet.symbols, Alphabet.isLabel s.label = true := by
  induction h with
  | initial =>
      show ∀ s ∈ Alphabet.initial.symbols, Alphabet.isLabel s.label = true
      decide
  | symbol _ hAdd ih =>
      obtain ⟨hLabel, _, hInsert⟩ := Alphabet.add_eq_ok_iff.1 hAdd
      obtain ⟨_, _, rfl⟩ := Alphabet.insert_eq_ok_iff.1 hInsert
      intro s hs
      rcases Alphabet.mem_symbols_push.1 hs with rfl | hs
      · exact hLabel
      · exact ih s hs
  | rule _ hAdd ih => rwa [alphabet_of_addRule hAdd]

/-- Rules that nothing speaks against are added one after another. -/
theorem addRules {rules : List (Rule α)} :
    ∀ {g : Grammar α}, g.Built →
      (∀ r ∈ rules, ruleFault? g.alphabet r = none) →
        Built ⟨g.alphabet, g.rules ++ rules⟩ := by
  induction rules with
  | nil =>
      intro g hg _
      rwa [List.append_nil]
  | cons r rules ih =>
      intro g hg h
      have hNext : Built ⟨g.alphabet, g.rules ++ [r]⟩ :=
        hg.rule (addRule_eq_ok_iff.2 ⟨h r (by simp), rfl⟩)
      have hRest := ih hNext fun s hs => h s (by simp [hs])
      rwa [List.append_assoc, List.singleton_append] at hRest

end Built

/-- The alphabet with a nonterminal that has a description, and a letter. -/
def described : Alphabet :=
  ⟨[⟨startId, startLabel, some "start symbol"⟩, ⟨2, "A", some "one letter"⟩],
    [⟨emptyId, emptyLabel, some "empty string"⟩, ⟨3, "a", none⟩], 4⟩

theorem built_described : Built (empty described : Grammar α) := by
  let first : Alphabet :=
    ⟨described.nonterminals, Alphabet.initial.terminals, 3⟩
  have hA : Alphabet.initial.add .nonterminal "A" (some "one letter") =
      .ok (2, first) := rfl
  have hLetter : first.add .terminal "a" none = .ok (3, described) := rfl
  exact (Built.initial.symbol hA).symbol hLetter

end StochasticGrammar.Grammar
