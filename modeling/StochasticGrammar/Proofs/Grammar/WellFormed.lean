import StochasticGrammar.Grammar.Basic
import StochasticGrammar.Proofs.Alphabet.WellFormed

/-!
# Well-formed grammars

A grammar is well-formed if its alphabet is and every rule was accepted: its
symbols exist and its left side is no terminal.  Grammars start out
well-formed, and a rule that is accepted keeps them so.
-/

namespace StochasticGrammar.Grammar

variable {α : Type}

/-- What holds of every grammar that is built by adding rules. -/
structure WellFormed (g : Grammar α) : Prop where
  alphabet : g.alphabet.WellFormed
  rules : ∀ r ∈ g.rules, ruleFault? g.alphabet r = none

/-- Nothing speaks against a rule exactly if its symbols exist and its left
side is no terminal. -/
theorem ruleFault?_eq_none_iff {al : Alphabet} {r : Rule α} :
    ruleFault? al r = none ↔
      (∀ id ∈ r.lhs :: r.rhs, al.hasId id = true) ∧
        al.isTerminal r.lhs = false := by
  unfold ruleFault?
  cases hUnknown : (r.lhs :: r.rhs).find? (!al.hasId ·) with
  | some id =>
      have hMem := List.mem_of_find?_eq_some hUnknown
      have hId := List.find?_some hUnknown
      simp only [reduceCtorEq, false_iff, not_and]
      intro hAll
      rw [hAll id hMem] at hId
      simp at hId
  | none =>
      have hAll : ∀ id ∈ r.lhs :: r.rhs, al.hasId id = true := by
        simpa using List.find?_eq_none.1 hUnknown
      have hIs : al.isTerminal r.lhs =
          (al.terminals.find? (·.id == r.lhs)).isSome := by
        rw [Bool.eq_iff_iff, List.find?_isSome, Alphabet.isTerminal,
          List.any_eq_true]
      cases hTerminal : al.terminals.find? (·.id == r.lhs) with
      | some s =>
          rw [hTerminal] at hIs
          simp [hIs]
      | none =>
          rw [hTerminal] at hIs
          simp only [hIs, Option.isSome_none, and_true, true_iff]
          exact hAll

/-- Over a well-formed alphabet this means that the left side is a
nonterminal. -/
theorem ruleFault?_eq_none_iff_isNonterminal {al : Alphabet}
    (hAl : al.WellFormed) {r : Rule α} :
    ruleFault? al r = none ↔ al.isNonterminal r.lhs = true ∧
      ∀ id ∈ r.rhs, al.hasId id = true := by
  rw [ruleFault?_eq_none_iff, List.forall_mem_cons, and_assoc,
    Alphabet.hasId_iff_mem_ids al r.lhs, Alphabet.isNonterminal_iff]
  constructor
  · rintro ⟨hLhs, hRhs, hHead⟩
    refine ⟨hLhs.resolve_right fun hTerminal => ?_, hRhs⟩
    rw [(Alphabet.isTerminal_iff al r.lhs).2 hTerminal] at hHead
    cases hHead
  · rintro ⟨hLhs, hRhs⟩
    exact ⟨.inl hLhs, hRhs, hAl.not_isTerminal hLhs⟩

/-- What may speak against a rule. -/
theorem ruleFault?_cases {al : Alphabet} {r : Rule α}
    {cause : GrammarError.Cause α} (h : ruleFault? al r = some cause) :
    (∃ id, cause = .unknownSymbol r id) ∨
      ∃ label, cause = .terminalHead r label := by
  unfold ruleFault? at h
  split at h
  · cases h
    exact .inl ⟨_, rfl⟩
  · split at h
    · cases h
      exact .inr ⟨_, rfl⟩
    · cases h

theorem addRule_eq_error_iff {g : Grammar α} {r : Rule α}
    {e : GrammarError α} :
    g.addRule r = .error e ↔
      ∃ cause, ruleFault? g.alphabet r = some cause ∧
        e = ⟨cause, none, 0⟩ := by
  unfold addRule
  cases hFault : ruleFault? g.alphabet r with
  | some cause => simp [eq_comm]
  | none => simp

theorem wellFormed_empty {al : Alphabet} (h : al.WellFormed) :
    (empty al : Grammar α).WellFormed :=
  ⟨h, by simp [empty]⟩

/-- A rule that is accepted keeps a grammar well-formed. -/
theorem WellFormed.addRule {g h : Grammar α} {r : Rule α} (hg : g.WellFormed)
    (hAdd : g.addRule r = .ok h) : h.WellFormed := by
  obtain ⟨hFault, rfl⟩ := addRule_eq_ok_iff.1 hAdd
  refine ⟨hg.alphabet, fun s hs => ?_⟩
  rcases List.mem_append.1 hs with hs | hs
  · exact hg.rules s hs
  · rw [List.mem_singleton.1 hs]
    exact hFault

namespace WellFormed

variable {g : Grammar α} {r : Rule α}

theorem hasId_lhs (hg : g.WellFormed) (hr : r ∈ g.rules) :
    g.alphabet.hasId r.lhs = true :=
  (ruleFault?_eq_none_iff.1 (hg.rules r hr)).1 r.lhs (by simp)

theorem hasId_of_mem_rhs (hg : g.WellFormed) (hr : r ∈ g.rules)
    {id : SymbolId} (hId : id ∈ r.rhs) : g.alphabet.hasId id = true :=
  (ruleFault?_eq_none_iff.1 (hg.rules r hr)).1 id (by simp [hId])

theorem isTerminal_lhs (hg : g.WellFormed) (hr : r ∈ g.rules) :
    g.alphabet.isTerminal r.lhs = false :=
  (ruleFault?_eq_none_iff.1 (hg.rules r hr)).2

/-- Reading a rule to the lone empty string symbol as one to nothing keeps a
grammar well-formed. -/
theorem withoutEmptySymbol (hg : g.WellFormed) :
    g.withoutEmptySymbol.WellFormed := by
  refine ⟨hg.alphabet, fun r hr => ?_⟩
  obtain ⟨s, hs, rfl⟩ := List.mem_map.1 hr
  obtain ⟨hIds, hHead⟩ := ruleFault?_eq_none_iff.1 (hg.rules s hs)
  rw [ruleFault?_eq_none_iff]
  unfold Rule.withoutLoneEmpty
  split
  · exact ⟨fun id hId => hIds id (by simp_all), hHead⟩
  · exact ⟨hIds, hHead⟩

end WellFormed

/-! ## Small grammars -/

/-- The alphabet with one terminal besides the empty string symbol. -/
def oneLetter : Alphabet :=
  ⟨[⟨startId, startLabel, none⟩],
    [⟨emptyId, emptyLabel, none⟩, ⟨2, "a", none⟩], 3⟩

theorem wellFormed_oneLetter : oneLetter.WellFormed := by
  constructor <;> decide

/-- The rows of one letter, with a rule that leads from the start symbol to
itself: `S -> S S`, `S -> S` and `S -> a`. -/
def chains (p q r : α) : Grammar α where
  alphabet := oneLetter
  rules := [⟨startId, [startId, startId], p⟩, ⟨startId, [startId], q⟩,
    ⟨startId, [2], r⟩]

theorem wellFormed_chains (p q r : α) : (chains p q r).WellFormed := by
  refine ⟨wellFormed_oneLetter, fun s hs => ?_⟩
  simp only [chains, List.mem_cons, List.not_mem_nil, or_false] at hs
  rcases hs with rfl | rfl | rfl <;> rfl

/-- The rows of at least two letters, which grow at either end: `S -> a S`,
`S -> S a` and `S -> a a`. -/
def growing (p q r : α) : Grammar α where
  alphabet := oneLetter
  rules := [⟨startId, [2, startId], p⟩, ⟨startId, [startId, 2], q⟩,
    ⟨startId, [2, 2], r⟩]

theorem wellFormed_growing (p q r : α) : (growing p q r).WellFormed := by
  refine ⟨wellFormed_oneLetter, fun s hs => ?_⟩
  simp only [growing, List.mem_cons, List.not_mem_nil, or_false] at hs
  rcases hs with rfl | rfl | rfl <;> rfl

/-- The alphabet with one nonterminal besides the start symbol, and one
letter. -/
def twoSymbols : Alphabet :=
  ⟨[⟨startId, startLabel, none⟩, ⟨3, "A", none⟩],
    [⟨emptyId, emptyLabel, none⟩, ⟨2, "a", none⟩], 4⟩

theorem wellFormed_twoSymbols : twoSymbols.WellFormed := by
  constructor <;> decide

/-- One letter, by way of a symbol that may go on for any number of steps:
`S -> A`, `A -> A` and `A -> a`. -/
def detour (p q r : α) : Grammar α where
  alphabet := twoSymbols
  rules := [⟨startId, [3], p⟩, ⟨3, [3], q⟩, ⟨3, [2], r⟩]

theorem wellFormed_detour (p q r : α) : (detour p q r).WellFormed := by
  refine ⟨wellFormed_twoSymbols, fun s hs => ?_⟩
  simp only [detour, List.mem_cons, List.not_mem_nil, or_false] at hs
  rcases hs with rfl | rfl | rfl <;> rfl

/-- Rows of pairs of letters, bracketed in all ways, and the empty row:
`S -> A A`, `S -> e`, `A -> A A` and `A -> a a`. -/
def brackets (p q : α) : Grammar α where
  alphabet := twoSymbols
  rules := [⟨startId, [3, 3], p⟩, ⟨startId, [emptyId], q⟩, ⟨3, [3, 3], p⟩,
    ⟨3, [2, 2], q⟩]

theorem wellFormed_brackets (p q : α) : (brackets p q).WellFormed := by
  refine ⟨wellFormed_twoSymbols, fun s hs => ?_⟩
  simp only [brackets, List.mem_cons, List.not_mem_nil, or_false] at hs
  rcases hs with rfl | rfl | rfl | rfl <;> rfl

/-- One letter with the empty string symbol after it: `S -> a e`. -/
def trailing (p : α) : Grammar α where
  alphabet := oneLetter
  rules := [⟨startId, [2, emptyId], p⟩]

theorem wellFormed_trailing (p : α) : (trailing p).WellFormed := by
  refine ⟨wellFormed_oneLetter, fun s hs => ?_⟩
  simp only [trailing, List.mem_singleton] at hs
  rw [hs]
  rfl

/-- One letter that another one may come before: `S -> A a`, `A -> e` and
`A -> a`. -/
def optional (p q r : α) : Grammar α where
  alphabet := twoSymbols
  rules := [⟨startId, [3, 2], p⟩, ⟨3, [emptyId], q⟩, ⟨3, [2], r⟩]

theorem wellFormed_optional (p q r : α) : (optional p q r).WellFormed := by
  refine ⟨wellFormed_twoSymbols, fun s hs => ?_⟩
  simp only [optional, List.mem_cons, List.not_mem_nil, or_false] at hs
  rcases hs with rfl | rfl | rfl <;> rfl

/-- The empty row, made of two empty parts: `S -> A A` and `A -> e`. -/
def twice (p q : α) : Grammar α where
  alphabet := twoSymbols
  rules := [⟨startId, [3, 3], p⟩, ⟨3, [emptyId], q⟩]

theorem wellFormed_twice (p q : α) : (twice p q).WellFormed := by
  refine ⟨wellFormed_twoSymbols, fun s hs => ?_⟩
  simp only [twice, List.mem_cons, List.not_mem_nil, or_false] at hs
  rcases hs with rfl | rfl <;> rfl

end StochasticGrammar.Grammar
