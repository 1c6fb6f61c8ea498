import StochasticGrammar.Proofs.NormalForm.Failure
import StochasticGrammar.Proofs.NormalForm.Language
import StochasticGrammar.Proofs.NormalForm.Settled

/-!
# The shape of the result

What the conversion of a grammar gives is in normal form in the strict sense:
the start symbol is on no right side, a rule has two symbols on the right, none
of them the empty string symbol, or it leads from the start symbol to a single
terminal, and at most one rule leads to the empty string symbol.  No two rules
have the same sides and no rule is without use.  The alphabet has gained
nonterminals with new labels, and nothing else about it has changed.

Each property is made by one stage and kept by those that follow: the start
symbol is isolated first, the pairs come with the end of the unit rules, and
the last two stages only drop rules and change probabilities.

Main result: `result_shape`.
-/

namespace StochasticGrammar.NormalForm

variable {α : Type}

/-- The shape of what becomes of a grammar. -/
structure Shape (g c : Grammar α) : Prop where
  wellFormed : c.WellFormed
  startId_notMem : ∀ r ∈ c.rules, startId ∉ r.rhs
  rhs : ∀ r ∈ c.rules,
    (∃ x y, r.rhs = [x, y] ∧ x ≠ emptyId ∧ y ≠ emptyId) ∨
    (r.lhs = startId ∧ ∃ a, r.rhs = [a] ∧ c.alphabet.isTerminal a = true ∧
      a ≠ emptyId) ∨
    (r.lhs = startId ∧ r.rhs = [emptyId])
  nodup : (c.rules.map Rule.sides).Nodup
  count_empty : (c.rules.map Rule.sides).count (startId, [emptyId]) ≤ 1
  referenced : ∀ r ∈ c.rules, r.lhs ≠ startId → ∃ s ∈ c.rules, r.lhs ∈ s.rhs
  extends_alphabet : g.alphabet.Extends c.alphabet
  keeps : ∀ id, g.alphabet.hasId id = true →
    c.alphabet.find? id = g.alphabet.find? id ∧
      c.alphabet.rank? id = g.alphabet.rank? id ∧
        c.alphabet.isTerminal id = g.alphabet.isTerminal id

section Result

variable [Zero α] [One α] [Add α] [Sub α] [Neg α] [Mul α] [Div α]
  [OfScientific α] [LT α] [DecidableLT α] [LE α] [DecidableLE α]
  {options : Options α} {g c : Grammar α}

/-- What becomes of a grammar has the shape of a normal form. -/
theorem shape_of_converted {s : Stage α} {chains : Chains α} (hg : g.Built)
    (h : Converted options g s chains c) : Shape g c := by
  have hSettled := h.settled hg.wellFormed
  have hGrown : g.alphabet.Grown s.alphabet := by
    obtain ⟨t, hSplit, hGrown⟩ := exists_split hg
    rw [h.split] at hSplit
    cases hSplit
    exact hGrown
  have hAlphabet : c.alphabet = s.alphabet := congrArg Grammar.alphabet h.result
  constructor
  · exact hSettled.wellFormed
  · exact hSettled.startId_notMem
  · exact hSettled.rhs
  · exact hSettled.nodup
  · exact List.nodup_iff_count_le_one.1 hSettled.nodup _
  · intro r hr hNe
    simpa [isReferenced, hNe] using hSettled.referenced r hr
  · rw [hAlphabet]
    exact hGrown.toExtends
  · intro id hId
    rw [hAlphabet, hGrown.isTerminal_eq]
    exact ⟨hGrown.find?_eq hId, hGrown.rank?_eq hId, rfl⟩

/-- A grammar that was put together fails to be converted only because of its
numbers: no label is taken, no symbol is unknown where it is looked up, and no
rule is refused.  What it is converted to has the shape of a normal form. -/
theorem result_shape (hg : g.Built) :
    (∀ e, result options g = .error e →
      (∃ residual iterations evaluations,
        e = .notConverged residual iterations evaluations) ∨
          ∃ reason, e = .chains reason) ∧
    (∀ e, emptied options g = .ok e → Closed e.alphabet e.rules ∧
      ∀ chains, Chains.solve options e.alphabet e.rules = .ok chains →
        ∀ x ∈ e.alphabet.ids .nonterminal, ∀ y ∈ columns e.alphabet,
          (chains.total? x y).isSome = true) ∧
    ∀ c, result options g = .ok c → Shape g c := by
  refine ⟨fun e h => error_of_result hg h, fun e h => ?_, fun c h => ?_⟩
  · exact ⟨closed_emptied hg.wellFormed h,
      fun chains hSolve x hx y hy => isSome_total? hSolve hx hy⟩
  · obtain ⟨s, chains, hConverted⟩ := exists_converted h
    exact shape_of_converted hg hConverted

end Result

/-- A grammar for which every stage has something to do: `S -> S A a`, `S -> A`,
`A -> e` and `A -> a`. -/
def crowded : Grammar ℚ where
  alphabet := Grammar.described
  rules := [⟨startId, [startId, 2, 3], 1⟩, ⟨startId, [2], 1⟩,
    ⟨2, [emptyId], 1⟩, ⟨2, [3], 2⟩]

theorem built_crowded : crowded.Built := by
  refine Grammar.built_described.addRules fun r hr => ?_
  simp only [List.mem_cons, List.not_mem_nil, or_false] at hr
  rcases hr with rfl | rfl | rfl | rfl <;> rfl

/-- The grammar is converted, and has the shape of a normal form then. -/
theorem result_shape_crowded :
    ∃ c, result careless crowded = .ok c ∧ Shape crowded c := by
  have hOk : (result careless crowded).isOk = true := by decide +kernel
  cases hResult : result careless crowded with
  | error e =>
      rw [hResult] at hOk
      cases hOk
  | ok c => exact ⟨c, rfl, (result_shape built_crowded).2.2 c hResult⟩

end StochasticGrammar.NormalForm
