import StochasticGrammar.NormalForm.Conversion
import StochasticGrammar.Proofs.Grammar.WellFormed

/-!
# Two readings of the empty string symbol

For parsing with the agenda a rule to the lone empty string symbol becomes a
rule to nothing, and other rules stay as they are.  The conversion leaves the
symbol out wherever it stands on a right side.  The second reading of a rule
does not notice the first.  On a grammar that has the symbol only alone on
right sides the two are the same (`EmptyAlone`).
-/

namespace StochasticGrammar

variable {α : Type}

/-! ## Rules -/

namespace Rule

variable {r : Rule α}

@[simp] theorem lhs_withoutLoneEmpty : r.withoutLoneEmpty.lhs = r.lhs := by
  unfold withoutLoneEmpty
  split <;> rfl

@[simp] theorem probability_withoutLoneEmpty :
    r.withoutLoneEmpty.probability = r.probability := by
  unfold withoutLoneEmpty
  split <;> rfl

theorem rhs_withoutLoneEmpty (h : r.rhs = [emptyId]) :
    r.withoutLoneEmpty.rhs = [] := by
  rw [withoutLoneEmpty, if_pos h]

theorem withoutLoneEmpty_eq (h : r.rhs ≠ [emptyId]) :
    r.withoutLoneEmpty = r := by
  rw [withoutLoneEmpty, if_neg h]

/-- A rule that leads to something afterwards was left as it is. -/
theorem withoutLoneEmpty_eq_of_ne_nil (h : r.withoutLoneEmpty.rhs ≠ []) :
    r.withoutLoneEmpty = r :=
  withoutLoneEmpty_eq fun hLone => h (rhs_withoutLoneEmpty hLone)

/-- Leaving the symbol out everywhere does not notice that it was left out
where it stood alone. -/
theorem withoutEmpty_withoutLoneEmpty :
    r.withoutLoneEmpty.withoutEmpty = r.withoutEmpty := by
  by_cases h : r.rhs = [emptyId]
  · simp [withoutEmpty, rhs_withoutLoneEmpty h, h]
  · rw [withoutLoneEmpty_eq h]

end Rule

/-! ## Grammars -/

namespace Grammar

variable {g : Grammar α}

@[simp] theorem alphabet_withoutEmptySymbol :
    g.withoutEmptySymbol.alphabet = g.alphabet := rfl

theorem getElem?_withoutEmptySymbol {ix : Nat} {r : Rule α} :
    g.withoutEmptySymbol.rules[ix]? = some r ↔
      ∃ s, g.rules[ix]? = some s ∧ s.withoutLoneEmpty = r := by
  simp [withoutEmptySymbol]

theorem mem_withoutEmptySymbol {r : Rule α} :
    r ∈ g.withoutEmptySymbol.rules ↔
      ∃ s ∈ g.rules, s.withoutLoneEmpty = r := by
  simp [withoutEmptySymbol]

theorem stripped_withoutEmptySymbol :
    NormalForm.stripped g.withoutEmptySymbol = NormalForm.stripped g := by
  rw [NormalForm.stripped, withoutEmptySymbol, List.map_map]
  exact List.map_congr_left fun r _ => Rule.withoutEmpty_withoutLoneEmpty

/-- The empty string symbol is a whole right side wherever it occurs. -/
def EmptyAlone (g : Grammar α) : Prop :=
  ∀ r ∈ g.rules, emptyId ∈ r.rhs → r.rhs = [emptyId]

instance : Decidable g.EmptyAlone :=
  inferInstanceAs (Decidable (∀ r ∈ g.rules, _ → _))

/-- Then no rule leads to it any more once it was left out where it stood
alone. -/
theorem EmptyAlone.notMem (h : g.EmptyAlone) {r : Rule α}
    (hr : r ∈ g.withoutEmptySymbol.rules) : emptyId ∉ r.rhs := by
  obtain ⟨s, hs, rfl⟩ := mem_withoutEmptySymbol.1 hr
  by_cases hLone : s.rhs = [emptyId]
  · simp [Rule.rhs_withoutLoneEmpty hLone]
  · rw [Rule.withoutLoneEmpty_eq hLone]
    exact fun hMem => hLone (h s hs hMem)

/-- Then both readings give the same rules. -/
theorem EmptyAlone.stripped_eq (h : g.EmptyAlone) :
    NormalForm.stripped g = g.withoutEmptySymbol.rules := by
  rw [← stripped_withoutEmptySymbol, NormalForm.stripped]
  refine (List.map_congr_left fun r hr => ?_).trans (List.map_id _)
  have hFilter : r.rhs.filter (· != emptyId) = r.rhs := by
    rw [List.filter_eq_self]
    intro x hx
    simpa using fun hEq : x = emptyId => h.notMem hr (hEq ▸ hx)
  rw [Rule.withoutEmpty, hFilter]
  rfl

end Grammar

end StochasticGrammar
