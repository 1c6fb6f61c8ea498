import StochasticGrammar.NormalForm.EmptyRules
import StochasticGrammar.Proofs.Weight.Basic

/-!
# Weights without empty right sides

A rule with two symbols derives a nonempty word in three ways: both symbols
derive some of it, or one of them derives nothing and the other one the word.
The shortened versions of the rule stand for the last two, with the weight of
deriving nothing as a factor.  So the words other than the empty one keep their
weights, and the empty one loses its own.

What is known of the factors is a hypothesis (`Factors`).  How they are found
does not matter.

Main results: `total_withShortened`.
-/

namespace StochasticGrammar.NormalForm

open Weighting
open scoped ENNReal

/-! ## What was fitted -/

theorem lookup_zip_eq_none_iff {β : Type} {xs : List SymbolId} {ys : List β}
    (h : xs.length ≤ ys.length) {x : SymbolId} :
    (xs.zip ys).lookup x = none ↔ x ∉ xs := by
  have hMem : x ∈ xs ↔ ∃ q ∈ xs.zip ys, q.1 = x := by
    rw [← List.mem_map, List.map_fst_zip h]
  rw [List.lookup_eq_none_iff, hMem]
  constructor
  · rintro hAll ⟨q, hq, rfl⟩
    simpa using hAll q hq
  · intro hNot q hq
    simpa using fun hEq => hNot ⟨q, hq, Eq.symm hEq⟩

section Fit

variable {α : Type} [Zero α] [One α] [Add α] [Sub α] [Neg α] [Mul α] [Div α]
  [OfScientific α] [LT α] [DecidableLT α] [LE α] [DecidableLE α]
  {options : Options α} {rules : List (Rule α)}

/-- If no symbol is erasable, nothing is fitted, and no procedure is asked. -/
theorem fit_of_erasables_nil (hNone : erasables rules = []) :
    Erasure.fit options rules = .nothing := by
  unfold Erasure.fit
  rw [hNone]
  rfl

theorem symbols_fit : (Erasure.fit options rules).symbols = erasables rules := by
  unfold Erasure.fit
  by_cases hNone : (erasables rules).isEmpty = true
  · simp only [if_pos hNone]
    exact (List.isEmpty_iff.1 hNone).symm
  · simp only [if_neg hNone]

/-- The erasable symbols are those with a fitted probability. -/
theorem probability?_fit_eq_none_iff {x : SymbolId} :
    (Erasure.fit options rules).probability? x = none ↔
      x ∉ erasables rules := by
  have hLength : (Erasure.fit options rules).symbols.length ≤
      (Erasure.fit options rules).probabilities.length := by
    unfold Erasure.fit
    by_cases hNone : (erasables rules).isEmpty = true
    · simp only [if_pos hNone]
      exact le_refl _
    · simp only [if_neg hNone, Vector.length_toList]
      exact le_refl _
  rw [Erasure.probability?, lookup_zip_eq_none_iff hLength, symbols_fit]

theorem mem_erasables_of_eq_some {x : SymbolId} {p : α}
    (h : (Erasure.fit options rules).probability? x = some p) :
    x ∈ erasables rules := by
  by_contra hNot
  rw [probability?_fit_eq_none_iff.2 hNot] at h
  simp at h

end Fit

/-! ## Leaving out the empty word -/

variable {α : Type} [Mul α]

/-- A weight without what it gives to the empty word. -/
def erased (f : List SymbolId → ℝ≥0∞) (w : List SymbolId) : ℝ≥0∞ :=
  if w = [] then 0 else f w

@[simp] theorem erased_nil (f : List SymbolId → ℝ≥0∞) : erased f [] = 0 := rfl

theorem erased_of_ne {f : List SymbolId → ℝ≥0∞} {w : List SymbolId}
    (h : w ≠ []) : erased f w = f w :=
  if_neg h

theorem erased_of_nil_eq_zero {f : List SymbolId → ℝ≥0∞} (h : f [] = 0) :
    erased f = f := by
  funext w
  by_cases hw : w = []
  · rw [hw, erased_nil, h]
  · exact erased_of_ne hw

/-- A nonempty word is split into nothing and itself, into itself and nothing,
or into two nonempty words. -/
theorem splice_eq_add_erased (f g : List SymbolId → ℝ≥0∞)
    {w : List SymbolId} (hw : w ≠ []) :
    splice f g w =
      f [] * erased g w + erased f w * g [] +
        splice (erased f) (erased g) w := by
  obtain ⟨n, hn⟩ : ∃ n, w.length = n + 1 :=
    ⟨w.length - 1, by have := List.length_pos_iff.2 hw; omega⟩
  have hEnds : ∀ f g : List SymbolId → ℝ≥0∞, splice f g w =
      f [] * g w + f w * g [] + ∑ i ∈ Finset.range n,
        f (w.take (i + 1)) * g (w.drop (i + 1)) := by
    intro f g
    rw [splice, hn, Finset.sum_range_succ, Finset.sum_range_succ', ← hn]
    simp only [List.take_zero, List.drop_zero, List.take_length,
      List.drop_length]
    ring
  have hMiddle : ∀ i ∈ Finset.range n,
      f (w.take (i + 1)) * g (w.drop (i + 1)) =
        erased f (w.take (i + 1)) * erased g (w.drop (i + 1)) := by
    intro i hi
    have hLt := Finset.mem_range.1 hi
    rw [erased_of_ne, erased_of_ne]
    · intro h
      have := List.drop_eq_nil_iff.1 h
      omega
    · intro h
      have := congrArg List.length h
      simp only [List.length_take, List.length_nil] at this
      omega
  rw [hEnds f g, hEnds (erased f) (erased g), Finset.sum_congr rfl hMiddle,
    erased_nil, erased_nil, zero_mul, mul_zero, zero_add, zero_add,
    erased_of_ne hw, erased_of_ne hw]

/-! ## One rule -/

/-- The factors of the shortened rules are the weights of the empty word. -/
structure Factors (φ : α → ℝ≥0∞) (e : Erasure α) (rules : List (Rule α))
    (h : Weighting) : Prop where
  known : ∀ {x : SymbolId} {p : α}, e.probability? x = some p →
    ∀ r ∈ rules, φ (r.probability * p) = φ r.probability * h x []
  unknown : ∀ {x : SymbolId}, e.probability? x = none →
    ∀ r ∈ rules, x ∈ r.rhs → h x [] = 0

section Rule

variable {φ : α → ℝ≥0∞} {e : Erasure α} {rules : List (Rule α)}
  {h : Weighting} {a : SymbolId} {w : List SymbolId}

/-- The version of a rule that keeps one symbol and lacks the other, if the
other is erasable. -/
def lacking (e : Erasure α) (r : Rule α) (x y : SymbolId) : List (Rule α) :=
  match e.probability? x with
  | some p => [⟨r.lhs, [y], r.probability * p⟩]
  | none => []

theorem shortened_pair {r : Rule α} {x y : SymbolId} (hRhs : r.rhs = [x, y]) :
    shortened e r = lacking e r x y ++ lacking e r y x := by
  rw [shortened, hRhs]
  rfl

/-- The version that lacks a symbol has the weight of that symbol as a
factor. -/
theorem expand_lacking (hFactors : Factors φ e rules h) {r : Rule α}
    (hr : r ∈ rules) {x : SymbolId} (hx : x ∈ r.rhs) (y : SymbolId)
    (k : Weighting) :
    expand (valued φ (lacking e r x y)) k a w =
      if r.lhs = a then φ r.probability * (h x [] * k y w) else 0 := by
  unfold lacking
  cases hKnown : e.probability? x with
  | some p =>
      rw [← mul_assoc, ← hFactors.known hKnown r hr, ← row_singleton k y]
      simp [valued, ruleWeight]
  | none =>
      rw [hFactors.unknown hKnown r hr hx]
      simp [valued]

/-- A short rule gives to a nonempty word what it and its shortened versions
give to it when the empty word is left out. -/
theorem ruleWeight_eq_expand_shortened (hFactors : Factors φ e rules h)
    (hw : w ≠ []) {r : Rule α} (hr : r ∈ rules) (hShort : r.rhs.length ≤ 2) :
    ruleWeight h a w ⟨r.lhs, r.rhs, φ r.probability⟩ =
      (if r.rhs.isEmpty then 0 else
        ruleWeight (fun x => erased (h x)) a w
          ⟨r.lhs, r.rhs, φ r.probability⟩ +
        expand (valued φ (shortened e r)) (fun x => erased (h x)) a w) := by
  match hRhs : r.rhs, hShort with
  | [], _ =>
      simp [ruleWeight, silent, hw]
  | [y], _ =>
      have hNone : shortened e r = [] := by
        rw [shortened, hRhs]
      rw [hNone]
      simp [ruleWeight, erased_of_ne hw, valued]
  | [y, z], _ =>
      rw [if_neg (by simp), shortened_pair hRhs, valued_append, expand_append,
        expand_lacking hFactors hr (by simp [hRhs]),
        expand_lacking hFactors hr (by simp [hRhs]), ruleWeight, ruleWeight]
      by_cases hLhs : r.lhs = a
      · simp only [if_pos hLhs]
        rw [row_pair, row_pair, splice_eq_add_erased (h y) (h z) hw]
        ring
      · simp only [if_neg hLhs, add_zero]
  | y :: z :: t :: rest, hShort => simp at hShort

/-- All rules together do so. -/
theorem expand_withShortened (hFactors : Factors φ e rules h) (hw : w ≠ [])
    (hShort : ∀ r ∈ rules, r.rhs.length ≤ 2) :
    expand (valued φ (withShortened e rules)) (fun x => erased (h x)) a w =
      expand (valued φ rules) h a w := by
  have hRules : ∀ rs : List (Rule α), rs ⊆ rules →
      expand (valued φ (withShortened e rs)) (fun x => erased (h x)) a w =
        expand (valued φ rs) h a w := by
    intro rs
    induction rs with
    | nil => exact fun _ => rfl
    | cons r rs ih =>
        intro hSub
        obtain ⟨hr, hSub⟩ := List.cons_subset.1 hSub
        have hRule := ruleWeight_eq_expand_shortened (a := a) hFactors hw hr
          (hShort r hr)
        have hTail := ih hSub
        rw [valued_cons, expand_cons, hRule, ← hTail]
        cases hEmpty : r.rhs.isEmpty with
        | true =>
            rw [if_pos rfl, zero_add, withShortened, withShortened,
              List.filter_cons_of_neg (by simp [hEmpty])]
        | false =>
            rw [if_neg (by simp), withShortened, withShortened,
              List.filter_cons_of_pos (by simp [hEmpty])]
            simp only [List.flatMap_cons, valued_append, valued_cons,
              List.cons_append, expand_append, expand_cons]
            ring
  exact hRules rules (List.Subset.refl _)

omit rules in
/-- A version of a rule lacks one of two symbols, and it has the factor of that
symbol. -/
theorem exists_of_mem_shortened {r s : Rule α} (hr : r ∈ shortened e s) :
    ∃ x y p, (s.rhs = [x, y] ∨ s.rhs = [y, x]) ∧
      e.probability? x = some p ∧
      r = ⟨s.lhs, [y], s.probability * p⟩ := by
  have hLacking : ∀ {x y : SymbolId}, r ∈ lacking e s x y →
      ∃ p, e.probability? x = some p ∧
        r = ⟨s.lhs, [y], s.probability * p⟩ := by
    intro x y hMem
    unfold lacking at hMem
    split at hMem
    · rename_i p hKnown
      exact ⟨p, hKnown, List.mem_singleton.1 hMem⟩
    · simp at hMem
  unfold shortened at hr
  split at hr
  · rename_i first second hRhs
    rcases List.mem_append.1 hr with hMem | hMem
    · obtain ⟨p, hKnown, hRule⟩ := hLacking hMem
      exact ⟨first, second, p, .inl hRhs, hKnown, hRule⟩
    · obtain ⟨p, hKnown, hRule⟩ := hLacking hMem
      exact ⟨second, first, p, .inr hRhs, hKnown, hRule⟩
  · simp at hr

/-- The sides of the rules without empty right sides come from rules that were
there. -/
theorem sides_of_mem_withShortened {r : Rule α}
    (hr : r ∈ withShortened e rules) :
    ∃ s ∈ rules, r.lhs = s.lhs ∧ r.rhs ⊆ s.rhs ∧
      r.rhs.length ≤ s.rhs.length := by
  rcases List.mem_append.1 hr with hr | hr
  · exact ⟨r, List.mem_of_mem_filter hr, rfl, fun _ hx => hx, le_refl _⟩
  · obtain ⟨s, hs, hMem⟩ := List.mem_flatMap.1 hr
    obtain ⟨x, y, p, hRhs, _, rfl⟩ := exists_of_mem_shortened hMem
    refine ⟨s, List.mem_of_mem_filter hs, rfl, ?_⟩
    rcases hRhs with hRhs | hRhs <;> simp [hRhs]

/-- The factors keep the numbers good. -/
theorem good_of_mem_withShortened {good : α → Prop}
    (hGood : ∀ r ∈ rules, good r.probability)
    (hMul : ∀ {x : SymbolId} {p : α}, e.probability? x = some p →
      ∀ r ∈ rules, good (r.probability * p)) :
    ∀ r ∈ withShortened e rules, good r.probability := by
  intro r hr
  rcases List.mem_append.1 hr with hr | hr
  · exact hGood r (List.mem_of_mem_filter hr)
  · obtain ⟨s, hs, hMem⟩ := List.mem_flatMap.1 hr
    obtain ⟨x, y, p, _, hKnown, rfl⟩ := exists_of_mem_shortened hMem
    exact hMul hKnown s (List.mem_of_mem_filter hs)

end Rule

/-! ## All rules -/

section Total

variable {isTerminal : SymbolId → Bool} {φ : α → ℝ≥0∞} {e : Erasure α}
  {rules : List (Rule α)}

theorem erased_leaf {x : SymbolId} (hx : x ≠ emptyId) :
    erased (leaf x) = leaf x :=
  erased_of_nil_eq_zero (leaf_nil hx)

/-- Rules without empty right sides derive nothing from symbols that do not. -/
theorem expand_nil_eq_zero {h : Weighting} {new : List (Rule ℝ≥0∞)}
    (hNonempty : ∀ r ∈ new, r.rhs ≠ [])
    (hZero : ∀ r ∈ new, ∀ x ∈ r.rhs, h x [] = 0) (a : SymbolId) :
    expand new h a [] = 0 := by
  refine expand_eq_zero fun r hr _ => ?_
  obtain ⟨x, hx⟩ := List.exists_mem_of_ne_nil _ (hNonempty r hr)
  rw [row_apply_nil]
  exact List.prod_eq_zero (List.mem_map.2 ⟨x, hx, hZero r hr x hx⟩)

/-- Leaves other than the one of the empty string symbol do not matter when
the empty word is left out. -/
theorem withLeaves_erased (f : Weighting) {x : SymbolId} (hx : x ≠ emptyId) :
    withLeaves isTerminal (fun y => erased (f y)) x =
      erased (withLeaves isTerminal f x) := by
  by_cases hTerminal : isTerminal x = true
  · rw [withLeaves_terminal hTerminal, withLeaves_terminal hTerminal,
      erased_leaf hx]
  · rw [Bool.not_eq_true] at hTerminal
    rw [withLeaves_nonterminal hTerminal, withLeaves_nonterminal hTerminal]

theorem ne_emptyId_of_mem_withShortened
    (hEmpty : ∀ r ∈ rules, emptyId ∉ r.rhs) {r : Rule ℝ≥0∞}
    (hr : r ∈ valued φ (withShortened e rules)) {x : SymbolId}
    (hx : x ∈ r.rhs) : x ≠ emptyId := by
  rintro rfl
  obtain ⟨s, hs, rfl⟩ := List.mem_map.1 hr
  obtain ⟨t, ht, _, hRhs, _⟩ := sides_of_mem_withShortened hs
  exact hEmpty t ht (hRhs hx)

/-- Without empty right sides no word has more weight than before, and the
empty one has none. -/
theorem total_withShortened_le
    (hFactors : Factors φ e rules (totals isTerminal (valued φ rules)))
    (hShort : ∀ r ∈ rules, r.rhs.length ≤ 2)
    (hEmpty : ∀ r ∈ rules, emptyId ∉ r.rhs) :
    total isTerminal (valued φ (withShortened e rules)) ≤
      fun x => erased (total isTerminal (valued φ rules) x) := by
  have hNonempty : ∀ r ∈ valued φ (withShortened e rules), r.rhs ≠ [] := by
    intro r hr
    obtain ⟨s, hs, rfl⟩ := List.mem_map.1 hr
    show s.rhs ≠ []
    exact ne_nil_of_mem_withShortened hs
  have hLeaves : ∀ r ∈ valued φ (withShortened e rules), ∀ y ∈ r.rhs,
      withLeaves isTerminal
        (fun x => erased (total isTerminal (valued φ rules) x)) y =
          erased (totals isTerminal (valued φ rules) y) := fun r hr y hy =>
    withLeaves_erased _ (ne_emptyId_of_mem_withShortened hEmpty hr hy)
  refine total_le fun x w => ?_
  rw [expand_congr fun r hr _ => congrFun (row_congr (hLeaves r hr)) w]
  by_cases hw : w = []
  · rw [hw, expand_nil_eq_zero hNonempty fun r _ y _ => erased_nil _]
    exact zero_le
  · rw [expand_withShortened hFactors hw hShort, expand_total,
      erased_of_ne hw]

/-- Weights for the words other than the empty one, completed by the ones of
the empty word. -/
def completed (f g : Weighting) : Weighting := fun x w =>
  if w = [] then f x [] else g x w

@[simp] theorem completed_nil (f g : Weighting) (x : SymbolId) :
    completed f g x [] = f x [] := rfl

theorem completed_of_ne {f g : Weighting} {x : SymbolId} {w : List SymbolId}
    (hw : w ≠ []) : completed f g x w = g x w :=
  if_neg hw

theorem erased_completed {f g : Weighting} {x : SymbolId}
    (hZero : g x [] = 0) : erased (completed f g x) = g x := by
  funext w
  by_cases hw : w = []
  · rw [hw, erased_nil, hZero]
  · rw [erased_of_ne hw, completed_of_ne hw]

theorem withLeaves_completed_nil (f g : Weighting) (x : SymbolId) :
    withLeaves isTerminal (completed f g) x [] =
      withLeaves isTerminal f x [] := by
  by_cases hTerminal : isTerminal x = true
  · rw [withLeaves_terminal hTerminal, withLeaves_terminal hTerminal]
  · rw [Bool.not_eq_true] at hTerminal
    rw [withLeaves_nonterminal hTerminal, withLeaves_nonterminal hTerminal,
      completed_nil]

/-- Without empty right sides no word other than the empty one has less weight
than before. -/
theorem le_total_withShortened
    (hFactors : Factors φ e rules (totals isTerminal (valued φ rules)))
    (hShort : ∀ r ∈ rules, r.rhs.length ≤ 2)
    (hEmpty : ∀ r ∈ rules, emptyId ∉ r.rhs) :
    total isTerminal (valued φ rules) ≤
      completed (total isTerminal (valued φ rules))
        (total isTerminal (valued φ (withShortened e rules))) := by
  generalize hCompleted : completed (total isTerminal (valued φ rules))
    (total isTerminal (valued φ (withShortened e rules))) = f
  have hNil : ∀ x, withLeaves isTerminal f x [] =
      totals isTerminal (valued φ rules) x [] := by
    intro x
    rw [← hCompleted, withLeaves_completed_nil]
  have hZero : ∀ x, total isTerminal (valued φ (withShortened e rules)) x [] =
      0 := fun x =>
    le_antisymm (total_withShortened_le hFactors hShort hEmpty x []) zero_le
  have hErased : ∀ r ∈ valued φ (withShortened e rules), ∀ x ∈ r.rhs,
      erased (withLeaves isTerminal f x) =
        totals isTerminal (valued φ (withShortened e rules)) x := by
    intro r hr x hx
    rw [← withLeaves_erased f (ne_emptyId_of_mem_withShortened hEmpty hr hx),
      ← hCompleted]
    simp only [erased_completed (hZero _)]
  have hFactors' : Factors φ e rules (withLeaves isTerminal f) :=
    ⟨fun hx r hr => by rw [hNil, hFactors.known hx r hr],
      fun hx r hr hMem => by rw [hNil, hFactors.unknown hx r hr hMem]⟩
  refine total_le fun x w => ?_
  by_cases hw : w = []
  · have hRow : ∀ rhs, row (withLeaves isTerminal f) rhs [] =
        row (totals isTerminal (valued φ rules)) rhs [] := by
      intro rhs
      rw [row_apply_nil, row_apply_nil]
      simp only [hNil]
    rw [hw, expand_congr fun r _ _ => hRow r.rhs, expand_total, ← hCompleted,
      completed_nil]
  · rw [← expand_withShortened hFactors' hw hShort,
      expand_congr fun r hr _ => congrFun (row_congr (hErased r hr)) w,
      expand_total, ← hCompleted, completed_of_ne hw]

/-- Without empty right sides, the empty word has no weight, and the other
words keep theirs. -/
theorem total_withShortened
    (hFactors : Factors φ e rules (totals isTerminal (valued φ rules)))
    (hShort : ∀ r ∈ rules, r.rhs.length ≤ 2)
    (hEmpty : ∀ r ∈ rules, emptyId ∉ r.rhs) (a : SymbolId) :
    total isTerminal (valued φ (withShortened e rules)) a =
      erased (total isTerminal (valued φ rules) a) := by
  have hUpper := total_withShortened_le hFactors hShort hEmpty
  have hLower := le_total_withShortened hFactors hShort hEmpty
  refine le_antisymm (hUpper a) fun w => ?_
  by_cases hw : w = []
  · rw [hw, erased_nil]
    exact zero_le
  · rw [erased_of_ne hw]
    exact (hLower a w).trans_eq (completed_of_ne hw)

end Total

end StochasticGrammar.NormalForm
