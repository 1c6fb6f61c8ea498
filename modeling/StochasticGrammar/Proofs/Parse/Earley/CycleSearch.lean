import StochasticGrammar.Parse.Earley.Invariant

/-!
# The search for cycles

Whether a completed item would close a cycle is found out by a search through
the items below it.  The items still to be looked at are kept on a stack.  An
item that does not cover the span is dropped, an item that completes the rule
ends the search, and any other item is replaced by the items that it points
to.

Nothing in this loop bounds the number of its turns, and it fails on a number
that no item has.  `Searches` is the loop as it stands: it relates a stack to
an answer only if the search ends with this answer after finitely many turns,
and finds every item it asks for.

Main result: from any items of a sound chart the search ends, with the answer
of the recursion along back pointers (`Sound.searches`).
-/

namespace StochasticGrammar.Earley.Chart

variable {α : Type} {task : Task α} {c : Chart}

/-- The search for a rule over a span, from a stack of items, ends with an
answer. -/
inductive Searches (items : Array Item) (rule start state : Nat) :
    List Nat → Bool → Prop
  | exhausted : Searches items rule start state [] false
  | outside {b : Nat} {d : Item} {rest : List Nat} {answer : Bool} :
      items[b]? = some d → ¬(d.start = start ∧ d.state = state) →
      Searches items rule start state rest answer →
      Searches items rule start state (b :: rest) answer
  | found {b : Nat} {d : Item} {rest : List Nat} :
      items[b]? = some d → d.start = start → d.state = state →
      d.rule = rule → Searches items rule start state (b :: rest) true
  | deeper {b : Nat} {d : Item} {rest : List Nat} {answer : Bool} :
      items[b]? = some d → d.start = start → d.state = state →
      d.rule ≠ rule →
      Searches items rule start state (d.back.reverse ++ rest) answer →
      Searches items rule start state (b :: rest) answer

variable {rule start state : Nat}

/-- The recursion along back pointers, without the bound on them. -/
theorem Sound.repeats_eq (h : c.Sound task) {b : Nat} {d : Item}
    (hItem : c.items[b]? = some d) :
    repeats c.items rule start state b =
      (d.start == start && d.state == state &&
        (d.rule == rule ||
          d.back.any (repeats c.items rule start state))) := by
  have hAny : (d.back.any fun child =>
        if child < b then repeats c.items rule start state child
        else false) =
      d.back.any (repeats c.items rule start state) := by
    rw [Bool.eq_iff_iff, List.any_eq_true, List.any_eq_true]
    refine exists_congr fun child => and_congr_right fun hMem => ?_
    rw [if_pos (h.back_lt hItem child hMem)]
  rw [repeats, hItem]
  simp only [hAny]

/-- If the search gets through each item of a list to what is below it on the
stack, it gets through the list. -/
theorem Searches.append {items : Array Item} {bs rest : List Nat}
    {answer : Bool}
    (hEach : ∀ b ∈ bs, ∀ rest answer,
      Searches items rule start state rest answer →
      Searches items rule start state (b :: rest)
        (repeats items rule start state b || answer))
    (hRest : Searches items rule start state rest answer) :
    Searches items rule start state (bs ++ rest)
      (bs.any (repeats items rule start state) || answer) := by
  induction bs with
  | nil => simpa using hRest
  | cons b bs ih =>
      rw [List.cons_append, List.any_cons, Bool.or_assoc]
      exact hEach b (by simp) _ _ (ih fun x hx => hEach x (by simp [hx]))

/-- The search gets through the items below an item.  The induction is on the
number of the item, since its back pointers are smaller. -/
theorem Sound.searches_cons (h : c.Sound task) (b : Nat) :
    ∀ (d : Item) (rest : List Nat) (answer : Bool), c.items[b]? = some d →
      Searches c.items rule start state rest answer →
      Searches c.items rule start state (b :: rest)
        (repeats c.items rule start state b || answer) := by
  induction b using Nat.strongRecOn with
  | _ b ih =>
      intro d rest answer hItem hRest
      rw [h.repeats_eq hItem]
      by_cases hSpan : d.start = start ∧ d.state = state
      · obtain ⟨hStart, hState⟩ := hSpan
        by_cases hRule : d.rule = rule
        · simpa [hStart, hState, hRule] using
            Searches.found hItem hStart hState hRule
        · have hBelow : ∀ child ∈ d.back.reverse, ∀ rest answer,
              Searches c.items rule start state rest answer →
              Searches c.items rule start state (child :: rest)
                (repeats c.items rule start state child || answer) := by
            intro child hMem rest answer hRest
            have hMem := List.mem_reverse.1 hMem
            obtain ⟨e, he, _⟩ := ((h.key hItem).child child hMem).exists_item
            exact ih child (h.back_lt hItem child hMem) e rest answer he hRest
          have hSearch := Searches.append hBelow hRest
          rw [List.any_reverse] at hSearch
          have hOther : (d.rule == rule) = false :=
            beq_eq_false_iff_ne.2 hRule
          rw [hOther, Bool.false_or]
          simpa [hStart, hState] using
            Searches.deeper hItem hStart hState hRule hSearch
      · have hFalse : (d.start == start && d.state == state) = false := by
          simpa using hSpan
        rw [hFalse, Bool.false_and, Bool.false_or]
        exact .outside hItem hSpan hRest

/-- The search ends, and says whether one of the items repeats the rule. -/
theorem Sound.searches (h : c.Sound task) {back : List Nat}
    (hBack : ∀ b ∈ back, ∃ d, c.items[b]? = some d) :
    Searches c.items rule start state back.reverse
      (c.isCyclic rule start state back) := by
  have hEach : ∀ b ∈ back.reverse, ∀ rest answer,
      Searches c.items rule start state rest answer →
      Searches c.items rule start state (b :: rest)
        (repeats c.items rule start state b || answer) := by
    intro b hMem rest answer hRest
    obtain ⟨d, hItem⟩ := hBack b (List.mem_reverse.1 hMem)
    exact h.searches_cons b d rest answer hItem hRest
  have hSearch := Searches.append hEach .exhausted
  rwa [List.append_nil, Bool.or_false, List.any_reverse] at hSearch

end StochasticGrammar.Earley.Chart
