import StochasticGrammar.Proofs.Parse.Earley.Closure

/-!
# The agenda comes to its end

The agenda is followed step by step from the beginning, with no bound built
into the definition (`Agenda.after`).  A state is left only when each of its
items has been processed, so the number of steps counts the states that were
left and the items that were processed.  Charts are finite, so both are
bounded, whatever cycles the grammar has.

Later states add nothing to a state that has been left: where the agenda found
the state at its end, the state was complete.

Main results: every state is worked off after finitely many steps, only so many
steps can be taken and only so many items are ever added
(`Agenda.every_state_ends`).
-/

namespace StochasticGrammar.Earley

variable {α : Type} {task : Task α}

namespace Agenda

/-! ## One step -/

/-- The agenda has reached the end of its state: no item of it is left. -/
def AtEnd (a : Agenda) : Prop :=
  a.position = (a.chart.ids a.state).size

/-- A step changes no state before the one that is worked on. -/
theorem ids_eq_of_step {a b : Agenda} (hs : a.chart.Sound task)
    (hStep : a.step task = some b) {s : Nat} (hs' : s < a.state) :
    b.chart.ids s = a.chart.ids s := by
  rcases (step_eq_some hStep).2 with ⟨e, hNext, rfl⟩ | ⟨_, rfl⟩
  · have hGrows := Chart.grows_process hs (next?_eq_some hs hNext).1
    exact hGrows.ids_eq ((state_of_next hs hNext).2 ▸ hs')
  · rfl

/-! ## Many steps -/

/-- The agenda after a number of steps; none if it ended before. -/
def after (task : Task α) : Nat → Option Agenda
  | 0 => some (start task)
  | n + 1 => (after task n).bind (·.step task)

theorem after_succ {n : Nat} {b : Agenda} :
    after task (n + 1) = some b ↔
      ∃ a, after task n = some a ∧ a.step task = some b := by
  simp [after, Option.bind_eq_some_iff]

theorem reachable_of_after {n : Nat} {a : Agenda}
    (h : after task n = some a) : a.Reachable task := by
  induction n generalizing a with
  | zero =>
      cases h
      exact .start
  | succ n ih =>
      obtain ⟨b, hb, hStep⟩ := after_succ.1 h
      exact (ih hb).step hStep

/-- What holds of an agenda after `n` steps. -/
structure Counted (task : Task α) (n : Nat) (a : Agenda) : Prop where
  state_le : a.state ≤ task.input.size + 1
  position_le : a.position ≤ (a.chart.ids a.state).size
  /-- No state takes more steps than there are items, and one to leave it. -/
  steps_le : n ≤ a.state * (task.itemBound + 1) + a.position

/-- A state without a next item is at its end. -/
theorem Counted.atEnd {n : Nat} {a : Agenda} (h : Counted task n a)
    (hs : a.chart.Sound task) (hNext : a.next? = none) : a.AtEnd := by
  have hLe := h.position_le
  unfold AtEnd
  by_cases hLt : a.position < (a.chart.ids a.state).size
  · obtain ⟨e, he, _⟩ := hs.home (Array.getElem_mem hLt)
    simp [next?, hLt, he] at hNext
  · omega

theorem counted_step {n : Nat} {a b : Agenda} (h : Counted task n a)
    (hs : a.chart.Sound task) (hStep : a.step task = some b) :
    Counted task (n + 1) b := by
  have hSteps := h.steps_le
  obtain ⟨hState, ⟨e, hNext, rfl⟩ | ⟨hNext, rfl⟩⟩ := step_eq_some hStep
  · obtain ⟨hItem, hLt⟩ := next?_eq_some hs hNext
    have hGrows := Chart.grows_process hs hItem
    have hPrefix := hGrows.ids_prefix (r := a.state)
    have hSize := hPrefix.length_le
    simp only [Array.length_toList] at hSize
    exact
      { state_le := h.state_le
        position_le := Nat.le_trans hLt hSize
        steps_le := Nat.succ_le_succ hSteps }
  · -- the state that is left has no more items than the chart
    have hEnd : a.position = (a.chart.ids a.state).size := h.atEnd hs hNext
    have hIds := hs.size_ids a.state
    have hBound := hs.size_le
    refine ⟨Nat.succ_le_succ hState, Nat.zero_le _, ?_⟩
    show n + 1 ≤ (a.state + 1) * (task.itemBound + 1) + 0
    rw [Nat.succ_mul]
    omega

theorem counted_of_after {n : Nat} {a : Agenda}
    (h : after task n = some a) : Counted task n a := by
  induction n generalizing a with
  | zero =>
      cases h
      exact ⟨Nat.zero_le _, Nat.zero_le _, Nat.zero_le _⟩
  | succ n ih =>
      obtain ⟨b, hb, hStep⟩ := after_succ.1 h
      exact counted_step (ih hb) (reachable_of_after hb).sound hStep

/-- How many steps the agenda can take. -/
def stepBound (task : Task α) : Nat :=
  (task.input.size + 1) * (task.itemBound + 1)

theorem le_stepBound {n : Nat} {a : Agenda} (h : after task n = some a) :
    n ≤ stepBound task := by
  have hs := (reachable_of_after h).sound
  have hCounted := counted_of_after h
  have hSteps := hCounted.steps_le
  have hPosition := hCounted.position_le
  have hIds := hs.size_ids a.state
  have hBound := hs.size_le
  unfold stepBound
  rcases Nat.lt_or_ge task.input.size a.state with hLast | hState
  · -- after the last state there is no state to hold items
    have hEq : a.state = task.input.size + 1 :=
      Nat.le_antisymm hCounted.state_le hLast
    have hNone : a.chart.ids a.state = #[] := by
      simp [Chart.ids, hEq, hs.size_states]
    rw [hNone] at hPosition
    rw [hEq] at hSteps
    simp only [List.size_toArray, List.length_nil] at hPosition
    omega
  · have hMul : (a.state + 1) * (task.itemBound + 1) ≤
        (task.input.size + 1) * (task.itemBound + 1) :=
      Nat.mul_le_mul_right _ (Nat.succ_le_succ hState)
    rw [Nat.succ_mul a.state] at hMul
    omega

/-! ## The end of each state -/

/-- Each state before the one that is worked on was found at its end, with the
items that it has now. -/
theorem exists_atEnd {n : Nat} {a : Agenda} (h : after task n = some a)
    {s : Nat} (hs : s < a.state) :
    ∃ m ≤ n, ∃ b, after task m = some b ∧ b.state = s ∧ b.AtEnd ∧
      b.chart.ids s = a.chart.ids s := by
  induction n generalizing a with
  | zero =>
      cases h
      exact absurd hs (Nat.not_lt_zero s)
  | succ n ih =>
      obtain ⟨c, hc, hStep⟩ := after_succ.1 h
      have hSound := (reachable_of_after hc).sound
      have hEarlier (hBefore : s < c.state) :
          ∃ m ≤ n + 1, ∃ b, after task m = some b ∧ b.state = s ∧ b.AtEnd ∧
            b.chart.ids s = a.chart.ids s := by
        obtain ⟨m, hm, b, hb, hState, hEnd, hIds⟩ := ih hc hBefore
        exact ⟨m, Nat.le_succ_of_le hm, b, hb, hState, hEnd,
          hIds.trans (ids_eq_of_step hSound hStep hBefore).symm⟩
      rcases (step_eq_some hStep).2 with ⟨_, _, rfl⟩ | ⟨hNext, rfl⟩
      · exact hEarlier hs
      · rcases Nat.lt_or_eq_of_le (Nat.lt_succ_iff.1 hs) with hBefore | hHere
        · exact hEarlier hBefore
        · exact ⟨n, Nat.le_succ n, c, hc, hHere.symm,
            (counted_of_after hc).atEnd hSound hNext, rfl⟩

/-- The agendas that a parse goes through are those after some steps. -/
theorem exists_after {a : Agenda} (h : a.Reachable task) :
    ∃ n, after task n = some a := by
  induction h with
  | start => exact ⟨0, rfl⟩
  | step _ hStep ih =>
      obtain ⟨n, hn⟩ := ih
      exact ⟨n + 1, after_succ.2 ⟨_, hn, hStep⟩⟩

/-- For every grammar and input the agenda reaches the end of every state after
finitely many steps, and then the state has all the items that it has in the
finished chart.  Only so many steps can be taken, the last of which leaves the
finished chart behind, and no chart on the way has more items than there are
trees for them to stand for. -/
theorem every_state_ends (g : Grammar α) (input : List SymbolId) :
    let task := Task.make g input
    (∀ s ≤ input.length, ∃ n ≤ stepBound task, ∃ a,
      after task n = some a ∧ a.state = s ∧ a.AtEnd ∧
        a.chart.ids s = task.chart.ids s) ∧
    (∃ n ≤ stepBound task, ∃ a, after task n = some a ∧
      a.step task = none ∧ a.chart = task.chart) ∧
    ∀ n a, after task n = some a →
      n ≤ stepBound task ∧ a.chart.items.size ≤ task.itemBound := by
  intro task
  have hReachable := reachable_run task (start task) .start
  have hLast := step_run task (start task) .start
  obtain ⟨n, hn⟩ := exists_after hReachable
  have hBound := le_stepBound hn
  refine ⟨fun s hs => ?_, ⟨n, hBound, _, hn, hLast, rfl⟩, fun m a hm =>
    ⟨le_stepBound hm, (reachable_of_after hm).sound.size_le⟩⟩
  have hBefore : s < ((start task).run task .start).state := by
    have hSize : task.input.size < _ := step_eq_none_iff.1 hLast
    exact Nat.lt_of_le_of_lt hs hSize
  obtain ⟨m, hm, b, hb, hState, hEnd, hIds⟩ := exists_atEnd hn hBefore
  exact ⟨m, Nat.le_trans hm hBound, b, hb, hState, hEnd, hIds⟩

end Agenda

end StochasticGrammar.Earley
