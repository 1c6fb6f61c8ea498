import StochasticGrammar.Proofs.Parse.Earley.Growth

/-!
# Every moment of a parse

The agenda shows the chart from one processed item to the next.  In between, a
loop goes through rules or items and adds to the chart at each of them, so the
chart is also there when the loop has gone through some of them only.

`Chart.Occurs` says of a chart that it is there at some moment: while the first
state is seeded, while a completed item advances the items that wait for it,
when an item has been moved over a terminal, while the rules of a nonterminal
are predicted, and while an item is advanced over the completions that span
nothing.  The moments of a loop are the prefixes of the list that it goes
through.

Main results: the charts on the agenda are among these
(`Agenda.Reachable.occurs`), all of them are sound (`Chart.Occurs.sound`), and
what growing keeps holds of them (`Chart.Occurs.of_grows`).
-/

namespace StochasticGrammar.Earley

variable {α : Type} {task : Task α}

namespace Chart

/-- The chart is there at some moment of a parse. -/
inductive Occurs (task : Task α) : Chart → Prop
  | seeding {rules : List Nat} : rules <+: task.rulesOf startId →
      Occurs task ((blank task).addRules task 0 rules)
  | completing {a : Agenda} {e : Item} {items : List Item} :
      a.Reachable task → a.next? = some e → task.next? e = none →
      items <+: a.chart.stateItems e.start →
      Occurs task (a.chart.completeOver task e items)
  | scanning {a : Agenda} {e : Item} {symbol : SymbolId} :
      a.Reachable task → a.next? = some e → task.next? e = some symbol →
      task.grammar.alphabet.isTerminal symbol = true →
      Occurs task (a.chart.scan task e symbol)
  | predicting {a : Agenda} {e : Item} {symbol : SymbolId}
      {rules : List Nat} :
      a.Reachable task → a.next? = some e → task.next? e = some symbol →
      task.grammar.alphabet.isTerminal symbol = false →
      rules <+: task.rulesOf symbol →
      Occurs task (a.chart.addRules task e.state rules)
  | passing {a : Agenda} {e : Item} {symbol : SymbolId} {items : List Item} :
      a.Reachable task → a.next? = some e → task.next? e = some symbol →
      task.grammar.alphabet.isTerminal symbol = false →
      items <+: (a.chart.predictRules task e.state symbol).stateItems
        e.state →
      Occurs task
        ((a.chart.predictRules task e.state symbol).passOver task e symbol
          items)

/-- When a loop has gone through its whole list, the item has been
processed. -/
theorem occurs_process {a : Agenda} (hReachable : a.Reachable task) {e : Item}
    (hNext : a.next? = some e) : Occurs task (a.chart.process task e) := by
  unfold process
  split
  · rename_i hDone
    exact .completing hReachable hNext hDone (List.prefix_refl _)
  · rename_i symbol hSymbol
    cases hTerminal : task.grammar.alphabet.isTerminal symbol with
    | true => exact .scanning hReachable hNext hSymbol hTerminal
    | false =>
        exact .passing hReachable hNext hSymbol hTerminal
          (List.prefix_refl _)

end Chart

/-- The charts on the agenda occur. -/
theorem Agenda.Reachable.occurs {a : Agenda} (h : a.Reachable task) :
    a.chart.Occurs task := by
  induction h with
  | start => exact .seeding (List.prefix_refl _)
  | step hReachable hStep ih =>
      rcases (Agenda.step_eq_some hStep).2 with ⟨e, hNext, rfl⟩ | ⟨_, rfl⟩
      · exact Chart.occurs_process hReachable hNext
      · exact ih

namespace Chart

theorem Occurs.sound {c : Chart} (h : c.Occurs task) : c.Sound task := by
  cases h with
  | seeding hRules =>
      exact (grown_addRules (sound_blank task) (Nat.zero_le _)
        hRules.subset).sound
  | completing hReachable hNext hDone hItems =>
      have hs := hReachable.sound
      have he := (Agenda.next?_eq_some hs hNext).1
      exact (grown_completeOver hs he hDone hItems.subset).sound
  | scanning hReachable hNext hSymbol _ =>
      have hs := hReachable.sound
      exact (grown_scan hs (Agenda.next?_eq_some hs hNext).1 hSymbol).sound
  | predicting hReachable hNext _ _ hRules =>
      have hs := hReachable.sound
      have he := (Agenda.next?_eq_some hs hNext).1
      exact (grown_addRules hs (hs.key he).state_le hRules.subset).sound
  | @passing a e symbol items hReachable hNext hSymbol _ hItems =>
      have hs := hReachable.sound
      have he := (Agenda.next?_eq_some hs hNext).1
      have hRules := grown_predictRules hs (hs.key he).state_le symbol
      exact (grown_passOver hRules.sound (hRules.extends_ _ _ he) hSymbol
        hItems.subset).sound

/-- What holds of the chart without items and is kept as charts grow holds at
every moment. -/
theorem Occurs.of_grows {p : Chart → Prop} (hBlank : p (blank task))
    (hGrows : ∀ {s c d}, p c → Grows task s c d → p d) {c : Chart}
    (h : c.Occurs task) : p c := by
  cases h with
  | seeding hRules => exact hGrows hBlank (grows_seedRules hRules.subset)
  | completing hReachable hNext hDone hItems =>
      have hs := hReachable.sound
      have he := (Agenda.next?_eq_some hs hNext).1
      exact hGrows (hReachable.of_grows hBlank hGrows)
        (grows_completeOver hs he hDone hItems.subset)
  | scanning hReachable hNext hSymbol hTerminal =>
      have he := (Agenda.next?_eq_some hReachable.sound hNext).1
      exact hGrows (hReachable.of_grows hBlank hGrows)
        (grows_scan he hSymbol hTerminal)
  | predicting hReachable hNext hSymbol _ hRules =>
      have he := (Agenda.next?_eq_some hReachable.sound hNext).1
      exact hGrows (hReachable.of_grows hBlank hGrows)
        (grows_addRules he hSymbol hRules.subset)
  | @passing a e symbol items hReachable hNext hSymbol _ hItems =>
      have hs := hReachable.sound
      have he := (Agenda.next?_eq_some hs hNext).1
      have hRules := grown_predictRules hs (hs.key he).state_le symbol
      have hPredicted :=
        grows_addRules he hSymbol (List.Subset.refl (task.rulesOf symbol))
      have hPassed := grows_passOver hRules.sound (hRules.extends_ _ _ he)
        hSymbol hItems.subset
      exact hGrows (hReachable.of_grows hBlank hGrows)
        (hPredicted.trans hPassed)

end Chart

end StochasticGrammar.Earley
