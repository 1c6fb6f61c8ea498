import StochasticGrammar.Parse.Derivations
import StochasticGrammar.Parse.Earley.Bound

/-!
# Earley parsing

The agenda is run to its end, which it reaches because charts are finite. The
completed items of the start symbol that span the whole input are the
derivations. Their trees are rebuilt from the back pointers: a completed item
becomes a node, with a fresh leaf for each terminal of its rule and the tree of
the next back pointer for each nonterminal.

Any grammar can be parsed with. A rule to the lone empty string symbol is taken
as a rule with an empty right side.

Main results: the run stops only when every state has been worked off
(`Agenda.step_run`), on an agenda that the parse goes through
(`Agenda.reachable_run`).
-/

namespace StochasticGrammar.Earley

variable {α : Type}

/-! ## Running the agenda -/

/-- The agenda when no step is left. -/
def Agenda.run (task : Task α) (a : Agenda) (h : a.Reachable task) : Agenda :=
  match hStep : a.step task with
  | none => a
  | some b => Agenda.run task b (h.step hStep)
termination_by
  (task.input.size + 1 - a.state, task.itemBound - a.position)
decreasing_by
  have hLex := Agenda.step_decreases h hStep
  exact hLex

/-- What holds of every agenda without a step holds of the end of a run. -/
theorem Agenda.run_induction {task : Task α} {motive : Agenda → Prop}
    (hEnd : ∀ a, a.Reachable task → a.step task = none → motive a)
    (a : Agenda) (h : a.Reachable task) : motive (a.run task h) := by
  induction a, h using Agenda.run.induct task with
  | case1 a h hStep =>
    unfold Agenda.run
    split
    · exact hEnd a h hStep
    · rename_i hSome
      rw [hStep] at hSome
      cases hSome
  | case2 a h b hStep ih =>
    unfold Agenda.run
    split
    · rename_i hNone
      rw [hStep] at hNone
      cases hNone
    · rename_i c hSome
      rw [hStep] at hSome
      cases hSome
      exact ih

/-- No step is left at the end of a run. -/
theorem Agenda.step_run (task : Task α) (a : Agenda) (h : a.Reachable task) :
    (a.run task h).step task = none :=
  Agenda.run_induction (fun _ _ hStep => hStep) a h

/-- A run ends on an agenda that the parse goes through. -/
theorem Agenda.reachable_run (task : Task α) (a : Agenda)
    (h : a.Reachable task) : (a.run task h).Reachable task :=
  Agenda.run_induction (fun _ hReachable _ => hReachable) a h

/-- The finished chart of a task. -/
def Task.chart (task : Task α) : Chart :=
  ((Agenda.start task).run task .start).chart

/-! ## The derivations -/

/-- Whether an item is a derivation of the whole input from the start
symbol. -/
def Task.accepts (task : Task α) (e : Item) : Bool :=
  e.head == startId && (task.next? e).isNone && e.start == 0

/-- A finished parse. -/
structure Parse (α : Type) where
  /-- What was parsed. -/
  task : Task α
  /-- The items found. -/
  chart : Chart
  /-- The numbers of the items that derive the whole input. -/
  accepted : List Nat

namespace Parse

/-- Parses an input that has been checked. -/
def ofTask (task : Task α) : Parse α :=
  let chart := task.chart
  { task := task
    chart := chart
    accepted :=
      ((chart.stateItems task.input.size).filter task.accepts).map (·.id) }

/-- Parses an input. -/
def make (g : Grammar α) (input : List SymbolId) :
    Except ParseError (Parse α) :=
  match Parse.inputFault? g.alphabet 0 input with
  | some e => .error e
  | none => .ok (ofTask (.make g input))

/-- The item with a number. -/
def item? (p : Parse α) (id : Int) : Option Item :=
  match id with
  | .ofNat id => p.chart.items[id]?
  | .negSucc _ => none

/-- Takes the back pointers from an item. -/
def clearBack (p : Parse α) (id : Nat) : Parse α :=
  { p with chart :=
      { p.chart with
        items := p.chart.items.modify id fun e => { e with back := [] } } }

/-! ## Rebuilding trees -/

/-- A leaf for a terminal. -/
def leaf (terminal : SymbolId) : Drawing ParseTree := do
  let id ← Drawing.fresh
  return .leafOf ⟨.leaf, id, none, terminal⟩

mutual

/-- The tree of a completed item. -/
def expand (p : Parse α) (id : Nat) : Drawing ParseTree :=
  match p.chart.items[id]? with
  | none => throw (.lacksBackPointer id)
  | some e => do
    let below ← expandSymbols p id e.back (p.task.rhs e.rule)
    return .node ⟨.earley, e.id, some e.rule, e.head⟩ below
termination_by (2 * id + 1, 0)

/-- The trees of the symbols of a right side, taking the given back pointers
for the nonterminals. Back pointers lead to earlier items. -/
def expandSymbols (p : Parse α) (id : Nat) (back : List Nat) :
    List SymbolId → Drawing (List ParseTree)
  | [] => return []
  | symbol :: rest =>
    if p.task.grammar.alphabet.isTerminal symbol then do
      let first ← leaf symbol
      let trees ← expandSymbols p id back rest
      return first :: trees
    else
      match back with
      | [] => throw (.lacksBackPointer id)
      | child :: back =>
        if child < id then do
          let first ← expand p child
          let trees ← expandSymbols p id back rest
          return first :: trees
        else throw (.lacksBackPointer id)
termination_by symbols => (2 * id, symbols.length)

end

/-- The derivations that were found. -/
def derivations (p : Parse α) : Derivations α where
  grammar := p.task.grammar
  input := p.task.input.toList
  count := p.accepted.length
  firstFresh := p.chart.items.size
  build ix :=
    match p.accepted[ix]? with
    | some id => expand p id
    | none => throw (.refused (.noSuchTree ix p.accepted.length))

/-- What the parser has to tell. -/
def records (p : Parse α) : List LogRecord :=
  (p.chart.skipped.toList.map fun (rule, state) =>
    ⟨.debug, "Skipping cyclic derivation of rule " ++ Text.natText rule ++
      " in state " ++ Text.natText state⟩) ++
  [Parse.summary "Earley_Parser" p.task.input.size p.accepted.length]

end Parse

end StochasticGrammar.Earley
