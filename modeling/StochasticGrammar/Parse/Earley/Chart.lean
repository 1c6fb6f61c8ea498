import StochasticGrammar.Parse.Input

/-!
# The Earley chart

The chart has one state per input position. A state holds items: a rule with a
dot before which the rule has been matched, from an earlier state up to this
one. An item also carries back pointers, the numbers of the completed items
for the nonterminals before its dot. Items that differ in their back pointers
stand for different derivations and are kept apart; equal items are kept once.
So each completed item is one derivation.

Items are numbered in the order in which they are added. The agenda goes
through the states in order and through each state in the order of addition,
which includes items that are added to the state meanwhile:

* a completed item advances the items of its origin that wait for it;
* an item before a terminal is moved over it if the input agrees;
* an item before a nonterminal predicts the rules of the nonterminal, and is
  advanced over the completions of it that are already there and span nothing.

An item that would complete a rule is dropped if one of its descendants over
the same span completes the same rule: a cycle of rules would otherwise yield
derivations without end.
-/

namespace StochasticGrammar.Earley

/-- A dotted rule with its span and back pointers. -/
structure Item where
  /-- The number of the item. -/
  id : Nat
  /-- The number of the rule. -/
  rule : Nat
  /-- The left side of the rule. -/
  head : SymbolId
  /-- How many symbols of the right side have been matched. -/
  dot : Nat
  /-- The state where the match began. -/
  start : Nat
  /-- The state that holds the item. -/
  state : Nat
  /-- The completed items for the nonterminals before the dot. -/
  back : List Nat
  deriving DecidableEq, Repr

/-- What two equal items have in common. -/
structure Key where
  /-- The number of the rule. -/
  rule : Nat
  /-- How many symbols of the right side have been matched. -/
  dot : Nat
  /-- The state where the match began. -/
  start : Nat
  /-- The state that holds the item. -/
  state : Nat
  /-- The completed items for the nonterminals before the dot. -/
  back : List Nat
  deriving DecidableEq, Repr

/-- What makes an item equal to another. -/
def Item.key (e : Item) : Key := ⟨e.rule, e.dot, e.start, e.state, e.back⟩

/-- A grammar without lone empty symbols, and an input. -/
structure Task (α : Type) where
  /-- The grammar. -/
  grammar : Grammar α
  /-- The rules of the grammar, by number. -/
  rules : Array (Rule α)
  /-- The terminals that are parsed. -/
  input : Array SymbolId

/-- The items found so far. -/
structure Chart where
  /-- All items, by number. -/
  items : Array Item
  /-- The numbers of the items of each state, in the order of addition. -/
  states : Array (Array Nat)
  /-- The rules and states of the cyclic derivations that were dropped. -/
  skipped : Array (Nat × Nat)
  deriving Repr

namespace Task

variable {α : Type}

/-- The task of parsing an input. -/
def make (g : Grammar α) (input : List SymbolId) : Task α :=
  let grammar := g.withoutEmptySymbol
  ⟨grammar, grammar.rules.toArray, input.toArray⟩

/-- The right side of a rule. -/
def rhs (task : Task α) (rule : Nat) : List SymbolId :=
  match task.rules[rule]? with
  | some r => r.rhs
  | none => []

/-- The left side of a rule. -/
def lhs (task : Task α) (rule : Nat) : SymbolId :=
  match task.rules[rule]? with
  | some r => r.lhs
  | none => startId

/-- The symbol after a dot; none if the rule is complete. -/
def symbolAt? (task : Task α) (rule dot : Nat) : Option SymbolId :=
  (task.rhs rule)[dot]?

/-- The symbol after the dot of an item; none if the rule is complete. -/
def next? (task : Task α) (e : Item) : Option SymbolId :=
  task.symbolAt? e.rule e.dot

/-- The numbers of the rules of a nonterminal. -/
def rulesOf (task : Task α) (nonterminal : SymbolId) : List Nat :=
  (List.range task.rules.size).filter fun ix => task.lhs ix == nonterminal

end Task

namespace Chart

/-- The numbers of the items of a state, in the order of addition. -/
def ids (c : Chart) (state : Nat) : Array Nat := c.states[state]?.getD #[]

/-- The items of a state, in the order of addition. -/
def stateItems (c : Chart) (state : Nat) : List Item :=
  (c.ids state).toList.filterMap (c.items[·]?)

/-- Whether a state has an item with a key. -/
def hasKey (c : Chart) (key : Key) : Bool :=
  (c.ids key.state).any fun id =>
    match c.items[id]? with
    | some e => e.key == key
    | none => false

/-- The chart with one more item. -/
def push (c : Chart) (head : SymbolId) (key : Key) : Chart :=
  let e : Item :=
    ⟨c.items.size, key.rule, head, key.dot, key.start, key.state, key.back⟩
  { c with
    items := c.items.push e
    states := c.states.modify key.state (·.push e.id) }

/-- Adds an item unless an equal one is there. -/
def add {α : Type} (task : Task α) (c : Chart) (key : Key) : Chart :=
  if c.hasKey key then c else c.push (task.lhs key.rule) key

/-- Whether item `b` covers a span and completes a rule, or has a descendant
over the same span that does. Back pointers lead to earlier items. -/
def repeats (items : Array Item) (rule start state : Nat) (b : Nat) : Bool :=
  match items[b]? with
  | none => false
  | some e =>
    e.start == start && e.state == state &&
      (e.rule == rule || e.back.any fun child =>
        if child < b then repeats items rule start state child else false)
termination_by b

/-- Whether a completed item with these back pointers would have a descendant
over the same span that completes the same rule. -/
def isCyclic (c : Chart) (rule start state : Nat) (back : List Nat) : Bool :=
  back.any (repeats c.items rule start state)

variable {α : Type}

/-- Moves the dot of a waiting item over a completed one that ends in a state,
unless that closes a cycle. -/
def advance (task : Task α) (c : Chart) (waiting completed : Item)
    (state : Nat) : Chart :=
  let dot := waiting.dot + 1
  let back := waiting.back ++ [completed.id]
  if dot == (task.rhs waiting.rule).length &&
      c.isCyclic waiting.rule waiting.start state back then
    { c with skipped := c.skipped.push (waiting.rule, state) }
  else c.add task ⟨waiting.rule, dot, waiting.start, state, back⟩

/-- Advances the items in the origin of a completed item that wait for it. -/
def complete (task : Task α) (c : Chart) (e : Item) : Chart :=
  (c.stateItems e.start).foldl
    (fun c waiting =>
      if task.next? waiting == some e.head then
        c.advance task waiting e e.state
      else c) c

/-- Moves the dot of an item over a terminal that the input agrees with. -/
def scan (task : Task α) (c : Chart) (e : Item) (terminal : SymbolId) : Chart :=
  if task.input[e.state]? == some terminal then
    c.add task ⟨e.rule, e.dot + 1, e.start, e.state + 1, e.back⟩
  else c

/-- Adds the rules of a nonterminal to a state. -/
def predictRules (task : Task α) (c : Chart) (state : Nat)
    (nonterminal : SymbolId) : Chart :=
  (task.rulesOf nonterminal).foldl
    (fun c rule => c.add task ⟨rule, 0, state, state, []⟩) c

/-- Adds the rules of the nonterminal after the dot of an item, and advances
the item over the completions of it that are there and span nothing: they will
not be completed again. -/
def predict (task : Task α) (c : Chart) (e : Item) (nonterminal : SymbolId) :
    Chart :=
  let c := c.predictRules task e.state nonterminal
  (c.stateItems e.state).foldl
    (fun c done =>
      if done.start == e.state && done.head == nonterminal &&
          (task.next? done).isNone then
        c.advance task e done e.state
      else c) c

/-- What an item on the agenda brings about. -/
def process (task : Task α) (c : Chart) (e : Item) : Chart :=
  match task.next? e with
  | none => c.complete task e
  | some symbol =>
    if task.grammar.alphabet.isTerminal symbol then c.scan task e symbol
    else c.predict task e symbol

/-- The chart that holds the rules of the start symbol only. -/
def seed (task : Task α) : Chart :=
  predictRules task
    ⟨#[], Array.replicate (task.input.size + 1) #[], #[]⟩ 0 startId

end Chart

/-! ## The agenda -/

/-- A chart that is being filled, and the item that is next. -/
structure Agenda where
  /-- The chart so far. -/
  chart : Chart
  /-- The state of the next item. -/
  state : Nat
  /-- The position of the next item within its state. -/
  position : Nat

namespace Agenda

variable {α : Type}

/-- The agenda at the beginning. -/
def start (task : Task α) : Agenda := ⟨Chart.seed task, 0, 0⟩

/-- The item that is next, if the current state has one. -/
def next? (a : Agenda) : Option Item :=
  ((a.chart.ids a.state)[a.position]?).bind (a.chart.items[·]?)

/-- One step: the next item is processed, or the next state is begun. There is
no step after the last state. -/
def step (task : Task α) (a : Agenda) : Option Agenda :=
  if a.state ≤ task.input.size then
    match a.next? with
    | some e => some ⟨a.chart.process task e, a.state, a.position + 1⟩
    | none => some ⟨a.chart, a.state + 1, 0⟩
  else none

/-- The agendas that a parse goes through. -/
inductive Reachable (task : Task α) : Agenda → Prop
  | start : Reachable task (start task)
  | step {a b : Agenda} : Reachable task a → a.step task = some b →
      Reachable task b

end Agenda

end StochasticGrammar.Earley
