import StochasticGrammar.Tree.Weight
import StochasticGrammar.Proofs.Grammar.WellFormed

/-!
# Derivation trees

The trees that a parser builds are compared with those that the rules of a
grammar allow.  A derivation tree has a leaf for a terminal, and for a rule a
node whose children have the symbols of the right side, in order.  Its entries
carry no numbers of a chart: it is its own `shape`.

The yield of a tree is the row of its terminals.  The word of a tree leaves out
the empty string symbol, which stands for nothing.
-/

namespace StochasticGrammar

namespace ParseTree

variable {α : Type}

/-- The symbol of the root. -/
def symbol (t : ParseTree) : SymbolId := t.entry.symbol

/-- The derivation tree of a terminal. -/
def terminal (s : SymbolId) : ParseTree := node ⟨.leaf, 0, none, s⟩ []

/-- The derivation tree that begins with a rule for a symbol. -/
def branch (rule : Nat) (s : SymbolId) (ts : List ParseTree) : ParseTree :=
  node ⟨.leaf, 0, some rule, s⟩ ts

@[simp] theorem symbol_terminal (s : SymbolId) : (terminal s).symbol = s := rfl

@[simp] theorem symbol_branch (rule : Nat) (s : SymbolId)
    (ts : List ParseTree) : (branch rule s ts).symbol = s := rfl

/-! ## Yields -/

mutual

/-- The symbols of the terminals, from left to right. -/
def yield : ParseTree → List SymbolId
  | node e ts =>
    match e.rule with
    | none => [e.symbol]
    | some _ => yieldList ts

/-- The symbols of the terminals of a row of trees, from left to right. -/
def yieldList : List ParseTree → List SymbolId
  | [] => []
  | t :: ts => yield t ++ yieldList ts

end

/-- The yield without the empty string symbol. -/
def word (t : ParseTree) : List SymbolId := t.yield.filter (· != emptyId)

/-- The word of a row of trees. -/
def wordList (ts : List ParseTree) : List SymbolId :=
  (yieldList ts).filter (· != emptyId)

@[simp] theorem yield_terminal (s : SymbolId) : (terminal s).yield = [s] := by
  simp [terminal, yield]

@[simp] theorem yield_branch (rule : Nat) (s : SymbolId)
    (ts : List ParseTree) : (branch rule s ts).yield = yieldList ts := by
  simp [branch, yield]

@[simp] theorem yieldList_nil : yieldList [] = [] := by simp [yieldList]

@[simp] theorem yieldList_cons (t : ParseTree) (ts : List ParseTree) :
    yieldList (t :: ts) = t.yield ++ yieldList ts := by simp [yieldList]

theorem yieldList_append (ts us : List ParseTree) :
    yieldList (ts ++ us) = yieldList ts ++ yieldList us := by
  induction ts with
  | nil => simp
  | cons t ts ih => simp [ih]

theorem yieldList_eq_flatMap (ts : List ParseTree) :
    yieldList ts = ts.flatMap yield := by
  induction ts with
  | nil => simp
  | cons t ts ih => simp [ih]

@[simp] theorem wordList_nil : wordList [] = [] := by simp [wordList]

@[simp] theorem wordList_cons (t : ParseTree) (ts : List ParseTree) :
    wordList (t :: ts) = t.word ++ wordList ts := by
  simp [wordList, word]

@[simp] theorem word_branch (rule : Nat) (s : SymbolId)
    (ts : List ParseTree) : (branch rule s ts).word = wordList ts := by
  simp [word, wordList]

theorem word_terminal (s : SymbolId) :
    (terminal s).word = if s = emptyId then [] else [s] := by
  by_cases h : s = emptyId <;> simp [word, h]

/-- A tree whose yield has no empty string symbol reads its yield. -/
theorem word_eq_yield {t : ParseTree} (h : emptyId ∉ t.yield) :
    t.word = t.yield := by
  rw [word, List.filter_eq_self]
  intro s hs
  by_cases hEmpty : s = emptyId
  · exact absurd (hEmpty ▸ hs) h
  · simpa using hEmpty

/-! ## What the rules allow -/

/-- The derivation trees of a grammar. -/
inductive IsDerivation (g : Grammar α) : ParseTree → Prop
  | terminal {s : SymbolId} : g.alphabet.isTerminal s = true →
      IsDerivation g (.terminal s)
  | branch {ix : Nat} {r : Rule α} {ts : List ParseTree} :
      g.rules[ix]? = some r → ts.map symbol = r.rhs →
      (∀ t ∈ ts, IsDerivation g t) → IsDerivation g (.branch ix r.lhs ts)

end ParseTree

/-- The derivation trees of a row of terminals from a symbol. -/
structure Grammar.Derives {α : Type} (g : Grammar α) (start : SymbolId)
    (input : List SymbolId) (t : ParseTree) : Prop where
  isDerivation : t.IsDerivation g
  symbol_eq : t.symbol = start
  yield_eq : t.yield = input

/-- The derivation trees of a row of terminals from a symbol, if the empty
string symbol stands for nothing wherever it occurs. -/
structure Grammar.DerivesWord {α : Type} (g : Grammar α) (start : SymbolId)
    (input : List SymbolId) (t : ParseTree) : Prop where
  isDerivation : t.IsDerivation g
  symbol_eq : t.symbol = start
  word_eq : t.word = input

namespace ParseTree

variable {α : Type} {g : Grammar α}

theorem shapeList_eq_map (ts : List ParseTree) :
    shapeList ts = ts.map shape := by
  induction ts with
  | nil => simp [shapeList]
  | cons t ts ih => simp [shapeList, ih]

/-- Where no rule is for a terminal, a terminal is derived by its leaf only. -/
theorem IsDerivation.eq_leaf
    (hHead : ∀ r ∈ g.rules, g.alphabet.isTerminal r.lhs = false)
    {t : ParseTree} (h : t.IsDerivation g)
    (hSymbol : g.alphabet.isTerminal t.symbol = true) :
    t = .terminal t.symbol := by
  cases h with
  | terminal _ => rfl
  | branch hRule _ _ =>
      have hLhs := hHead _ (List.mem_of_getElem? hRule)
      rw [symbol_branch, hLhs] at hSymbol
      simp at hSymbol

/-- A terminal is derived from no other symbol, and by its leaf only. -/
theorem IsDerivation.eq_terminal (hg : g.WellFormed) {t : ParseTree}
    (h : t.IsDerivation g) (hSymbol : g.alphabet.isTerminal t.symbol = true) :
    t = .terminal t.symbol :=
  h.eq_leaf (fun _ => hg.isTerminal_lhs) hSymbol

/-- A derivation tree of a symbol that is no terminal begins with a rule. -/
theorem IsDerivation.exists_branch {t : ParseTree} (h : t.IsDerivation g)
    (hSymbol : g.alphabet.isTerminal t.symbol = false) :
    ∃ ix r ts, g.rules[ix]? = some r ∧ ts.map symbol = r.rhs ∧
      (∀ u ∈ ts, u.IsDerivation g) ∧ t = .branch ix r.lhs ts := by
  cases h with
  | terminal hTerminal =>
      rw [symbol_terminal, hTerminal] at hSymbol
      simp at hSymbol
  | branch hRule hSymbols hBelow =>
      exact ⟨_, _, _, hRule, hSymbols, hBelow, rfl⟩

/-- If no rule leads to the empty string symbol, only its own leaf has it. -/
theorem IsDerivation.emptyId_notMem_yield_of_root
    (hRules : ∀ r ∈ g.rules, emptyId ∉ r.rhs) {t : ParseTree}
    (h : t.IsDerivation g)
    (hRoot : t.symbol ≠ emptyId ∨ t.entry.rule ≠ none) :
    emptyId ∉ t.yield := by
  induction h with
  | terminal _ =>
      rw [yield_terminal, List.mem_singleton]
      exact (hRoot.resolve_right fun hNone => hNone rfl).symm
  | @branch ix r ts hRule hSymbols _ ih =>
      have hNone : emptyId ∉ ts.map symbol :=
        hSymbols ▸ hRules r (List.mem_of_getElem? hRule)
      rw [yield_branch, yieldList_eq_flatMap, List.mem_flatMap]
      rintro ⟨u, hu, hMem⟩
      exact ih u hu
        (.inl fun hEq => hNone (List.mem_map.2 ⟨u, hu, hEq⟩)) hMem

/-- If no rule leads to the empty string symbol, no derivation tree of another
symbol has it. -/
theorem IsDerivation.emptyId_notMem_yield
    (hRules : ∀ r ∈ g.rules, emptyId ∉ r.rhs) {t : ParseTree}
    (h : t.IsDerivation g) (hSymbol : t.symbol ≠ emptyId) :
    emptyId ∉ t.yield :=
  h.emptyId_notMem_yield_of_root hRules (.inl hSymbol)

theorem isDerivation_terminal_iff {s : SymbolId} :
    (terminal s).IsDerivation g ↔ g.alphabet.isTerminal s = true := by
  refine ⟨fun h => ?_, .terminal⟩
  generalize hTree : terminal s = t at h
  cases h with
  | terminal hTerminal =>
      simp only [terminal, node.injEq, Entry.mk.injEq, true_and, and_true]
        at hTree
      rwa [hTree]
  | branch _ _ _ => simp [branch, terminal] at hTree

theorem isDerivation_branch_iff {ix : Nat} {s : SymbolId}
    {ts : List ParseTree} :
    (branch ix s ts).IsDerivation g ↔ ∃ r, g.rules[ix]? = some r ∧
      r.lhs = s ∧ ts.map symbol = r.rhs ∧ ∀ t ∈ ts, t.IsDerivation g := by
  constructor
  · intro h
    generalize hTree : branch ix s ts = t at h
    cases h with
    | terminal _ => simp [branch, terminal] at hTree
    | branch hRule hSymbols hBelow =>
        simp only [branch, node.injEq, Entry.mk.injEq, Option.some.injEq,
          Int.natCast_inj, true_and] at hTree
        obtain ⟨⟨rfl, rfl⟩, rfl⟩ := hTree
        exact ⟨_, hRule, rfl, hSymbols, hBelow⟩
  · rintro ⟨r, hRule, rfl, hSymbols, hBelow⟩
    exact .branch hRule hSymbols hBelow

/-! ## Weights of shapes -/

theorem entryProbability?_shape (g : Grammar α) (default : α) (e : Entry) :
    entryProbability? g default ⟨.leaf, 0, e.rule, e.symbol⟩ =
      entryProbability? g default e := rfl

mutual

theorem reduce?_shape (g : Grammar α) (op : α → α → α) (unit : α)
    (t : ParseTree) : reduce? g op unit t.shape = reduce? g op unit t := by
  cases t with
  | node e ts =>
      rw [shape, reduce?, reduce?, entryProbability?_shape]
      cases entryProbability? g unit e with
      | none => rfl
      | some x => exact reduceList?_shape g op unit x ts

theorem reduceList?_shape (g : Grammar α) (op : α → α → α) (unit x : α)
    (ts : List ParseTree) :
    reduceList? g op unit x (shapeList ts) = reduceList? g op unit x ts := by
  cases ts with
  | nil => simp [shapeList, reduceList?]
  | cons t ts =>
      rw [shapeList, reduceList?, reduceList?, reduce?_shape g op unit t]
      cases reduce? g op unit t with
      | none => rfl
      | some y => exact reduceList?_shape g op unit (op x y) ts

end

/-- The product of a tree depends on its shape only. -/
theorem product?_shape [One α] [Mul α] (g : Grammar α) (t : ParseTree) :
    t.shape.product? g = t.product? g :=
  reduce?_shape g _ _ t

/-- Grammars with the same rules give an entry the same probability. -/
theorem entryProbability?_congr {g' : Grammar α} (hRules : g.rules = g'.rules)
    (default : α) (e : Entry) :
    entryProbability? g default e = entryProbability? g' default e := by
  unfold entryProbability? Grammar.rule?
  rw [hRules]

mutual

theorem reduce?_congr {g' : Grammar α} (hRules : g.rules = g'.rules)
    (op : α → α → α) (unit : α) (t : ParseTree) :
    reduce? g op unit t = reduce? g' op unit t := by
  cases t with
  | node e ts =>
      rw [reduce?, reduce?, entryProbability?_congr hRules]
      cases entryProbability? g' unit e with
      | none => rfl
      | some x => exact reduceList?_congr hRules op unit x ts

theorem reduceList?_congr {g' : Grammar α} (hRules : g.rules = g'.rules)
    (op : α → α → α) (unit x : α) (ts : List ParseTree) :
    reduceList? g op unit x ts = reduceList? g' op unit x ts := by
  cases ts with
  | nil => simp [reduceList?]
  | cons t ts =>
      rw [reduceList?, reduceList?, reduce?_congr hRules op unit t]
      cases reduce? g' op unit t with
      | none => rfl
      | some y => exact reduceList?_congr hRules op unit (op x y) ts

end

/-- The product of a tree depends on the rules only. -/
theorem product?_congr [One α] [Mul α] {g' : Grammar α}
    (hRules : g.rules = g'.rules) (t : ParseTree) :
    t.product? g = t.product? g' :=
  reduce?_congr hRules _ _ t

end ParseTree

end StochasticGrammar
