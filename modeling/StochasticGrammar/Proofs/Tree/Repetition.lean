import StochasticGrammar.Proofs.Tree.Derivation

/-!
# Rules that repeat over a span

A node repeats if some node below it has the same rule over the same span of
the yield.  The span of a node below is found by counting the terminals to its
left, so empty spans are told apart by where they lie.

Main results: every derivation tree can be pruned to one of the same symbol and
yield in which no node repeats (`IsDerivation.exists_repetitionFree`).
-/

namespace StochasticGrammar.ParseTree

variable {α : Type} {g : Grammar α}

/-! ## Nodes below a node -/

/-- A child of the root, with the number of terminals to its left. -/
inductive ChildAt : ParseTree → Nat → ParseTree → Prop
  | intro (e : Entry) (before : List ParseTree) (d : ParseTree)
      (after : List ParseTree) :
      ChildAt (node e (before ++ d :: after)) (yieldList before).length d

/-- A node strictly below the root, with the number of terminals to its
left. -/
inductive Below : ParseTree → Nat → ParseTree → Prop
  | child {t d : ParseTree} {k : Nat} : ChildAt t k d → Below t k d
  | deeper {t u d : ParseTree} {k m : Nat} :
      ChildAt t k u → Below u m d → Below t (k + m) d

/-- Some node below the root has the rule of the root over the span of the
root. -/
def Repeats (t : ParseTree) : Prop :=
  ∃ d, Below t 0 d ∧ d.yield.length = t.yield.length ∧
    d.entry.rule = t.entry.rule

/-- No node repeats. -/
def RepetitionFree (t : ParseTree) : Prop :=
  ¬ t.Repeats ∧ ∀ k d, Below t k d → ¬ d.Repeats

theorem childAt_branch_iff {rule : Nat} {s : SymbolId}
    {ts : List ParseTree} {k : Nat} {d : ParseTree} :
    ChildAt (branch rule s ts) k d ↔
      ∃ before after, ts = before ++ d :: after ∧
        k = (yieldList before).length := by
  constructor
  · intro h
    generalize hTree : branch rule s ts = t at h
    cases h with
    | intro e before d after =>
        rw [branch, node.injEq] at hTree
        exact ⟨before, after, hTree.2, rfl⟩
  · rintro ⟨before, after, rfl, rfl⟩
    exact .intro _ before d after

theorem not_below_terminal {s : SymbolId} {k : Nat} {d : ParseTree} :
    ¬ Below (terminal s) k d := by
  have hChild : ∀ {k : Nat} {u : ParseTree}, ¬ ChildAt (terminal s) k u := by
    intro k u h
    generalize hTree : terminal s = t at h
    cases h with
    | intro e before d after =>
        rw [terminal, node.injEq] at hTree
        simp at hTree
  intro h
  cases h with
  | child h => exact hChild h
  | deeper h _ => exact hChild h

theorem below_branch_iff {rule : Nat} {s : SymbolId} {ts : List ParseTree}
    {k : Nat} {d : ParseTree} :
    Below (branch rule s ts) k d ↔
      ∃ before u after, ts = before ++ u :: after ∧
        ((u = d ∧ k = (yieldList before).length) ∨
          ∃ m, k = (yieldList before).length + m ∧ Below u m d) := by
  constructor
  · intro h
    generalize hTree : branch rule s ts = t at h
    cases h with
    | child h =>
        subst hTree
        obtain ⟨before, after, hSplit, hk⟩ := childAt_branch_iff.1 h
        exact ⟨before, d, after, hSplit, .inl ⟨rfl, hk⟩⟩
    | deeper h hBelow =>
        subst hTree
        obtain ⟨before, after, hSplit, rfl⟩ := childAt_branch_iff.1 h
        exact ⟨before, _, after, hSplit, .inr ⟨_, rfl, hBelow⟩⟩
  · rintro ⟨before, u, after, hSplit, ⟨rfl, hk⟩ | ⟨m, rfl, hBelow⟩⟩
    · exact .child (childAt_branch_iff.2 ⟨before, after, hSplit, hk⟩)
    · exact .deeper (childAt_branch_iff.2 ⟨before, after, hSplit, rfl⟩) hBelow

/-- A derivation tree is a leaf or a branch, so it has the induction that
follows the nodes below it. -/
theorem IsDerivation.of_below {t d : ParseTree} {k : Nat}
    (h : t.IsDerivation g) (hBelow : Below t k d) : d.IsDerivation g := by
  induction h generalizing k with
  | terminal _ => exact absurd hBelow not_below_terminal
  | branch _ _ hRows ih =>
      obtain ⟨before, u, after, rfl, hCase⟩ := below_branch_iff.1 hBelow
      have hMem : u ∈ before ++ u :: after := by simp
      rcases hCase with ⟨rfl, _⟩ | ⟨m, _, hDeep⟩
      · exact hRows u hMem
      · exact ih u hMem hDeep

/-- The yield of a node below lies within the yield, where it was counted. -/
theorem IsDerivation.exists_yield_eq {t d : ParseTree} {k : Nat}
    (h : t.IsDerivation g) (hBelow : Below t k d) :
    ∃ left right, left.length = k ∧ t.yield = left ++ d.yield ++ right := by
  induction h generalizing k with
  | terminal _ => exact absurd hBelow not_below_terminal
  | branch _ _ _ ih =>
      obtain ⟨before, u, after, rfl, hCase⟩ := below_branch_iff.1 hBelow
      rw [yield_branch, yieldList_append, yieldList_cons]
      rcases hCase with ⟨rfl, rfl⟩ | ⟨m, rfl, hDeep⟩
      · exact ⟨yieldList before, yieldList after, rfl, by simp⟩
      · obtain ⟨left, right, rfl, hYield⟩ := ih u (by simp) hDeep
        exact ⟨yieldList before ++ left, right ++ yieldList after,
          List.length_append, by simp [hYield]⟩

theorem IsDerivation.add_length_le {t d : ParseTree} {k : Nat}
    (h : t.IsDerivation g) (hBelow : Below t k d) :
    k + d.yield.length ≤ t.yield.length := by
  obtain ⟨left, right, rfl, hYield⟩ := h.exists_yield_eq hBelow
  rw [hYield, List.length_append, List.length_append]
  omega

theorem repetitionFree_terminal (s : SymbolId) :
    (terminal s).RepetitionFree :=
  ⟨fun ⟨_, hBelow, _⟩ => not_below_terminal hBelow,
    fun _ _ hBelow => absurd hBelow not_below_terminal⟩

/-- No node of a branch repeats exactly if the root does not and no node of a
child does. -/
theorem repetitionFree_branch_iff {rule : Nat} {s : SymbolId}
    {ts : List ParseTree} :
    (branch rule s ts).RepetitionFree ↔
      ¬ (branch rule s ts).Repeats ∧ ∀ t ∈ ts, t.RepetitionFree := by
  constructor
  · rintro ⟨hRoot, hBelow⟩
    refine ⟨hRoot, fun t ht => ?_⟩
    obtain ⟨before, after, hSplit⟩ := List.append_of_mem ht
    constructor
    · exact hBelow _ t (below_branch_iff.2
        ⟨before, t, after, hSplit, .inl ⟨rfl, rfl⟩⟩)
    · intro k d hd
      exact hBelow _ d (below_branch_iff.2
        ⟨before, t, after, hSplit, .inr ⟨k, rfl, hd⟩⟩)
  · rintro ⟨hRoot, hRows⟩
    refine ⟨hRoot, fun k d hd => ?_⟩
    obtain ⟨before, u, after, rfl, hCase⟩ := below_branch_iff.1 hd
    have hFree := hRows u (by simp)
    rcases hCase with ⟨rfl, _⟩ | ⟨m, _, hDeep⟩
    · exact hFree.1
    · exact hFree.2 m d hDeep

/-- The root, or some node below it, has the rule and yields this many
terminals. -/
def Holds (t : ParseTree) (rule n : Nat) : Prop :=
  ∃ d, (d = t ∨ ∃ k, Below t k d) ∧ d.entry.rule = some (rule : Int) ∧
    d.yield.length = n

theorem not_holds_terminal {s : SymbolId} {rule n : Nat} :
    ¬ (terminal s).Holds rule n := by
  rintro ⟨d, rfl | ⟨k, hBelow⟩, hRule, _⟩
  · simp [terminal, entry] at hRule
  · exact not_below_terminal hBelow

theorem holds_branch_iff {ix rule n : Nat} {s : SymbolId}
    {ts : List ParseTree} :
    (branch ix s ts).Holds rule n ↔
      (ix = rule ∧ (yieldList ts).length = n) ∨ ∃ t ∈ ts, t.Holds rule n := by
  constructor
  · rintro ⟨d, rfl | ⟨k, hBelow⟩, hRule, hLength⟩
    · rw [yield_branch] at hLength
      exact .inl ⟨Int.ofNat.inj (Option.some.inj hRule), hLength⟩
    · obtain ⟨before, u, after, rfl, hCase⟩ := below_branch_iff.1 hBelow
      refine .inr ⟨u, by simp, d, ?_, hRule, hLength⟩
      rcases hCase with ⟨rfl, _⟩ | ⟨m, _, hDeep⟩
      · exact .inl rfl
      · exact .inr ⟨m, hDeep⟩
  · rintro (⟨rfl, hLength⟩ | ⟨t, ht, d, hCase, hRule, hLength⟩)
    · exact ⟨_, .inl rfl, rfl, by rwa [yield_branch]⟩
    · obtain ⟨before, after, hSplit⟩ := List.append_of_mem ht
      refine ⟨d, .inr ?_, hRule, hLength⟩
      rcases hCase with rfl | ⟨k, hDeep⟩
      · exact ⟨_, below_branch_iff.2
          ⟨before, d, after, hSplit, .inl ⟨rfl, rfl⟩⟩⟩
      · exact ⟨_, below_branch_iff.2
          ⟨before, t, after, hSplit, .inr ⟨k, rfl, hDeep⟩⟩⟩

theorem IsDerivation.le_of_holds {t : ParseTree} {rule n : Nat}
    (h : t.IsDerivation g) (hHolds : t.Holds rule n) :
    n ≤ t.yield.length := by
  obtain ⟨d, rfl | ⟨k, hBelow⟩, _, hLength⟩ := hHolds
  · exact Nat.le_of_eq hLength.symm
  · have := h.add_length_le hBelow
    omega

/-- The root of a branch repeats exactly if some child, or a node below one,
has its rule over its span. -/
theorem repeats_branch_iff {rule : Nat} {s : SymbolId}
    {ts : List ParseTree} (hRows : ∀ t ∈ ts, t.IsDerivation g) :
    (branch rule s ts).Repeats ↔
      ∃ t ∈ ts, t.Holds rule (yieldList ts).length := by
  constructor
  · rintro ⟨d, hBelow, hLength, hRule⟩
    obtain ⟨before, u, after, rfl, hCase⟩ := below_branch_iff.1 hBelow
    refine ⟨u, by simp, d, ?_, hRule, by rwa [yield_branch] at hLength⟩
    rcases hCase with ⟨rfl, _⟩ | ⟨m, _, hDeep⟩
    · exact .inl rfl
    · exact .inr ⟨m, hDeep⟩
  · rintro ⟨t, ht, d, hCase, hRule, hLength⟩
    obtain ⟨before, after, rfl⟩ := List.append_of_mem ht
    -- nothing is left of the node, since its yield is the whole one
    have hTotal : d.yield.length = (yieldList before).length +
        (t.yield.length + (yieldList after).length) := by
      rw [hLength, yieldList_append, yieldList_cons]
      simp only [List.length_append]
    refine ⟨d, ?_, by rwa [yield_branch], hRule⟩
    rcases hCase with rfl | ⟨k, hDeep⟩
    · exact below_branch_iff.2 ⟨before, d, after, rfl, .inl ⟨rfl, by omega⟩⟩
    · have := (hRows t ht).add_length_le hDeep
      exact below_branch_iff.2
        ⟨before, t, after, rfl, .inr ⟨0, by omega, by
          rwa [show k = 0 by omega] at hDeep⟩⟩

/-! ## Pruning -/

mutual

/-- The number of nodes of a tree. -/
def nodeCount : ParseTree → Nat
  | node _ ts => nodeCountList ts + 1

/-- The number of nodes of a row of trees. -/
def nodeCountList : List ParseTree → Nat
  | [] => 0
  | t :: ts => nodeCount t + nodeCountList ts

end

theorem nodeCountList_append (ts us : List ParseTree) :
    nodeCountList (ts ++ us) = nodeCountList ts + nodeCountList us := by
  induction ts with
  | nil => simp [nodeCountList]
  | cons t ts ih =>
      rw [List.cons_append, nodeCountList, nodeCountList, ih]
      omega

theorem nodeCount_le_of_mem {t : ParseTree} {ts : List ParseTree}
    (h : t ∈ ts) : t.nodeCount ≤ nodeCountList ts := by
  obtain ⟨before, after, rfl⟩ := List.append_of_mem h
  rw [nodeCountList_append, nodeCountList]
  omega

theorem nodeCount_branch (rule : Nat) (s : SymbolId) (ts : List ParseTree) :
    (branch rule s ts).nodeCount = nodeCountList ts + 1 := by
  rw [branch, nodeCount]

theorem IsDerivation.nodeCount_lt {t d : ParseTree} {k : Nat}
    (h : t.IsDerivation g) (hBelow : Below t k d) :
    d.nodeCount < t.nodeCount := by
  induction h generalizing k with
  | terminal _ => exact absurd hBelow not_below_terminal
  | branch _ _ _ ih =>
      obtain ⟨before, u, after, rfl, hCase⟩ := below_branch_iff.1 hBelow
      have hMem : u ∈ before ++ u :: after := by simp
      rw [nodeCount_branch, nodeCountList_append, nodeCountList]
      rcases hCase with ⟨rfl, _⟩ | ⟨m, _, hDeep⟩
      · omega
      · have := ih u hMem hDeep
        omega

/-- A derivation tree that is smaller than another of the same symbol and
yield. -/
structure Prunes (g : Grammar α) (t u : ParseTree) : Prop where
  isDerivation : u.IsDerivation g
  symbol_eq : u.symbol = t.symbol
  yield_eq : u.yield = t.yield
  nodeCount_lt : u.nodeCount < t.nodeCount

/-- Pruning a child prunes the tree. -/
theorem Prunes.branch {ix : Nat} {r : Rule α} {before after : List ParseTree}
    {t u : ParseTree} (h : Prunes g t u) (hRule : g.rules[ix]? = some r)
    (hSymbols : (before ++ t :: after).map symbol = r.rhs)
    (hRows : ∀ v ∈ before ++ t :: after, v.IsDerivation g) :
    Prunes g (.branch ix r.lhs (before ++ t :: after))
      (.branch ix r.lhs (before ++ u :: after)) where
  isDerivation := by
    refine .branch hRule ?_ fun v hv => ?_
    · rw [← hSymbols]
      simp [h.symbol_eq]
    · rcases List.mem_append.1 hv with hv | hv
      · exact hRows v (by simp [hv])
      · rcases List.mem_cons.1 hv with rfl | hv
        · exact h.isDerivation
        · exact hRows v (by simp [hv])
  symbol_eq := rfl
  yield_eq := by simp [yieldList_append, h.yield_eq]
  nodeCount_lt := by
    have := h.nodeCount_lt
    simp only [nodeCount_branch, nodeCountList_append, nodeCountList]
    omega

/-- A node below has the symbol of the root if it has its rule. -/
theorem IsDerivation.symbol_eq_of_below {t d : ParseTree} {k : Nat}
    (h : t.IsDerivation g) (hBelow : Below t k d)
    (hRule : d.entry.rule = t.entry.rule) : d.symbol = t.symbol := by
  have hd := h.of_below hBelow
  cases h with
  | terminal _ => exact absurd hBelow not_below_terminal
  | branch hGet _ _ =>
      cases hd with
      | terminal _ =>
          simp [ParseTree.terminal, ParseTree.branch, entry] at hRule
      | branch hGet' _ _ =>
          simp only [ParseTree.branch, entry, Option.some.injEq,
            Int.natCast_inj] at hRule
          subst hRule
          rw [hGet] at hGet'
          cases hGet'
          rfl

/-- A tree whose root repeats is pruned to the node that has its rule. -/
theorem IsDerivation.prunes_of_repeats {t : ParseTree} (h : t.IsDerivation g)
    (hRepeats : t.Repeats) : ∃ u, Prunes g t u := by
  obtain ⟨d, hBelow, hLength, hRule⟩ := hRepeats
  obtain ⟨left, right, _, hYield⟩ := h.exists_yield_eq hBelow
  have hInfix : d.yield <:+: t.yield := ⟨left, right, hYield.symm⟩
  exact ⟨d, h.of_below hBelow, h.symbol_eq_of_below hBelow hRule,
    hInfix.eq_of_length hLength, h.nodeCount_lt hBelow⟩

/-- A tree with a node that repeats is pruned at that node. -/
theorem IsDerivation.exists_prunes {t : ParseTree} (h : t.IsDerivation g)
    (hFree : ¬ t.RepetitionFree) : ∃ u, Prunes g t u := by
  induction h with
  | terminal _ => exact absurd (repetitionFree_terminal _) hFree
  | branch hRule hSymbols hRows ih =>
      rename_i ix r ts
      by_cases hRoot : (ParseTree.branch ix r.lhs ts).Repeats
      · exact (IsDerivation.branch hRule hSymbols hRows).prunes_of_repeats hRoot
      · rw [repetitionFree_branch_iff] at hFree
        simp only [hRoot, not_false_eq_true, true_and, Classical.not_forall]
          at hFree
        obtain ⟨t, ht, hChild⟩ := hFree
        obtain ⟨u, hu⟩ := ih t ht hChild
        obtain ⟨before, after, rfl⟩ := List.append_of_mem ht
        exact ⟨_, hu.branch hRule hSymbols hRows⟩

/-- Every derivation tree can be pruned until no node repeats. -/
theorem IsDerivation.exists_repetitionFree {t : ParseTree}
    (h : t.IsDerivation g) :
    ∃ u : ParseTree, u.IsDerivation g ∧ u.symbol = t.symbol ∧
      u.yield = t.yield ∧ u.RepetitionFree := by
  generalize hCount : t.nodeCount = n
  induction n using Nat.strongRecOn generalizing t with
  | _ n ih =>
      by_cases hFree : t.RepetitionFree
      · exact ⟨t, h, rfl, rfl, hFree⟩
      · obtain ⟨u, hu⟩ := h.exists_prunes hFree
        obtain ⟨v, hv, hSymbol, hYield, hvFree⟩ :=
          ih u.nodeCount (hCount ▸ hu.nodeCount_lt) hu.isDerivation rfl
        exact ⟨v, hv, hSymbol.trans hu.symbol_eq, hYield.trans hu.yield_eq,
          hvFree⟩

end StochasticGrammar.ParseTree
