import StochasticGrammar.Parse.Derivations
import StochasticGrammar.Proofs.Tree.Derivation

/-!
# Lists of derivations

A parser offers its derivations one by one, as programs that draw numbers.
What matters of them is that none fails, whatever numbers were drawn before,
and the shapes of the trees they build: `Derivations.Lists`.

Main results: a parser that lists derivations has a probability, which is the
sum of the weights of the listed shapes (`Derivations.Lists.probability`).
-/

namespace StochasticGrammar

namespace Drawing

variable {β γ : Type}

/-- Whatever numbers were drawn before, there is a result, and it satisfies a
condition. -/
def Yields (x : Drawing β) (p : β → Prop) : Prop :=
  ∀ n, ∃ b m, x.run.run n = (.ok b, m) ∧ p b

theorem Yields.mono {x : Drawing β} {p q : β → Prop} (h : x.Yields p)
    (hImp : ∀ b, p b → q b) : x.Yields q := by
  intro n
  obtain ⟨b, m, hRun, hb⟩ := h n
  exact ⟨b, m, hRun, hImp b hb⟩

/-- After a procedure that succeeds, the counter goes on where it left it. -/
theorem run_bind {x : Drawing β} {f : β → Drawing γ} {n m : Nat} {b : β}
    (h : x.run.run n = (.ok b, m)) :
    (x >>= f).run.run n = (f b).run.run m := by
  show StateT.run (ExceptT.run (x >>= f)) n = _
  rw [ExceptT.run_bind, StateT.run_bind, h]
  rfl

theorem yields_pure {b : β} {p : β → Prop} (h : p b) :
    Yields (pure b) p :=
  fun n => ⟨b, n, rfl, h⟩

theorem Yields.bind {x : Drawing β} {f : β → Drawing γ} {p : β → Prop}
    {q : γ → Prop} (hx : x.Yields p) (hf : ∀ b, p b → (f b).Yields q) :
    (x >>= f).Yields q := by
  intro n
  obtain ⟨b, m, hRun, hb⟩ := hx n
  obtain ⟨c, k, hNext, hc⟩ := hf b hb m
  exact ⟨c, k, by rw [run_bind hRun, hNext], hc⟩

theorem yields_fresh : fresh.Yields fun _ => True :=
  fun n => ⟨n, n + 1, rfl, trivial⟩

end Drawing

namespace Derivations

variable {α : Type}

/-- A list holds the shapes of the trees, by number: each of them is built
whenever it is asked for, and there are no other trees. -/
structure Lists (d : Derivations α) (shapes : List ParseTree) : Prop where
  length_eq : shapes.length = d.count
  yields_tree : ∀ (ix : Nat) (s : ParseTree), shapes[ix]? = some s →
    (d.tree ix).Yields fun t => t.shape = s

theorem canGenerate_iff (d : Derivations α) {shapes : List ParseTree}
    (h : d.Lists shapes) : d.canGenerate = true ↔ ∃ s, s ∈ shapes := by
  rw [canGenerate, decide_eq_true_iff, ← h.length_eq,
    List.length_pos_iff_exists_mem]

/-- A parser lists the shapes that its build function arrives at. -/
theorem lists_of_build {d : Derivations α} {shapes : List ParseTree}
    (hLength : shapes.length = d.count)
    (hBuild : ∀ (ix : Nat) (s : ParseTree), shapes[ix]? = some s →
      (d.build ix).Yields fun t => t.shape = s) : d.Lists shapes := by
  refine ⟨hLength, fun ix s hs => ?_⟩
  have hLt : ix < shapes.length := (List.getElem?_eq_some_iff.1 hs).1
  have hPosition : Parse.treePosition d.count ix = .ok ix := by
    rw [Parse.treePosition, if_pos (by omega)]
    rfl
  rw [Derivations.tree, hPosition]
  exact hBuild ix s hs

theorem Lists.build {d : Derivations α} {shapes : List ParseTree}
    (h : d.Lists shapes) {ix : Nat} {s : ParseTree}
    (hs : shapes[ix]? = some s) :
    (d.build ix).Yields fun t => t.shape = s := by
  have hLt : ix < shapes.length := (List.getElem?_eq_some_iff.1 hs).1
  have hPosition : Parse.treePosition d.count ix = .ok ix := by
    have := h.length_eq
    rw [Parse.treePosition, if_pos (by omega)]
    rfl
  have hTree := h.yields_tree ix s hs
  rw [Derivations.tree, hPosition] at hTree
  exact hTree

/-- Building all trees gives trees of the listed shapes, in order. -/
theorem Lists.trees {d : Derivations α} {shapes : List ParseTree}
    (h : d.Lists shapes) :
    d.trees.Yields fun ts => ts.map ParseTree.shape = shapes := by
  have hRows : ∀ (ixs : List Nat) (rest : List ParseTree),
      ixs.map (shapes[·]?) = rest.map some →
      Drawing.Yields (ixs.mapM d.build)
        fun ts => ts.map ParseTree.shape = rest := by
    intro ixs
    induction ixs with
    | nil =>
        intro rest hRest
        cases rest with
        | nil => exact Drawing.yields_pure rfl
        | cons s rest => simp at hRest
    | cons ix ixs ih =>
        intro rest hRest
        cases rest with
        | nil => simp at hRest
        | cons s rest =>
            simp only [List.map_cons, List.cons.injEq] at hRest
            rw [List.mapM_cons]
            refine (h.build hRest.1).bind fun t ht => ?_
            refine (ih rest hRest.2).bind fun ts hts => ?_
            exact Drawing.yields_pure (by simp [ht, hts])
  apply hRows
  rw [← h.length_eq]
  apply List.ext_getElem <;> simp

/-- The weight of a tree depends on its shape only. -/
theorem weight_shape [Zero α] [One α] [Mul α] (d : Derivations α)
    (t : ParseTree) : d.weight t.shape = d.weight t := by
  rw [weight, weight, ParseTree.product?_shape]

/-- The probability is the sum of the weights of the listed shapes. -/
theorem Lists.probability [Zero α] [One α] [Add α] [Mul α]
    {d : Derivations α} {shapes : List ParseTree} (h : d.Lists shapes) :
    d.probability.Yields fun p =>
      p = shapes.foldl (fun total s => total + d.weight s) 0 := by
  refine h.trees.bind fun ts hts => Drawing.yields_pure ?_
  rw [← hts, List.foldl_map]
  simp only [weight_shape]

end Derivations

end StochasticGrammar
