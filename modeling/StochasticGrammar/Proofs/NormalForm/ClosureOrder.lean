import Mathlib.Computability.StateTransition
import Mathlib.Order.Lattice.Nat
import StochasticGrammar.Proofs.NormalForm.UnitClosure

/-!
# The order of renamings

The search for the symbols that a symbol can be renamed to is followed from
symbol to symbol, with no bound built into the definition (`nextSymbol?`).

The symbols stand in the order of their distance, which is the number of steps
of a shortest chain.  While the search goes on, no symbol is more than one step
farther than those that wait (`NearestFirst`).  What is nearer than the first of
them has been gone through, so a symbol that is found has the next distance and
belongs at the end.

Main results: `eval_nextSymbol?`, `nearestFirst_unitClosure` and
`mem_unitClosure_iff`, which make up `unitClosure_exact`.
-/

namespace StochasticGrammar.NormalForm

variable {edges : List (SymbolId × SymbolId)} {id x y : SymbolId} {n : ℕ}
  {done pending : List SymbolId}

/-! ## Chains of renamings -/

/-- A symbol is renamed to another in a number of steps. -/
inductive RenamedIn (edges : List (SymbolId × SymbolId)) (id : SymbolId) :
    ℕ → SymbolId → Prop
  | refl : RenamedIn edges id 0 id
  | tail {n : ℕ} {x y : SymbolId} : RenamedIn edges id n x → (x, y) ∈ edges →
      RenamedIn edges id (n + 1) y

/-- The length of a shortest chain of renamings from a symbol to another. -/
noncomputable def distance (edges : List (SymbolId × SymbolId))
    (id x : SymbolId) : ℕ :=
  sInf {n | RenamedIn edges id n x}

theorem RenamedIn.distance_le (h : RenamedIn edges id n x) :
    distance edges id x ≤ n :=
  Nat.sInf_le h

theorem RenamedIn.shortest (h : RenamedIn edges id n x) :
    RenamedIn edges id (distance edges id x) x :=
  Nat.sInf_mem (s := {n | RenamedIn edges id n x}) ⟨n, h⟩

theorem RenamedIn.distance_le_of_edge (h : RenamedIn edges id n x)
    (hEdge : (x, y) ∈ edges) : distance edges id y ≤ distance edges id x + 1 :=
  (h.shortest.tail hEdge).distance_le

/-- The last step of a shortest chain comes from a symbol that is nearer. -/
theorem RenamedIn.exists_nearer (h : RenamedIn edges id n y) (hNe : y ≠ id) :
    ∃ x m, RenamedIn edges id m x ∧ (x, y) ∈ edges ∧
      distance edges id x < distance edges id y := by
  have hShortest := h.shortest
  generalize hLength : distance edges id y = d at hShortest
  cases hShortest with
  | refl => exact absurd rfl hNe
  | tail hChain hEdge =>
      exact ⟨_, _, hChain, hEdge, Nat.lt_succ_of_le hChain.distance_le⟩

/-! ## Steps without a bound -/

/-- The symbols that have been gone through and those that wait, after one more
step; none if no symbol waits. -/
def nextSymbol? (edges : List (SymbolId × SymbolId)) :
    List SymbolId × List SymbolId → Option (List SymbolId × List SymbolId)
  | (_, []) => none
  | (done, x :: pending) =>
    some (done ++ [x],
      pending ++ freshOnly (done ++ x :: pending) (targetsOf edges x))

/-- The steps that are allowed for are steps of the search, and there are
enough of them. -/
theorem Searched.reaches_closeFrom (fuel : ℕ) :
    ∀ {done pending : List SymbolId}, Searched edges id done pending →
      edges.length + 1 ≤ fuel + done.length →
      StateTransition.Reaches (nextSymbol? edges) (done, pending)
        (NormalForm.closeFrom edges fuel done pending, []) := by
  induction fuel with
  | zero =>
      intro done pending h hFuel
      have hLength := h.length_le
      obtain rfl : pending = [] := List.length_eq_zero_iff.1 (by omega)
      rw [NormalForm.closeFrom, List.append_nil]
      exact .refl
  | succ fuel ih =>
      intro done pending h hFuel
      cases pending with
      | nil => exact .refl
      | cons x pending =>
          rw [closeFrom_cons]
          refine .head rfl (ih h.next ?_)
          rw [List.length_append, List.length_singleton]
          omega

theorem reaches_unitClosure (edges : List (SymbolId × SymbolId))
    (id : SymbolId) : StateTransition.Reaches (nextSymbol? edges) ([], [id])
      (unitClosure edges id, []) :=
  (searched_start edges id).reaches_closeFrom _ (by simp)

/-- Without a bound on its steps, the search ends with the same list. -/
theorem eval_nextSymbol? (edges : List (SymbolId × SymbolId))
    (id : SymbolId) : StateTransition.eval (nextSymbol? edges) ([], [id]) =
      Part.some (unitClosure edges id, []) :=
  Part.eq_some_iff.2 (StateTransition.mem_eval.2
    ⟨reaches_unitClosure edges id, rfl⟩)

/-! ## The order of the search -/

/-- What holds of the order of the symbols at any time. -/
structure NearestFirst (edges : List (SymbolId × SymbolId)) (id : SymbolId)
    (done pending : List SymbolId) : Prop
    extends Searched edges id done pending where
  id_mem : id ∈ done ++ pending
  renamed : ∀ x ∈ done ++ pending, ∃ n, RenamedIn edges id n x
  sorted : (done ++ pending).Pairwise fun x y =>
    distance edges id x ≤ distance edges id y
  near : ∀ x ∈ pending, ∀ y ∈ done ++ pending,
    distance edges id y ≤ distance edges id x + 1

theorem nearestFirst_start (edges : List (SymbolId × SymbolId))
    (id : SymbolId) : NearestFirst edges id [] [id] where
  toSearched := searched_start edges id
  id_mem := by simp
  renamed := by simpa using ⟨0, RenamedIn.refl⟩
  sorted := List.pairwise_singleton _ _
  near := by simp

namespace NearestFirst

/-- The first symbol that waits is nearest. -/
theorem distance_le (h : NearestFirst edges id done (x :: pending))
    (hy : y ∈ pending) : distance edges id x ≤ distance edges id y :=
  List.rel_of_pairwise_cons (List.pairwise_append.1 h.sorted).2.1 hy

/-- What is nearer than the symbols that wait has been gone through. -/
theorem mem_done (h : NearestFirst edges id done (x :: pending)) {d : ℕ} :
    ∀ {y : SymbolId} {n : ℕ}, RenamedIn edges id n y →
      distance edges id y = d → d < distance edges id x → y ∈ done := by
  -- what comes before it on a shortest chain is nearer still, and done
  induction d using Nat.strong_induction_on with
  | _ d ih =>
      intro y n hy hLength hLess
      have hMem : y ∈ done ++ x :: pending := by
        by_cases hId : y = id
        · exact hId ▸ h.id_mem
        · obtain ⟨z, m, hz, hEdge, hNearer⟩ := hy.exists_nearer hId
          rw [hLength] at hNearer
          exact h.closed hEdge (ih _ hNearer hz rfl (by omega))
      rcases List.mem_append.1 hMem with hDone | hWaits
      · exact hDone
      · rcases List.mem_cons.1 hWaits with rfl | hLater
        · omega
        · have := h.distance_le hLater
          omega

/-- A symbol that is found has the next distance. -/
theorem distance_fresh (h : NearestFirst edges id done (x :: pending))
    (hy : y ∈ freshOnly (done ++ x :: pending) (targetsOf edges x)) :
    distance edges id y = distance edges id x + 1 := by
  obtain ⟨hTarget, hNew⟩ := mem_freshOnly.1 hy
  have hEdge := mem_targetsOf.1 hTarget
  obtain ⟨n, hx⟩ := h.renamed x (by simp)
  refine le_antisymm (hx.distance_le_of_edge hEdge) (not_lt.1 fun hLess => ?_)
  -- otherwise it has been found before, as the target of a symbol that is done
  have hId : y ≠ id := fun hEq => hNew (hEq ▸ h.id_mem)
  obtain ⟨z, m, hz, hLast, hNearer⟩ :=
    (hx.tail hEdge).exists_nearer hId
  exact hNew (h.closed hLast (h.mem_done hz rfl (by omega)))

theorem next (h : NearestFirst edges id done (x :: pending)) :
    NearestFirst edges id (done ++ [x])
      (pending ++ freshOnly (done ++ x :: pending) (targetsOf edges x)) := by
  have hAll := append_next done pending
    (freshOnly (done ++ x :: pending) (targetsOf edges x)) x
  have hNear : ∀ y ∈ done ++ x :: pending,
      distance edges id y ≤ distance edges id x + 1 := h.near x (by simp)
  refine ⟨h.toSearched.next, ?_, ?_, ?_, ?_⟩
  · rw [hAll]
    exact List.mem_append_left _ h.id_mem
  · rw [hAll]
    intro y hy
    rcases List.mem_append.1 hy with hOld | hFresh
    · exact h.renamed y hOld
    · obtain ⟨n, hx⟩ := h.renamed x (by simp)
      exact ⟨n + 1, hx.tail (mem_targetsOf.1 (mem_freshOnly.1 hFresh).1)⟩
  · rw [hAll, List.pairwise_append]
    refine ⟨h.sorted, List.pairwise_of_forall_mem_list fun y hy z hz => ?_,
      fun y hy z hz => ?_⟩
    · rw [h.distance_fresh hy, h.distance_fresh hz]
    · rw [h.distance_fresh hz]
      exact hNear y hy
  · rw [hAll]
    intro y hy z hz
    have hFirst : distance edges id x ≤ distance edges id y := by
      rcases List.mem_append.1 hy with hWaits | hFresh
      · exact h.distance_le hWaits
      · exact (h.distance_fresh hFresh).symm ▸ Nat.le_succ _
    have hLast : distance edges id z ≤ distance edges id x + 1 := by
      rcases List.mem_append.1 hz with hOld | hFresh
      · exact hNear z hOld
      · exact (h.distance_fresh hFresh).le
    omega

/-- Every step of the search keeps the order. -/
theorem of_reaches {s s' : List SymbolId × List SymbolId}
    (hSteps : StateTransition.Reaches (nextSymbol? edges) s s')
    (h : NearestFirst edges id s.1 s.2) : NearestFirst edges id s'.1 s'.2 := by
  induction hSteps with
  | refl => exact h
  | @tail s s' _ hStep ih =>
      obtain ⟨done, _ | ⟨x, pending⟩⟩ := s
      · cases hStep
      · cases hStep
        exact ih.next

end NearestFirst

/-! ## The symbols found -/

theorem nearestFirst_unitClosure (edges : List (SymbolId × SymbolId))
    (id : SymbolId) : NearestFirst edges id (unitClosure edges id) [] :=
  .of_reaches (reaches_unitClosure edges id) (nearestFirst_start edges id)

theorem mem_unitClosure_iff :
    x ∈ unitClosure edges id ↔ ∃ n, RenamedIn edges id n x := by
  have hOrder := nearestFirst_unitClosure edges id
  constructor
  · exact fun hx => hOrder.renamed x (List.mem_append_left _ hx)
  · rintro ⟨n, hChain⟩
    induction hChain with
    | refl => simpa using hOrder.id_mem
    | tail _ hEdge ih => exact mem_unitClosure_of_edge hEdge ih

/-- The search for the symbols that a symbol can be renamed to ends, whatever
cycles and repeated targets there are.  It lists the symbol itself first, and
each symbol that a chain of renamings leads to once, the nearer before the
farther. -/
theorem unitClosure_exact (edges : List (SymbolId × SymbolId))
    (id : SymbolId) :
    StateTransition.eval (nextSymbol? edges) ([], [id]) =
        Part.some (unitClosure edges id, []) ∧
      (unitClosure edges id).Nodup ∧
      (unitClosure edges id).head? = some id ∧
      (∀ x, x ∈ unitClosure edges id ↔ ∃ n, RenamedIn edges id n x) ∧
      (unitClosure edges id).Pairwise fun x y =>
        distance edges id x ≤ distance edges id y := by
  have hOrder := nearestFirst_unitClosure edges id
  refine ⟨eval_nextSymbol? edges id, nodup_unitClosure edges id,
    head?_unitClosure edges id, fun _ => mem_unitClosure_iff, ?_⟩
  simpa only [List.append_nil] using hOrder.sorted

-- a cycle, with one target twice
example : unitClosure [(3, 4), (4, 5), (4, 3), (3, 4)] 3 = [3, 4, 5] := by
  decide

end StochasticGrammar.NormalForm
