import Mathlib.Data.List.Nodup
import StochasticGrammar.NormalForm.UnitRules

/-!
# What a symbol can be renamed to

The search for the symbols that a symbol can be renamed to goes through each of
them once.  All but the first are targets of renamings, so the bound on its
steps is never what ends it.

Main results: the symbols found are pairwise different (`nodup_unitClosure`),
closed under renaming (`mem_unitClosure_of_edge`), and nothing but what
renaming calls for (`unitClosure_induction`).
-/

namespace StochasticGrammar.NormalForm

variable {edges : List (SymbolId × SymbolId)}

theorem mem_freshOnly {known targets : List SymbolId} {t : SymbolId} :
    t ∈ freshOnly known targets ↔ t ∈ targets ∧ t ∉ known := by
  induction targets generalizing known with
  | nil => simp [freshOnly]
  | cons u rest ih =>
      unfold freshOnly
      by_cases hu : u ∈ known
      · rw [if_pos (by simpa using hu), ih, List.mem_cons]
        constructor
        · exact fun h => ⟨.inr h.1, h.2⟩
        · rintro ⟨rfl | h, hNot⟩
          · exact absurd hu hNot
          · exact ⟨h, hNot⟩
      · rw [if_neg (by simpa using hu), List.mem_cons, ih, List.mem_cons,
          List.mem_append, List.mem_singleton]
        by_cases ht : t = u
        · simp [ht, hu]
        · simp [ht]

theorem nodup_freshOnly (known targets : List SymbolId) :
    (freshOnly known targets).Nodup := by
  induction targets generalizing known with
  | nil => simp [freshOnly]
  | cons u rest ih =>
      unfold freshOnly
      split
      · exact ih known
      · rw [List.nodup_cons, mem_freshOnly]
        exact ⟨fun h => h.2 (by simp), ih _⟩

theorem freshOnly_eq_self {known targets : List SymbolId}
    (h : (known ++ targets).Nodup) : freshOnly known targets = targets := by
  induction targets generalizing known with
  | nil => rfl
  | cons t rest ih =>
      have hNew : t ∉ known := by
        rw [List.nodup_middle, List.nodup_cons] at h
        exact fun hMem => h.1 (List.mem_append_left _ hMem)
      rw [freshOnly, if_neg (by simpa using hNew), ih (by simpa using h)]

/-! ## The search -/

/-- The targets of a symbol that are found when it is gone through. -/
def targetsOf (edges : List (SymbolId × SymbolId)) (x : SymbolId) :
    List SymbolId :=
  (edges.filter (·.1 == x)).map (·.2)

theorem mem_targetsOf {x y : SymbolId} :
    y ∈ targetsOf edges x ↔ (x, y) ∈ edges := by
  simp [targetsOf]

theorem closeFrom_cons (fuel : Nat) (done pending : List SymbolId)
    (x : SymbolId) :
    closeFrom edges (fuel + 1) done (x :: pending) =
      closeFrom edges fuel (done ++ [x])
        (pending ++ freshOnly (done ++ x :: pending) (targetsOf edges x)) :=
  rfl

/-- The search adds nothing to symbols that cannot be renamed. -/
theorem closeFrom_of_targetsOf_eq_nil (fuel : Nat) :
    ∀ {done pending : List SymbolId},
      (∀ x ∈ pending, targetsOf edges x = []) →
      closeFrom edges fuel done pending = done ++ pending := by
  induction fuel with
  | zero => exact fun _ => rfl
  | succ fuel ih =>
      intro done pending h
      cases pending with
      | nil => simp [closeFrom]
      | cons x pending =>
          rw [closeFrom_cons, h x (by simp), freshOnly, List.append_nil,
            ih fun y hy => h y (by simp [hy]), List.append_assoc,
            List.singleton_append]

/-- What the search knows at any time. -/
structure Searched (edges : List (SymbolId × SymbolId)) (id : SymbolId)
    (done pending : List SymbolId) : Prop where
  nodup : (done ++ pending).Nodup
  origin : ∀ x ∈ done ++ pending, x = id ∨ x ∈ edges.map (·.2)
  closed : ∀ {x y : SymbolId}, (x, y) ∈ edges → x ∈ done →
    y ∈ done ++ pending

/-- A step moves one symbol and appends what it finds. -/
theorem append_next (done pending fresh : List SymbolId) (x : SymbolId) :
    (done ++ [x]) ++ (pending ++ fresh) = (done ++ x :: pending) ++ fresh := by
  simp

theorem Searched.next {id x : SymbolId} {done pending : List SymbolId}
    (h : Searched edges id done (x :: pending)) :
    Searched edges id (done ++ [x])
      (pending ++ freshOnly (done ++ x :: pending) (targetsOf edges x)) := by
  have hAll := append_next done pending
    (freshOnly (done ++ x :: pending) (targetsOf edges x)) x
  refine ⟨?_, ?_, ?_⟩
  · rw [hAll, List.nodup_append]
    refine ⟨h.nodup, nodup_freshOnly _ _, fun a ha b hb hab => ?_⟩
    exact (mem_freshOnly.1 hb).2 (hab ▸ ha)
  · intro y hy
    rw [hAll] at hy
    rcases List.mem_append.1 hy with hy | hy
    · exact h.origin y hy
    · have hEdge := mem_targetsOf.1 (mem_freshOnly.1 hy).1
      exact .inr (List.mem_map.2 ⟨_, hEdge, rfl⟩)
  · intro y z hEdge hy
    rw [hAll]
    rcases List.mem_append.1 hy with hy | hy
    · exact List.mem_append_left _ (h.closed hEdge hy)
    · rw [List.mem_singleton.1 hy] at hEdge
      by_cases hz : z ∈ done ++ x :: pending
      · exact List.mem_append_left _ hz
      · exact List.mem_append_right _
          (mem_freshOnly.2 ⟨mem_targetsOf.2 hEdge, hz⟩)

/-- All symbols but the first are targets, and none of them is there twice. -/
theorem Searched.length_le {id : SymbolId} {done pending : List SymbolId}
    (h : Searched edges id done pending) :
    done.length + pending.length ≤ edges.length + 1 := by
  have hSubset : done ++ pending ⊆ id :: edges.map (·.2) := by
    intro x hx
    rcases h.origin x hx with rfl | hx
    · simp
    · simp only [List.mem_cons]
      exact .inr hx
  have hLength := List.Nodup.length_le_of_subset h.nodup hSubset
  simpa only [List.length_append, List.length_cons, List.length_map]
    using hLength

/-- With enough steps left, the search ends with nothing pending. -/
theorem Searched.closeFrom {id : SymbolId} (fuel : Nat) :
    ∀ {done pending : List SymbolId}, Searched edges id done pending →
      edges.length + 1 ≤ fuel + done.length →
      Searched edges id (closeFrom edges fuel done pending) [] := by
  induction fuel with
  | zero =>
      intro done pending h hFuel
      have hLength := h.length_le
      have hNone : pending = [] :=
        List.length_eq_zero_iff.1 (by omega)
      subst hNone
      show Searched edges id (done ++ []) []
      rwa [List.append_nil]
  | succ fuel ih =>
      intro done pending h hFuel
      cases pending with
      | nil => exact h
      | cons x pending =>
          rw [closeFrom_cons]
          refine ih h.next ?_
          rw [List.length_append, List.length_singleton]
          omega

theorem closeFrom_induction {p : SymbolId → Prop}
    (hEdge : ∀ {x y : SymbolId}, (x, y) ∈ edges → p x → p y) (fuel : Nat) :
    ∀ {done pending : List SymbolId}, (∀ x ∈ done ++ pending, p x) →
      ∀ x ∈ closeFrom edges fuel done pending, p x := by
  induction fuel with
  | zero => exact fun h => h
  | succ fuel ih =>
      intro done pending h
      cases pending with
      | nil =>
          intro x hx
          exact h x (by simpa [closeFrom] using hx)
      | cons y pending =>
          rw [closeFrom_cons]
          refine ih fun x hx => ?_
          rw [← List.append_assoc] at hx
          rcases List.mem_append.1 hx with hx | hx
          · exact h x (by simpa using hx)
          · have hTarget := mem_targetsOf.1 (mem_freshOnly.1 hx).1
            exact hEdge hTarget (h y (by simp))

/-! ## The symbols found -/

theorem searched_start (edges : List (SymbolId × SymbolId)) (id : SymbolId) :
    Searched edges id [] [id] :=
  ⟨by simp, by simp, by simp⟩

theorem searched_unitClosure (edges : List (SymbolId × SymbolId))
    (id : SymbolId) : Searched edges id (unitClosure edges id) [] :=
  (searched_start edges id).closeFrom _ (by simp)

theorem nodup_unitClosure (edges : List (SymbolId × SymbolId))
    (id : SymbolId) : (unitClosure edges id).Nodup := by
  simpa using (searched_unitClosure edges id).nodup

theorem self_mem_unitClosure (edges : List (SymbolId × SymbolId))
    (id : SymbolId) : id ∈ unitClosure edges id :=
  List.mem_of_mem_head? (head?_unitClosure edges id)

theorem mem_unitClosure_of_edge {id x y : SymbolId} (hEdge : (x, y) ∈ edges)
    (hx : x ∈ unitClosure edges id) : y ∈ unitClosure edges id := by
  simpa using (searched_unitClosure edges id).closed hEdge hx

/-- What renaming carries on holds of everything that a symbol can be renamed
to. -/
theorem unitClosure_induction {p : SymbolId → Prop} {id : SymbolId}
    (hId : p id)
    (hEdge : ∀ {x y : SymbolId}, (x, y) ∈ edges → p x → p y) :
    ∀ x ∈ unitClosure edges id, p x :=
  closeFrom_induction hEdge _ (by simpa using hId)

/-- Renaming again leads to nothing new. -/
theorem unitClosure_subset {id x : SymbolId}
    (hx : x ∈ unitClosure edges id) :
    unitClosure edges x ⊆ unitClosure edges id :=
  unitClosure_induction hx fun hEdge => mem_unitClosure_of_edge hEdge

/-- If no target can be renamed in turn, one step finds everything. -/
theorem unitClosure_eq_cons {x : SymbolId}
    (hNodup : (x :: targetsOf edges x).Nodup)
    (hTargets : ∀ y ∈ targetsOf edges x, targetsOf edges y = []) :
    unitClosure edges x = x :: targetsOf edges x := by
  have hFresh : freshOnly [x] (targetsOf edges x) = targetsOf edges x :=
    freshOnly_eq_self hNodup
  show closeFrom edges edges.length [x] (freshOnly [x] (targetsOf edges x)) = _
  rw [hFresh, closeFrom_of_targetsOf_eq_nil _ hTargets, List.singleton_append]

theorem mem_renamings {α : Type} {rules : List (Rule α)} {x y : SymbolId} :
    (x, y) ∈ renamings rules ↔ ∃ r ∈ rules, r.lhs = x ∧ r.rhs = [y] := by
  simp only [renamings, List.mem_filterMap]
  constructor
  · rintro ⟨r, hr, hMatch⟩
    split at hMatch
    · rename_i t hRhs
      cases hMatch
      exact ⟨r, hr, rfl, hRhs⟩
    · cases hMatch
  · rintro ⟨r, hr, rfl, hRhs⟩
    exact ⟨r, hr, by simp [hRhs]⟩

end StochasticGrammar.NormalForm
