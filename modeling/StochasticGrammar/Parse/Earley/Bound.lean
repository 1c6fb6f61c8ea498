import StochasticGrammar.Parse.Earley.Invariant

/-!
# Earley charts are finite

Back pointers are numbers of items, so the keys of items are not drawn from a
finite set fixed in advance. But an item stands for a finite tree: its rule,
dot and span, and below it the trees of the items it points to. Two items of a
chart stand for different trees, because keys differ. And the trees have
bounded height: along a path the spans shrink, and while a span stays the same
no rule comes twice. There are finitely many such trees.

Main results: a sound chart has at most `itemBound task` items
(`Chart.Sound.size_le`), so the agenda comes to its end: each step decreases
the pair of states left and items left (`Agenda.step_decreases`).
-/

namespace StochasticGrammar.Earley

variable {α : Type}

/-! ## The trees that items stand for -/

/-- An item with the items below it written out. -/
inductive Unfolding where
  | mk (rule dot start state : Nat) (below : List Unfolding)

/-- The tree that item `b` stands for. -/
def unfold (items : Array Item) (b : Nat) : Unfolding :=
  match items[b]? with
  | none => .mk 0 0 0 0 []
  | some e =>
    .mk e.rule e.dot e.start e.state (e.back.attach.map fun ⟨child, _⟩ =>
      if child < b then unfold items child else .mk 0 0 0 0 [])
termination_by b

theorem unfold_of_getElem? {items : Array Item} {b : Nat} {e : Item}
    (hItem : items[b]? = some e) (hBack : ∀ child ∈ e.back, child < b) :
    unfold items b =
      .mk e.rule e.dot e.start e.state (e.back.map (unfold items)) := by
  rw [unfold, hItem]
  simp only [Unfolding.mk.injEq, true_and]
  have hMap : e.back.attach.map (fun x : { x // x ∈ e.back } =>
        if x.1 < b then unfold items x.1 else .mk 0 0 0 0 []) =
      e.back.attach.map fun x => unfold items x.1 := by
    apply List.map_congr_left
    intro x _
    rw [if_pos (hBack x.1 x.2)]
  have hVal : e.back.attach.map (fun x => unfold items x.1) =
      e.back.map (unfold items) := by
    conv => rhs; rw [← List.attach_map_subtype_val e.back]
    rw [List.map_map]
    rfl
  exact hMap.trans hVal

/-- A map that separates the elements of two lists separates the lists. -/
theorem eq_of_map_eq {β γ : Type} {f : β → γ} :
    ∀ {xs ys : List β}, xs.map f = ys.map f →
      (∀ x ∈ xs, ∀ y ∈ ys, f x = f y → x = y) → xs = ys
  | [], [], _, _ => rfl
  | [], _ :: _, h, _ => by simp at h
  | _ :: _, [], h, _ => by simp at h
  | x :: xs, y :: ys, h, hInj => by
    simp only [List.map_cons, List.cons.injEq] at h
    have hHead := hInj x (by simp) y (by simp) h.1
    have hTail := eq_of_map_eq h.2 fun a ha b hb =>
      hInj a (by simp [ha]) b (by simp [hb])
    rw [hHead, hTail]

/-- Different items stand for different trees. -/
theorem unfold_injective {task : Task α} {c : Chart} (h : c.Sound task) :
    ∀ {i j : Nat}, i < c.items.size → j < c.items.size →
      unfold c.items i = unfold c.items j → i = j := by
  intro i
  induction i using Nat.strongRecOn with
  | _ i ih =>
    intro j hi hj hEq
    have hd := Array.getElem?_eq_getElem hi
    have he := Array.getElem?_eq_getElem hj
    generalize c.items[i] = d at hd
    generalize c.items[j] = e at he
    rw [unfold_of_getElem? hd (h.back_lt hd),
      unfold_of_getElem? he (h.back_lt he)] at hEq
    simp only [Unfolding.mk.injEq] at hEq
    obtain ⟨hRule, hDot, hStart, hState, hBelow⟩ := hEq
    have hBack : d.back = e.back := by
      apply eq_of_map_eq hBelow
      intro a ha b hb hab
      have haLt := h.back_lt hd a ha
      have hbLt := h.back_lt he b hb
      exact ih a haLt (by omega) (by omega) hab
    apply h.distinct hd he
    simp [Item.key, hRule, hDot, hStart, hState, hBack]

/-! ## Finitely many trees -/

/-- The lists of at most `k` elements of a list. -/
def listsOf {β : Type} (xs : List β) : Nat → List (List β)
  | 0 => [[]]
  | k + 1 => [] :: xs.flatMap fun x => (listsOf xs k).map (x :: ·)

theorem mem_listsOf {β : Type} {xs ys : List β} {k : Nat}
    (hLength : ys.length ≤ k) (hMem : ∀ y ∈ ys, y ∈ xs) :
    ys ∈ listsOf xs k := by
  induction ys generalizing k with
  | nil => cases k <;> simp [listsOf]
  | cons y ys ih =>
    cases k with
    | zero => simp at hLength
    | succ k =>
      have hTail := ih (k := k) (by simpa using hLength)
        fun z hz => hMem z (by simp [hz])
      simp only [listsOf, List.mem_cons, List.mem_flatMap, List.mem_map]
      exact .inr ⟨y, hMem y (by simp), ys, hTail, rfl⟩

/-- The trees of height at most `h` whose rules are below `rules`, whose dots
are at most `width` and whose spans lie in an input of length `n`. -/
def unfoldings (rules width n : Nat) : Nat → List Unfolding
  | 0 => []
  | h + 1 =>
    (List.range rules).flatMap fun rule =>
      (List.range (width + 1)).flatMap fun dot =>
        (List.range (n + 1)).flatMap fun start =>
          (List.range (n + 1)).flatMap fun state =>
            (listsOf (unfoldings rules width n h) width).map
              (Unfolding.mk rule dot start state)

theorem mem_unfoldings_succ {rules width n h rule dot start state : Nat}
    {below : List Unfolding} (hRule : rule < rules) (hDot : dot ≤ width)
    (hStart : start ≤ n) (hState : state ≤ n)
    (hLength : below.length ≤ width)
    (hBelow : ∀ u ∈ below, u ∈ unfoldings rules width n h) :
    Unfolding.mk rule dot start state below ∈
      unfoldings rules width n (h + 1) := by
  simp only [unfoldings, List.mem_flatMap, List.mem_range, List.mem_map]
  exact ⟨rule, hRule, dot, by omega, start, by omega, state, by omega, below,
    mem_listsOf hLength hBelow, rfl⟩

theorem mem_listsOf_iff {β : Type} {xs ys : List β} {k : Nat} :
    ys ∈ listsOf xs k ↔ ys.length ≤ k ∧ ∀ y ∈ ys, y ∈ xs := by
  refine ⟨?_, fun h => mem_listsOf h.1 h.2⟩
  induction k generalizing ys with
  | zero => intro h; simp [listsOf] at h; simp [h]
  | succ k ih =>
    intro h
    simp only [listsOf, List.mem_cons, List.mem_flatMap, List.mem_map] at h
    rcases h with rfl | ⟨x, hx, zs, hzs, rfl⟩
    · simp
    · obtain ⟨hLength, hMem⟩ := ih hzs
      simp only [List.length_cons, List.mem_cons]
      exact ⟨by omega, fun y hy => hy.elim (fun hEq => hEq ▸ hx) (hMem y)⟩

/-- Trees of some height are among those of a greater one. -/
theorem unfoldings_mono {rules width n : Nat} {h k : Nat} (hle : h ≤ k)
    {u : Unfolding} (hu : u ∈ unfoldings rules width n h) :
    u ∈ unfoldings rules width n k := by
  induction h generalizing k u with
  | zero => simp [unfoldings] at hu
  | succ h ih =>
    cases k with
    | zero => omega
    | succ k =>
      simp only [unfoldings, List.mem_flatMap, List.mem_map] at hu ⊢
      obtain ⟨rule, hRule, dot, hDot, start, hStart, state, hState, below,
        hBelow, rfl⟩ := hu
      obtain ⟨hLength, hMem⟩ := mem_listsOf_iff.1 hBelow
      exact ⟨rule, hRule, dot, hDot, start, hStart, state, hState, below,
        mem_listsOf hLength fun y hy => ih (by omega) (hMem y hy), rfl⟩

/-! ## Trees have bounded height -/

/-- The length of the longest right side. -/
def Task.width (task : Task α) : Nat :=
  task.rules.foldl (fun width r => max width r.rhs.length) 0

theorem le_foldl_max (xs : List (Rule α)) (start : Nat) :
    start ≤ xs.foldl (fun width r => max width r.rhs.length) start ∧
      ∀ r ∈ xs, r.rhs.length ≤
        xs.foldl (fun width r => max width r.rhs.length) start := by
  induction xs generalizing start with
  | nil => simp
  | cons x xs ih =>
    obtain ⟨hStart, hMem⟩ := ih (max start x.rhs.length)
    simp only [List.foldl_cons, List.mem_cons]
    refine ⟨by omega, fun r hr => ?_⟩
    rcases hr with rfl | hr
    · omega
    · exact hMem r hr

theorem Task.length_rhs_le (task : Task α) (rule : Nat) :
    (task.rhs rule).length ≤ task.width := by
  unfold Task.rhs Task.width
  rw [← Array.foldl_toList]
  split
  · rename_i r hRule
    exact (le_foldl_max task.rules.toList 0).2 r
      (Array.mem_toList_iff.2 (Array.mem_of_getElem? hRule))
  · simp

/-- A list of different numbers below `n` has at most `n` elements. -/
theorem length_le_of_nodup {xs : List Nat} {n : Nat} (hNodup : xs.Nodup)
    (hLt : ∀ x ∈ xs, x < n) : xs.length ≤ n := by
  have hSubset : xs ⊆ List.range n := fun x hx => List.mem_range.2 (hLt x hx)
  simpa using hNodup.length_le_of_subset hSubset

open Chart (repeats Sound)

theorem repeats_of_getElem? {items : Array Item} {b : Nat} {e : Item}
    (hItem : items[b]? = some e) {rule : Nat}
    (h : repeats items rule e.start e.state b = false) :
    e.rule ≠ rule ∧ ∀ child ∈ e.back, child < b →
      repeats items rule e.start e.state child = false := by
  rw [repeats, hItem] at h
  simp only [beq_self_eq_true, Bool.true_and, Bool.or_eq_false_iff,
    beq_eq_false_iff_ne, List.any_eq_false] at h
  refine ⟨h.1, fun child hMem hLt => ?_⟩
  have := h.2 child hMem
  simpa [hLt] using this

/-- A completed item over a span of length `ℓ` stands for a tree of height at
most `rules * (ℓ + 1)`; less if some rules are known not to occur below it over
the same span. -/
theorem unfold_mem_of_complete {task : Task α} {c : Chart}
    (h : c.Sound task) (b : Nat) :
    ∀ (e : Item) (used : List Nat), c.items[b]? = some e →
      task.next? e = none → used.Nodup → (∀ r ∈ used, r < task.rules.size) →
      (∀ r ∈ used, repeats c.items r e.start e.state b = false) →
      unfold c.items b ∈
        unfoldings task.rules.size task.width task.input.size
          (task.rules.size * (e.state - e.start) +
            (task.rules.size - used.length)) := by
  induction b using Nat.strongRecOn with
  | _ b ih =>
    intro e used hItem hDone hNodup hRange hFree
    have hKey := h.key hItem
    have hStartLe : e.start ≤ e.state := hKey.start_le
    have hStateLe : e.state ≤ task.input.size := hKey.state_le
    -- the rule of the item is one that has not been used
    have hFresh : e.rule ∉ used := fun hMem =>
      (repeats_of_getElem? hItem (hFree e.rule hMem)).1 rfl
    have hRuleLt : e.rule < task.rules.size := hKey.rule_lt
    have hNodup' : (e.rule :: used).Nodup := List.nodup_cons.2 ⟨hFresh, hNodup⟩
    have hRange' : ∀ r ∈ e.rule :: used, r < task.rules.size := by
      intro r hr
      rcases List.mem_cons.1 hr with rfl | hr
      · exact hRuleLt
      · exact hRange r hr
    have hCount : used.length + 1 ≤ task.rules.size := by
      simpa using length_le_of_nodup hNodup' hRange'
    -- every item below stands for a tree of height one less
    have hBelow : ∀ child ∈ e.back, unfold c.items child ∈
        unfoldings task.rules.size task.width task.input.size
          (task.rules.size * (e.state - e.start) +
            (task.rules.size - (used.length + 1))) := by
      intro child hMem
      obtain ⟨d, hd, hNext, hFrom, hTo⟩ := (hKey.child child hMem).exists_item
      have hFrom : e.start ≤ d.start := hFrom
      have hTo : d.state ≤ e.state := hTo
      have hChildLt := h.back_lt hItem child hMem
      have hSpan : d.start ≤ d.state := (h.key hd).start_le
      by_cases hSame : d.start = e.start ∧ d.state = e.state
      · have hRec := ih child hChildLt d (e.rule :: used) hd hNext hNodup'
          hRange' fun r hr => by
            rw [hSame.1, hSame.2]
            rcases List.mem_cons.1 hr with rfl | hr
            · exact hKey.acyclic hDone child hMem
            · exact (repeats_of_getElem? hItem (hFree r hr)).2 child hMem
                hChildLt
        rw [hSame.1, hSame.2] at hRec
        exact hRec
      · have hRec := ih child hChildLt d [] hd hNext List.nodup_nil
          (by simp) (by simp)
        apply unfoldings_mono _ hRec
        have hShorter : d.state - d.start + 1 ≤ e.state - e.start := by
          omega
        have hMul := Nat.mul_le_mul_left task.rules.size hShorter
        rw [Nat.mul_add] at hMul
        simp only [List.length_nil]
        omega
    have hHeight : task.rules.size * (e.state - e.start) +
          (task.rules.size - used.length) =
        task.rules.size * (e.state - e.start) +
          (task.rules.size - (used.length + 1)) + 1 := by
      omega
    rw [unfold_of_getElem? hItem (h.back_lt hItem), hHeight]
    have hDot : e.dot ≤ (task.rhs e.rule).length := hKey.dot_le
    have hWidth := task.length_rhs_le e.rule
    have hBackLe : e.back.length ≤ e.dot := hKey.back_length
    apply mem_unfoldings_succ hRuleLt
    · omega
    · omega
    · exact hStateLe
    · rw [List.length_map]
      omega
    · intro u hu
      obtain ⟨child, hMem, rfl⟩ := List.mem_map.1 hu
      exact hBelow child hMem

/-- No item of a chart stands for a tree that is higher than this. -/
def Task.maxHeight (task : Task α) : Nat :=
  task.rules.size * task.input.size + task.rules.size

/-- The trees that the items of a chart can stand for. -/
def Task.candidates (task : Task α) : List Unfolding :=
  unfoldings task.rules.size task.width task.input.size (task.maxHeight + 1)

theorem unfold_mem_candidates {task : Task α} {c : Chart}
    (h : c.Sound task) {b : Nat} (hb : b < c.items.size) :
    unfold c.items b ∈ task.candidates := by
  have hItem := Array.getElem?_eq_getElem hb
  generalize c.items[b] = e at hItem
  have hKey := h.key hItem
  have hStartLe : e.start ≤ e.state := hKey.start_le
  have hStateLe : e.state ≤ task.input.size := hKey.state_le
  have hDot : e.dot ≤ (task.rhs e.rule).length := hKey.dot_le
  have hBackLe : e.back.length ≤ e.dot := hKey.back_length
  have hWidth := task.length_rhs_le e.rule
  rw [unfold_of_getElem? hItem (h.back_lt hItem)]
  apply mem_unfoldings_succ hKey.rule_lt
  · omega
  · omega
  · exact hStateLe
  · rw [List.length_map]
    omega
  · intro u hu
    obtain ⟨child, hMem, rfl⟩ := List.mem_map.1 hu
    obtain ⟨d, hd, hNext, _, hTo⟩ := (hKey.child child hMem).exists_item
    have hTo : d.state ≤ e.state := hTo
    have hSpan : d.state - d.start ≤ task.input.size := by omega
    have hMem := unfold_mem_of_complete h child d [] hd hNext List.nodup_nil
      (by simp) (by simp)
    apply unfoldings_mono _ hMem
    have hMul := Nat.mul_le_mul_left task.rules.size hSpan
    simp only [List.length_nil, Task.maxHeight]
    omega

/-! ## The bound -/

/-- How many items a chart can have. -/
def Task.itemBound (task : Task α) : Nat := task.candidates.length

/-- A chart has no more items than there are trees for them to stand for. -/
theorem Chart.Sound.size_le {task : Task α}
    {c : Chart} (h : c.Sound task) : c.items.size ≤ task.itemBound := by
  have hNodup : ((List.range c.items.size).map (unfold c.items)).Nodup := by
    unfold List.Nodup
    rw [List.pairwise_map]
    apply List.Pairwise.imp_of_mem _ (List.nodup_range (n := c.items.size))
    intro i j hi hj hNe hEq
    exact hNe (unfold_injective h (List.mem_range.1 hi) (List.mem_range.1 hj)
      hEq)
  have hSubset : (List.range c.items.size).map (unfold c.items) ⊆
      task.candidates := by
    intro u hu
    obtain ⟨b, hb, rfl⟩ := List.mem_map.1 hu
    exact unfold_mem_candidates h (List.mem_range.1 hb)
  simpa [Task.itemBound] using hNodup.length_le_of_subset hSubset

/-- Each step of the agenda begins a later state or moves on within a state
whose items are bounded in number. -/
theorem Agenda.step_decreases {task : Task α} {a b : Agenda}
    (h : a.Reachable task) (hStep : a.step task = some b) :
    Prod.Lex (· < ·) (· < ·)
      (task.input.size + 1 - b.state, task.itemBound - b.position)
      (task.input.size + 1 - a.state, task.itemBound - a.position) := by
  have hSound := h.sound
  obtain ⟨hState, ⟨e, hNext, rfl⟩ | ⟨_, rfl⟩⟩ := Agenda.step_eq_some hStep
  · have hPosition := (Agenda.next?_eq_some hSound hNext).2
    have hIds := hSound.size_ids a.state
    have hBound := hSound.size_le
    apply Prod.Lex.right
    show task.itemBound - (a.position + 1) < task.itemBound - a.position
    omega
  · apply Prod.Lex.left
    show task.input.size + 1 - (a.state + 1) < task.input.size + 1 - a.state
    omega

end StochasticGrammar.Earley
