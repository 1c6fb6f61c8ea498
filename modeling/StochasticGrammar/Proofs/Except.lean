/-!
# Procedures that may fail

A procedure that succeeds did so in each of its steps, and it succeeds if each
of them does.
-/

namespace StochasticGrammar

variable {ε ε' β γ δ : Type}

theorem bind_eq_ok {x : Except ε β} {f : β → Except ε γ} {c : γ} :
    (x >>= f) = .ok c ↔ ∃ b, x = .ok b ∧ f b = .ok c := by
  cases x with
  | error e => simp [bind, Except.bind]
  | ok b => simp [bind, Except.bind]

theorem map_eq_ok {x : Except ε β} {f : β → γ} {c : γ} :
    x.map f = .ok c ↔ ∃ b, x = .ok b ∧ f b = c := by
  cases x with
  | error e => simp [Except.map]
  | ok b => simp [Except.map]

theorem mapError_eq_ok {x : Except ε β} {f : ε → ε'} {b : β} :
    x.mapError f = .ok b ↔ x = .ok b := by
  cases x with
  | error e =>
    show Except.error (f e) = .ok b ↔ _
    simp
  | ok c =>
    show Except.ok c = .ok b ↔ _
    simp

/-- A procedure that fails did so in one of its steps. -/
theorem bind_eq_error {x : Except ε β} {f : β → Except ε γ} {e : ε} :
    (x >>= f) = .error e ↔ x = .error e ∨ ∃ b, x = .ok b ∧ f b = .error e := by
  cases x with
  | error e' => simp [bind, Except.bind]
  | ok b => simp [bind, Except.bind]

theorem mapError_eq_error {x : Except ε β} {f : ε → ε'} {e : ε'} :
    x.mapError f = .error e ↔ ∃ e', x = .error e' ∧ f e' = e := by
  cases x with
  | error e' =>
    show Except.error (f e') = .error e ↔ _
    simp
  | ok b =>
    show Except.ok b = .error e ↔ _
    simp

theorem map_eq_error {x : Except ε β} {f : β → γ} {e : ε} :
    x.map f = .error e ↔ x = .error e := by
  cases x with
  | error e' => simp [Except.map]
  | ok b => simp [Except.map]

theorem map_bind {x : Except ε β} {f : β → γ} {g : γ → Except ε δ} :
    (x.map f >>= g) = x >>= fun b => g (f b) := by
  cases x with
  | error e => rfl
  | ok b => rfl

/-- A change of the errors of a procedure is one of the errors of its steps. -/
theorem mapError_bind {x : Except ε β} {f : β → Except ε γ} {m : ε → ε'} :
    (x >>= f).mapError m = x.mapError m >>= fun b => (f b).mapError m := by
  cases x with
  | error e => rfl
  | ok b => rfl

/-- Two procedures with the same first step, up to a change of its result and
of its errors, agree up to the change of the errors if what follows does. -/
theorem bind_mapError {x : Except ε β} {f : β → γ} {m : ε → ε'}
    {k : β → Except ε δ} {k' : γ → Except ε' δ}
    (h : ∀ b, k' (f b) = (k b).mapError m) :
    ((x.map f).mapError m >>= k') = (x >>= k).mapError m := by
  cases x with
  | error e => rfl
  | ok b => exact h b

/-- The error that a procedure ends with, if it does. -/
def errorOf? : Except ε β → Option ε
  | .error e => some e
  | .ok _ => none

theorem errorOf?_eq_some_iff {x : Except ε β} {e : ε} :
    errorOf? x = some e ↔ x = .error e := by
  cases x <;> simp [errorOf?]

/-! ## Success -/

theorem toOption_eq_some_iff {x : Except ε β} {b : β} :
    x.toOption = some b ↔ x = .ok b := by
  cases x <;> simp [Except.toOption]

/-- A procedure succeeds if its first step does and the others do after it. -/
theorem exists_bind {x : Except ε β} {f : β → Except ε γ}
    (hx : ∃ b, x = .ok b) (hf : ∀ b, ∃ c, f b = .ok c) :
    ∃ c, (x >>= f) = .ok c := by
  obtain ⟨b, rfl⟩ := hx
  exact hf b

theorem exists_map {x : Except ε β} (f : β → γ) (hx : ∃ b, x = .ok b) :
    ∃ c, x.map f = .ok c := by
  obtain ⟨b, rfl⟩ := hx
  exact ⟨f b, rfl⟩

/-- A procedure that goes through a list succeeds if it can deal with each of
the items. -/
theorem exists_row {f : δ → Except ε β} {all : List δ → Except ε γ}
    {join : β → γ → γ} (hNil : ∃ c, all [] = .ok c)
    (hCons : ∀ d ds, all (d :: ds) = do
      let b ← f d
      let c ← all ds
      return join b c)
    {ds : List δ} (h : ∀ d ∈ ds, ∃ b, f d = .ok b) : ∃ c, all ds = .ok c := by
  induction ds with
  | nil => exact hNil
  | cons d ds ih =>
      rw [hCons]
      refine exists_bind (h d (by simp)) fun b => ?_
      exact exists_bind (ih fun x hx => h x (by simp [hx])) fun c => ⟨_, rfl⟩

theorem exists_mapM {f : δ → Except ε β} {ds : List δ}
    (h : ∀ d ∈ ds, ∃ b, f d = .ok b) : ∃ bs, ds.mapM f = .ok bs := by
  have hCons : ∀ d ds, List.mapM f (d :: ds) = do
      let b ← f d
      let bs ← ds.mapM f
      return b :: bs := fun _ _ => List.mapM_cons
  refine exists_row ?_ hCons h
  exact ⟨[], rfl⟩

/-! ## Folds -/

/-- What each step of a fold keeps holds at its end, where a step may use what
holds of the items. -/
theorem foldlM_preserves_of_mem {p : β → Prop} {f : β → γ → Except ε β}
    {cs : List γ} (hStep : ∀ c ∈ cs, ∀ {b d}, p b → f b c = .ok d → p d) :
    ∀ {b d : β}, p b → cs.foldlM f b = .ok d → p d := by
  induction cs with
  | nil =>
      intro b d hb h
      cases h
      exact hb
  | cons c cs ih =>
      intro b d hb h
      rw [List.foldlM_cons] at h
      obtain ⟨mid, hMid, h⟩ := bind_eq_ok.1 h
      exact ih (fun x hx => hStep x (by simp [hx]))
        (hStep c (by simp) hb hMid) h

/-- What each step of a fold keeps holds at its end. -/
theorem foldlM_preserves {p : β → Prop} {f : β → γ → Except ε β}
    (hStep : ∀ {b c d}, p b → f b c = .ok d → p d) {cs : List γ} {b d : β}
    (hb : p b) (h : cs.foldlM f b = .ok d) : p d :=
  foldlM_preserves_of_mem (fun _ _ => hStep) hb h

/-- A change of the errors of a fold is one of the errors of its steps. -/
theorem foldlM_mapError {m : ε → ε'} {f : β → γ → Except ε β}
    {f' : β → γ → Except ε' β} (h : ∀ b c, f' b c = (f b c).mapError m)
    (cs : List γ) : ∀ b, cs.foldlM f' b = (cs.foldlM f b).mapError m := by
  induction cs with
  | nil => exact fun b => rfl
  | cons c cs ih =>
      intro b
      rw [List.foldlM_cons, List.foldlM_cons, mapError_bind, h]
      exact congrArg _ (funext ih)

theorem mapM_mapError {m : ε → ε'} {f : β → Except ε γ}
    {f' : β → Except ε' γ} (h : ∀ b, f' b = (f b).mapError m) (bs : List β) :
    bs.mapM f' = (bs.mapM f).mapError m := by
  induction bs with
  | nil => rfl
  | cons b bs ih =>
      rw [List.mapM_cons, List.mapM_cons, mapError_bind, h]
      refine congrArg _ (funext fun c => ?_)
      rw [mapError_bind, ih]
      rfl

end StochasticGrammar
