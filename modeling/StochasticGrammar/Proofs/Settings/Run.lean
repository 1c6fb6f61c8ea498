import StochasticGrammar.Proofs.Settings.Assignment

/-!
# Reading a configuration

The lines of a configuration take effect one after another, up to the first
that is faulty.  Whether a line is faulty depends on the lines before it only in
whether one of them begins the section.

Main results: a configuration without a faulty line is read, and each parameter
has the value that was assigned to it last; a configuration with one is an
error at the first such line, and the parameters have the values that were
assigned last before it (`Settings.read_lines`).
-/

namespace StochasticGrammar

/-! ## Runs over lines -/

/-- Whether a line begins the section. -/
def sectionBegun (lines : List ConfigLine) : Bool :=
  lines.any fun line => Statement.ofLine line.text == .heading sectionTitle

/-- The line at a place is faulty. -/
def FaultyAt (begun : Bool) (lines : List ConfigLine) (ix : Nat)
    (cause : ConfigError.Cause) : Prop :=
  ∃ line, lines[ix]? = some line ∧
    Faulty (begun || sectionBegun (lines.take ix)) line.text cause

/-- The line at a place is the first that is faulty. -/
structure FirstFaulty (begun : Bool) (lines : List ConfigLine) (ix : Nat)
    (cause : ConfigError.Cause) : Prop where
  faulty : FaultyAt begun lines ix cause
  before : ∀ j < ix, ∀ other, ¬ FaultyAt begun lines j other

/-- The value of a parameter after lines: the one that was assigned last, or
the one that it had before if none was assigned. -/
inductive LastValue (p : Parameter) (old : SettingValue)
    (lines : List ConfigLine) : SettingValue → Prop
  | kept : (∀ line ∈ lines, ∀ x, ¬ Assigns line.text p x) →
      LastValue p old lines old
  | assigned {before after : List ConfigLine} {line : ConfigLine}
      {x : SettingValue} :
      lines = before ++ line :: after → Assigns line.text p x →
      (∀ later ∈ after, ∀ y, ¬ Assigns later.text p y) →
      LastValue p old lines x

theorem faultyAt_zero {begun : Bool} {line : ConfigLine}
    {rest : List ConfigLine} {cause : ConfigError.Cause} :
    FaultyAt begun (line :: rest) 0 cause ↔ Faulty begun line.text cause := by
  simp [FaultyAt, sectionBegun]

theorem faultyAt_succ {begun : Bool} {line : ConfigLine}
    {rest : List ConfigLine} {ix : Nat} {cause : ConfigError.Cause} :
    FaultyAt begun (line :: rest) (ix + 1) cause ↔
      FaultyAt (begun || Statement.ofLine line.text == .heading sectionTitle)
        rest ix cause := by
  simp [FaultyAt, sectionBegun, Bool.or_assoc]

/-- A line in front: what the rest assigns last counts. -/
theorem LastValue.cons {p : Parameter} {old new last : SettingValue}
    {line : ConfigLine} {rest : List ConfigLine}
    (h : LastValue p new rest last)
    (hAssigned : ∀ x, Assigns line.text p x → new = x)
    (hKept : (∀ x, ¬ Assigns line.text p x) → new = old) :
    LastValue p old (line :: rest) last := by
  cases h with
  | kept hNone =>
      by_cases hLine : ∃ x, Assigns line.text p x
      · obtain ⟨x, hx⟩ := hLine
        obtain rfl := hAssigned x hx
        exact .assigned (List.nil_append (line :: rest)).symm hx hNone
      · have hNot : ∀ x, ¬ Assigns line.text p x := fun x hx => hLine ⟨x, hx⟩
        obtain rfl := hKept hNot
        exact .kept (List.forall_mem_cons.2 ⟨hNot, hNone⟩)
  | @assigned before after found x hLines hAssigns hLater =>
      have hCons : line :: rest = (line :: before) ++ found :: after := by
        rw [hLines, List.cons_append]
      exact .assigned hCons hAssigns hLater

namespace Reading

/-- The values after lines are those assigned last. -/
def Holds (r : Reading) (lines : List ConfigLine) (t : Reading) : Prop :=
  ∀ p, LastValue p (r.settings.value p) lines (t.settings.value p)

theorem Holds.cons {r s t : Reading} {line : ConfigLine}
    {rest : List ConfigLine} (hLine : r.Applied line.text s)
    (h : s.Holds rest t) : r.Holds (line :: rest) t :=
  fun p => (h p).cons (hLine.assigned p) (hLine.kept p)

/-- Lines take effect one after another: all of them if none is faulty, and
else those before the first faulty one, which is the error. -/
theorem applyLines_cases (lines : List ConfigLine) :
    ∀ r : Reading,
      (∃ t, r.applyLines lines = (t, none) ∧
        (∀ ix cause, ¬ FaultyAt r.inSection lines ix cause) ∧
        r.Holds lines t) ∨
      ∃ t ix line cause, lines[ix]? = some line ∧
        r.applyLines lines =
          (t, some ⟨cause, some line.file, line.number⟩) ∧
        FirstFaulty r.inSection lines ix cause ∧
        r.Holds (lines.take ix) t := by
  induction lines with
  | nil =>
      intro r
      exact .inl ⟨r, rfl, by simp [FaultyAt], fun p => .kept (by simp)⟩
  | cons line rest ih =>
      intro r
      rw [applyLines]
      rcases r.apply_cases line.text with
        ⟨cause, hApply, hFaulty⟩ | ⟨s, hApply, hDone⟩
      · rw [hApply]
        exact .inr ⟨r, 0, line, cause, rfl, rfl,
          ⟨faultyAt_zero.2 hFaulty, fun j hj => absurd hj (Nat.not_lt_zero j)⟩,
          fun p => .kept (by simp)⟩
      · rw [hApply]
        -- the line is in order, so faults are those of the rest
        have hFirst : ∀ cause, ¬ FaultyAt r.inSection (line :: rest) 0 cause := by
          intro cause hFaulty
          have hError := apply_eq_error_iff.2 (faultyAt_zero.1 hFaulty)
          rw [hApply] at hError
          cases hError
        have hLater (ix : Nat) (cause : ConfigError.Cause) :
            FaultyAt r.inSection (line :: rest) (ix + 1) cause ↔
              FaultyAt s.inSection rest ix cause := by
          rw [faultyAt_succ, hDone.inSection]
        rcases ih s with ⟨t, hRun, hNone, hHolds⟩ |
          ⟨t, ix, found, cause, hGet, hRun, hFault, hHolds⟩
        · refine .inl ⟨t, hRun, fun ix cause => ?_, hHolds.cons hDone⟩
          cases ix with
          | zero => exact hFirst cause
          | succ ix => exact fun h => hNone ix cause ((hLater ix cause).1 h)
        · refine .inr ⟨t, ix + 1, found, cause, hGet, hRun,
            ⟨(hLater ix cause).2 hFault.faulty, fun j hj other => ?_⟩,
            hHolds.cons hDone⟩
          cases j with
          | zero => exact hFirst other
          | succ j =>
              exact fun h => hFault.before j (Nat.lt_of_succ_lt_succ hj) other
                ((hLater j other).1 h)

end Reading

namespace Settings

/-- A configuration has no effect on settings that are loaded.  On others, if no
line is faulty, it is read to its end: the settings are loaded, and each has the
value that was assigned to it last.  If a line is faulty, the error is at the
first such line: the settings are not loaded, and each has the value that was
assigned to it last before that line. -/
theorem read_lines (s : Settings) (c : Configuration) :
    (s.loaded = true → s.read c = (s, none)) ∧
    (s.loaded = false → c.fault? = none →
      (∀ ix cause, ¬ FaultyAt false c.lines ix cause) →
      ∃ t, s.read c = (t, none) ∧ t.loaded = true ∧
        ∀ p, LastValue p (s.value p) c.lines (t.value p)) ∧
    (s.loaded = false →
      (∃ ix cause, FaultyAt false c.lines ix cause) →
      ∃ t ix line cause, FirstFaulty false c.lines ix cause ∧
        c.lines[ix]? = some line ∧
        s.read c =
          (t, some (.error ⟨cause, some line.file, line.number⟩)) ∧
        t.loaded = false ∧
        ∀ p, LastValue p (s.value p) (c.lines.take ix) (t.value p)) := by
  refine ⟨fun hLoaded => read_of_loaded hLoaded c, fun hFresh hFault hNone => ?_,
    fun hFresh hSome => ?_⟩
  · rcases Reading.applyLines_cases c.lines ⟨s, false⟩ with
      ⟨t, hRun, -, hHolds⟩ | ⟨_, ix, _, cause, _, _, hFirst, _⟩
    · refine ⟨{ t.settings with loaded := true }, ?_, rfl, fun p => ?_⟩
      · simp [read, hFresh, hRun, hFault]
      · have hValue := hHolds p
        cases p <;> exact hValue
    · exact absurd hFirst.faulty (hNone ix cause)
  · rcases Reading.applyLines_cases c.lines ⟨s, false⟩ with
      ⟨_, _, hNone, _⟩ | ⟨t, ix, line, cause, hGet, hRun, hFirst, hHolds⟩
    · obtain ⟨ix, cause, hFaulty⟩ := hSome
      exact absurd hFaulty (hNone ix cause)
    · refine ⟨t.settings, ix, line, cause, hFirst, hGet, ?_, ?_, hHolds⟩
      · simp [read, hFresh, hRun]
      · have hSame := loaded_of_applyLines ⟨s, false⟩ c.lines
        rw [hRun] at hSame
        rw [hSame]
        exact hFresh

/-- A configuration that gives one parameter two values, and then forgets an
equals sign. -/
def hastyConfiguration : Configuration :=
  ⟨[⟨"a.conf", 1, "[ Settings ]  # begin\n".toList⟩,
    ⟨"a.conf", 2, "Solver_Max_Iterations = 50\n".toList⟩, ⟨"a.conf", 3, ['\n']⟩,
    ⟨"a.conf", 4, " solver_max_iterations=7\n".toList⟩,
    ⟨"a.conf", 5, "strict_solver\n".toList⟩,
    ⟨"a.conf", 6, "debug = true\n".toList⟩], none⟩

theorem read_lines_hasty :
    ({} : Settings).loaded = false ∧ hastyConfiguration.fault? = none ∧
      FaultyAt false hastyConfiguration.lines 4
        (.expectedAssignment "strict_solver") ∧
      ∃ t ix line cause, FirstFaulty false hastyConfiguration.lines ix cause ∧
        hastyConfiguration.lines[ix]? = some line ∧
        ({} : Settings).read hastyConfiguration =
          (t, some (.error ⟨cause, some line.file, line.number⟩)) ∧
        t.loaded = false ∧
        ∀ p, LastValue p (({} : Settings).value p)
          (hastyConfiguration.lines.take ix) (t.value p) := by
  have hLine : Statement.ofLine "strict_solver\n".toList =
      .body "strict_solver".toList := by decide +kernel
  have hBegun : sectionBegun (hastyConfiguration.lines.take 4) = true := by
    decide +kernel
  have hFaulty : FaultyAt false hastyConfiguration.lines 4
      (.expectedAssignment "strict_solver") :=
    ⟨_, rfl, .expectedAssignment hLine hBegun (by decide)⟩
  exact ⟨rfl, rfl, hFaulty,
    (read_lines {} hastyConfiguration).2.2 rfl ⟨4, _, hFaulty⟩⟩

end Settings

end StochasticGrammar
