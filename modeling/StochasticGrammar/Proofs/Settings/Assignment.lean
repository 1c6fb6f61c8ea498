import StochasticGrammar.Proofs.Text.Cutting
import StochasticGrammar.Settings.Configuration

/-!
# What a line of a configuration does

A line is faulty in one of five ways, and which one depends on the line and on
whether the section has begun.  A line that is not faulty begins the section,
gives one parameter a value, or does nothing.  The settings are looked at
through the values of their parameters.

Main results: the faults of a line are exactly its errors
(`Reading.apply_eq_error_iff`), and a line without a fault sets what it assigns
and leaves the rest (`Reading.apply_cases`).
-/

namespace StochasticGrammar

/-! ## Values of parameters -/

/-- The value of a setting. -/
inductive SettingValue where
  /-- An integer. -/
  | integer (value : Int)
  /-- A floating-point number. -/
  | real (value : Float)
  /-- A switch. -/
  | flag (value : Bool)
  /-- A word. -/
  | word (value : String)

/-- The value of a parameter. -/
def Settings.value (s : Settings) : Parameter → SettingValue
  | .solverMaxIterations => .integer s.solverMaxIterations
  | .solverMaxEvaluations => .integer s.solverMaxEvaluations
  | .solverTolerance => .real s.solverTolerance
  | .strictSolver => .flag s.strictSolver
  | .mergeDuplicateRules => .flag s.mergeDuplicateRules
  | .minRcond => .real s.minRcond
  | .logLevel => .word s.logLevel
  | .debug => .flag s.debug

/-- The value that a parameter takes from one in a configuration, unless that
cannot be read. -/
def Parameter.valueOf? (p : Parameter) (v : ConfigValue) :
    Option SettingValue :=
  match p with
  | .solverMaxIterations | .solverMaxEvaluations =>
    (v.toNumber? Text.readInt?).map .integer
  | .solverTolerance | .minRcond =>
    (v.toNumber? Decimal.readFloat?).map .real
  | .strictSolver | .mergeDuplicateRules | .debug => some (.flag v.toFlag)
  | .logLevel => some (.word v.toWord)

/-- One parameter has been given a value. -/
structure Settings.Sets (s : Settings) (p : Parameter) (x : SettingValue)
    (t : Settings) : Prop where
  value : t.value p = x
  others : ∀ q ≠ p, t.value q = s.value q

theorem Settings.assign?_eq_none_iff {s : Settings} {p : Parameter}
    {v : ConfigValue} : s.assign? p v = none ↔ p.valueOf? v = none := by
  cases p <;> simp [assign?, Parameter.valueOf?]

/-- An assignment sets the one parameter to what its value is read as. -/
theorem Settings.exists_of_assign? {s t : Settings} {p : Parameter}
    {v : ConfigValue} (h : s.assign? p v = some t) :
    ∃ x, p.valueOf? v = some x ∧ s.Sets p x t := by
  -- the other parameters are fields that the update does not name
  cases p with
  | solverMaxIterations | solverMaxEvaluations | solverTolerance | minRcond =>
      obtain ⟨y, hRead, rfl⟩ := Option.map_eq_some_iff.1 h
      refine ⟨_, congrArg (Option.map _) hRead, rfl, fun q hq => ?_⟩
      cases q <;> first | rfl | exact absurd rfl hq
  | strictSolver | mergeDuplicateRules | logLevel | debug =>
      cases h
      refine ⟨_, rfl, rfl, fun q hq => ?_⟩
      cases q <;> first | rfl | exact absurd rfl hq

/-! ## Lines -/

/-- A line assigns a value to a parameter: it is cut at its first equals sign,
the name on the left may be in any case, and the value on the right can be
read. -/
inductive Assigns (line : List Char) (p : Parameter) (x : SettingValue) : Prop
  | intro {left right : List Char} :
      Statement.ofLine line = .body (left ++ '=' :: right) → '=' ∉ left →
      Text.lower (Text.trim left) = p.name.toList →
      p.valueOf? (.ofText (Text.trim right)) = some x → Assigns line p x

/-- What is wrong with a line, given whether the section has begun. -/
inductive Faulty (begun : Bool) (line : List Char) : ConfigError.Cause → Prop
  | unknownSection {title : String} :
      Statement.ofLine line = .heading title → title ≠ sectionTitle →
      Faulty begun line (.unknownSection title)
  | noSection {text : List Char} :
      Statement.ofLine line = .body text → begun = false →
      Faulty begun line (.noSection (String.ofList text))
  | expectedAssignment {text : List Char} :
      Statement.ofLine line = .body text → begun = true → '=' ∉ text →
      Faulty begun line (.expectedAssignment (String.ofList text))
  | unknownParameter {left right : List Char} :
      Statement.ofLine line = .body (left ++ '=' :: right) → begun = true →
      '=' ∉ left →
      (∀ p : Parameter, Text.lower (Text.trim left) ≠ p.name.toList) →
      Faulty begun line
        (.unknownParameter (String.ofList (Text.lower (Text.trim left))))
  | invalidValue {left right : List Char} {p : Parameter} :
      Statement.ofLine line = .body (left ++ '=' :: right) → begun = true →
      '=' ∉ left → Text.lower (Text.trim left) = p.name.toList →
      p.valueOf? (.ofText (Text.trim right)) = none →
      Faulty begun line
        (.invalidValue p.name (String.ofList (Text.trim right)))

theorem cut_of_notMem {s : List Char} (h : '=' ∉ s) :
    s.dropWhile (· != '=') = [] := by
  rw [List.dropWhile_eq_nil_iff]
  intro c hc
  simpa using fun hEq : c = '=' => h (hEq ▸ hc)

/-- A text is cut at its first equals sign. -/
theorem cut_append {left : List Char} (h : '=' ∉ left) (right : List Char) :
    (left ++ '=' :: right).dropWhile (· != '=') = '=' :: right ∧
      (left ++ '=' :: right).takeWhile (· != '=') = left := by
  have hPlain : ∀ c ∈ left, (c != '=') = true := by
    intro c hc
    simpa using fun hEq : c = '=' => h (hEq ▸ hc)
  rw [List.dropWhile_append_of_pos hPlain, List.takeWhile_append_of_pos hPlain]
  simp

theorem Parameter.ofName?_ofList_eq_some_iff {s : List Char} {p : Parameter} :
    ofName? (String.ofList s) = some p ↔ s = p.name.toList := by
  constructor
  · intro h
    have hName := List.find?_some h
    rw [beq_iff_eq] at hName
    rw [hName, String.toList_ofList]
  · rintro rfl
    rw [String.ofList_toList, ofName?_name]

namespace Settings

variable {s t : Settings} {text left right : List Char}

theorem assignLine_of_notMem (h : '=' ∉ text) :
    s.assignLine text =
      .error (.expectedAssignment (String.ofList text)) := by
  rw [assignLine, cut_of_notMem h]

theorem assignLine_of_unknown (h : '=' ∉ left)
    (hName : ∀ p : Parameter, Text.lower (Text.trim left) ≠ p.name.toList) :
    s.assignLine (left ++ '=' :: right) =
      .error (.unknownParameter
        (String.ofList (Text.lower (Text.trim left)))) := by
  have hNone : Parameter.ofName?
      (String.ofList (Text.lower (Text.trim left))) = none := by
    rw [Option.eq_none_iff_forall_ne_some]
    intro p hSome
    exact hName p (Parameter.ofName?_ofList_eq_some_iff.1 hSome)
  rw [assignLine, (cut_append h right).1, (cut_append h right).2]
  simp only [hNone]

theorem assignLine_of_known {p : Parameter} (h : '=' ∉ left)
    (hName : Text.lower (Text.trim left) = p.name.toList) :
    s.assignLine (left ++ '=' :: right) =
      match s.assign? p (.ofText (Text.trim right)) with
      | some t => .ok t
      | none => .error
        (.invalidValue p.name (String.ofList (Text.trim right))) := by
  rw [assignLine, (cut_append h right).1, (cut_append h right).2]
  cases hRead : s.assign? p (.ofText (Text.trim right)) <;>
    simp only [hName, String.ofList_toList, Parameter.ofName?_name, hRead]

/-- An assignment has no equals sign, or a name that no parameter has, or it is
one to a parameter. -/
theorem assignLine_cases (text : List Char) :
    '=' ∉ text ∨ ∃ left right, text = left ++ '=' :: right ∧ '=' ∉ left ∧
      ((∀ p : Parameter, Text.lower (Text.trim left) ≠ p.name.toList) ∨
        ∃ p : Parameter, Text.lower (Text.trim left) = p.name.toList) := by
  by_cases h : '=' ∈ text
  · obtain ⟨left, right, rfl, hLeft⟩ := List.eq_append_cons_of_mem h
    refine .inr ⟨left, right, rfl, hLeft, ?_⟩
    by_cases hName : ∃ p : Parameter,
        Text.lower (Text.trim left) = p.name.toList
    · exact .inr hName
    · exact .inl fun p hp => hName ⟨p, hp⟩
  · exact .inl h

end Settings

namespace Reading

variable {r t : Reading} {line : List Char}

theorem apply_of_blank (h : Statement.ofLine line = .blank) :
    r.apply line = .ok r := by
  rw [apply, h]

theorem apply_of_heading {title : String}
    (h : Statement.ofLine line = .heading title) :
    r.apply line = if title = sectionTitle then .ok { r with inSection := true }
      else .error (.unknownSection title) := by
  rw [apply, h]

theorem apply_of_body {text : List Char}
    (h : Statement.ofLine line = .body text) :
    r.apply line = if r.inSection then
        (r.settings.assignLine text).map ({ r with settings := · })
      else .error (.noSection (String.ofList text)) := by
  rw [apply, h]

/-- What a line did that is not faulty: a section that has begun stays so, and
the heading begins it; what the line assigns is set, and nothing else is. -/
structure Applied (r : Reading) (line : List Char) (t : Reading) : Prop where
  inSection : t.inSection =
    (r.inSection || Statement.ofLine line == .heading sectionTitle)
  assigned : ∀ p x, Assigns line p x → t.settings.value p = x
  kept : ∀ p, (∀ x, ¬ Assigns line p x) →
    t.settings.value p = r.settings.value p

/-- A line that is not a body assigns nothing. -/
theorem not_assigns_of_ne_body
    (h : ∀ text, Statement.ofLine line ≠ .body text) (p : Parameter)
    (x : SettingValue) : ¬ Assigns line p x := by
  rintro ⟨hLine, -, -, -⟩
  exact h _ hLine

/-- A line assigns to one parameter only. -/
theorem assigns_iff {left right : List Char} {p q : Parameter}
    {x : SettingValue}
    (hLine : Statement.ofLine line = .body (left ++ '=' :: right))
    (hLeft : '=' ∉ left)
    (hName : Text.lower (Text.trim left) = p.name.toList) :
    Assigns line q x ↔
      q = p ∧ p.valueOf? (.ofText (Text.trim right)) = some x := by
  constructor
  · rintro ⟨hOther, hNot, hQ, hValue⟩
    rw [hLine, Statement.body.injEq] at hOther
    have hCut := cut_append hLeft right
    rw [hOther, (cut_append hNot _).1, (cut_append hNot _).2] at hCut
    obtain ⟨hRight, rfl⟩ := hCut
    obtain rfl := (List.cons.inj hRight).2
    have hFound := Parameter.ofName?_ofList_eq_some_iff.2 hQ
    rw [Parameter.ofName?_ofList_eq_some_iff.2 hName, Option.some.injEq]
      at hFound
    obtain rfl := hFound
    exact ⟨rfl, hValue⟩
  · rintro ⟨rfl, hValue⟩
    exact ⟨hLine, hLeft, hName, hValue⟩

/-- A line does what it says, or is faulty. -/
theorem apply_cases (r : Reading) (line : List Char) :
    (∃ cause, r.apply line = .error cause ∧ Faulty r.inSection line cause) ∨
      ∃ t, r.apply line = .ok t ∧ r.Applied line t := by
  cases hLine : Statement.ofLine line with
  | blank =>
      have hNone : ∀ p x, ¬ Assigns line p x :=
        not_assigns_of_ne_body (by simp [hLine])
      exact .inr ⟨r, apply_of_blank hLine, by simp [hLine],
        fun p x hx => absurd hx (hNone p x), fun _ _ => rfl⟩
  | heading title =>
      have hNone : ∀ p x, ¬ Assigns line p x :=
        not_assigns_of_ne_body (by simp [hLine])
      rw [apply_of_heading hLine]
      by_cases hTitle : title = sectionTitle
      · rw [if_pos hTitle]
        exact .inr ⟨_, rfl, by simp [hLine, hTitle],
          fun p x hx => absurd hx (hNone p x), fun _ _ => rfl⟩
      · rw [if_neg hTitle]
        exact .inl ⟨_, rfl, .unknownSection hLine hTitle⟩
  | body text =>
      rw [apply_of_body hLine]
      by_cases hBegun : r.inSection = true
      case neg =>
        rw [if_neg hBegun]
        exact .inl ⟨_, rfl, .noSection hLine (by simpa using hBegun)⟩
      rw [if_pos hBegun]
      rcases Settings.assignLine_cases text with
        hNot | ⟨left, right, rfl, hLeft, hName | ⟨p, hName⟩⟩
      · rw [Settings.assignLine_of_notMem hNot]
        exact .inl ⟨_, rfl, .expectedAssignment hLine hBegun hNot⟩
      · rw [Settings.assignLine_of_unknown hLeft hName]
        exact .inl ⟨_, rfl, .unknownParameter hLine hBegun hLeft hName⟩
      · rw [Settings.assignLine_of_known hLeft hName]
        cases hAssign : r.settings.assign? p (.ofText (Text.trim right)) with
        | none =>
            have hValue := Settings.assign?_eq_none_iff.1 hAssign
            exact .inl ⟨_, rfl,
              .invalidValue hLine hBegun hLeft hName hValue⟩
        | some s =>
            obtain ⟨x, hValue, hSets⟩ := Settings.exists_of_assign? hAssign
            refine .inr ⟨_, rfl, by simp [hLine, hBegun], fun q y hy => ?_,
              fun q hq => hSets.others q fun hEq => ?_⟩
            · obtain ⟨rfl, hRead⟩ := (assigns_iff hLine hLeft hName).1 hy
              rw [hSets.value]
              exact Option.some.inj (hValue.symm.trans hRead)
            · subst hEq
              exact hq x ⟨hLine, hLeft, hName, hValue⟩

/-- A line is an error exactly if it is faulty. -/
theorem apply_eq_error_iff {cause : ConfigError.Cause} :
    r.apply line = .error cause ↔ Faulty r.inSection line cause := by
  constructor
  · intro h
    rcases r.apply_cases line with ⟨other, hApply, hFaulty⟩ | ⟨t, hApply, _⟩
    · rw [h, Except.error.injEq] at hApply
      exact hApply ▸ hFaulty
    · rw [h] at hApply
      cases hApply
  · rintro (⟨hLine, hTitle⟩ | ⟨hLine, hBegun⟩ | ⟨hLine, hBegun, hNot⟩ |
      ⟨hLine, hBegun, hLeft, hName⟩ | ⟨hLine, hBegun, hLeft, hName, hValue⟩)
    · rw [apply_of_heading hLine, if_neg hTitle]
    · rw [apply_of_body hLine, if_neg (by simp [hBegun])]
    · rw [apply_of_body hLine, if_pos hBegun,
        Settings.assignLine_of_notMem hNot]
      rfl
    · rw [apply_of_body hLine, if_pos hBegun,
        Settings.assignLine_of_unknown hLeft hName]
      rfl
    · rw [apply_of_body hLine, if_pos hBegun,
        Settings.assignLine_of_known hLeft hName,
        Settings.assign?_eq_none_iff.2 hValue]
      rfl

end Reading

end StochasticGrammar
