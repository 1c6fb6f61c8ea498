import StochasticGrammar.Proofs.Except
import StochasticGrammar.Proofs.Settings.Assignment
import StochasticGrammar.Proofs.Text.Numeral
import StochasticGrammar.Settings.Environment

/-!
# Variables and assignments

A setting can be given by an environment variable and by an assignment in a
configuration, and the two texts are read by different rules.  A number is read
alike: what the reader of variables skips as padding is trimmed off the
assignment, and no numeral is one of the words that assignments reserve.  A
switch is not: for a variable it is a number, off if it is zero, and for an
assignment a text, off if it is empty or a word for that.

Main results: the settings of an environment hold the value of each variable
(`Settings.value_of_ofEnvironment`); an assignment of a text that a variable
accepts is accepted, and it sets the same value unless the variable switches
something off, which the assignment switches on (`Settings.assign_agrees`).
-/

namespace StochasticGrammar

open Text

/-! ## Variables of parameters -/

/-- The environment variable of a parameter, if it has one. -/
def Parameter.variable? : Parameter → Option String
  | .solverMaxIterations => some "PCFG_SOLVER_MAX_ITERATIONS"
  | .solverMaxEvaluations => some "PCFG_SOLVER_MAX_EVALUATIONS"
  | .solverTolerance => some "PCFG_SOLVER_TOLERANCE"
  | .strictSolver => some "PCFG_STRICT_SOLVER"
  | .mergeDuplicateRules => some "PCFG_MERGE_DUPLICATE_RULES"
  | .minRcond => some "PCFG_MIN_RCOND"
  | .logLevel => some "PCFG_LOG_LEVEL"
  | .debug => none

/-- The value that an environment gives a parameter. -/
def Environment.value (env : Environment) :
    Parameter → Except ConfigError SettingValue
  | .solverMaxIterations =>
    (env.int "PCFG_SOLVER_MAX_ITERATIONS" "1000").map .integer
  | .solverMaxEvaluations =>
    (env.int "PCFG_SOLVER_MAX_EVALUATIONS" "1000").map .integer
  | .solverTolerance => (env.float "PCFG_SOLVER_TOLERANCE" "1e-9").map .real
  | .strictSolver => (env.flag "PCFG_STRICT_SOLVER" "0").map .flag
  | .mergeDuplicateRules =>
    (env.flag "PCFG_MERGE_DUPLICATE_RULES" "1").map .flag
  | .minRcond => (env.float "PCFG_MIN_RCOND" "1e-12").map .real
  | .logLevel =>
    .ok (.word (String.ofList
      (upper ((env "PCFG_LOG_LEVEL").getD "WARNING").toList)))
  | .debug => .ok (.flag false)

/-- The settings of an environment are the values that it gives the
parameters. -/
theorem Settings.value_of_ofEnvironment {env : Environment} {s : Settings}
    (h : ofEnvironment env = .ok s) (p : Parameter) :
    env.value p = .ok (s.value p) := by
  obtain ⟨iterations, hIterations, h⟩ := bind_eq_ok.1 h
  obtain ⟨evaluations, hEvaluations, h⟩ := bind_eq_ok.1 h
  obtain ⟨tolerance, hTolerance, h⟩ := bind_eq_ok.1 h
  obtain ⟨strict, hStrict, h⟩ := bind_eq_ok.1 h
  obtain ⟨merge, hMerge, h⟩ := bind_eq_ok.1 h
  obtain ⟨rcond, hRcond, h⟩ := bind_eq_ok.1 h
  cases h
  cases p with
  | solverMaxIterations => rw [Environment.value, hIterations]; rfl
  | solverMaxEvaluations => rw [Environment.value, hEvaluations]; rfl
  | solverTolerance => rw [Environment.value, hTolerance]; rfl
  | strictSolver => rw [Environment.value, hStrict]; rfl
  | mergeDuplicateRules => rw [Environment.value, hMerge]; rfl
  | minRcond => rw [Environment.value, hRcond]; rfl
  | logLevel | debug => rfl

/-! ## Texts of numbers as values -/

/-- A text whose lower case is none of the reserved words is a text. -/
theorem ConfigValue.ofText_eq_text {s : List Char}
    (h : lower s ∉ ["none".toList, "true".toList, "false".toList]) :
    ofText s = .text s := by
  simp only [List.mem_cons, List.not_mem_nil, or_false, not_or] at h
  rw [ofText, if_neg h.1, if_neg h.2.1, if_neg h.2.2]

/-- A text with a digit in it is no reserved word. -/
theorem ConfigValue.ofText_of_digit? {s : List Char} {c : Char} {d : Nat}
    (hc : c ∈ s) (h : digit? c = some d) : ofText s = .text s := by
  refine ofText_eq_text fun hWord => ?_
  have hLetters : ∀ w ∈ ["none".toList, "true".toList, "false".toList],
      w.all fun x => (digit? x).isNone := by decide
  have hNone := List.all_eq_true.1 (hLetters _ hWord) c
    (mem_lower_of_digit? h hc)
  rw [h] at hNone
  cases hNone

/-- A word for a number is no reserved word, with a sign or without. -/
theorem ConfigValue.ofText_of_numberWord {s : List Char}
    (h : (takeSign s).2.map Decimal.lowerAscii ∈ Decimal.numberWords) :
    ofText s = .text s := by
  refine ofText_eq_text ?_
  have hAscii : ∀ c ∈ (takeSign s).2, c.toNat < 128 := by
    intro c hc
    have hWords : ∀ w ∈ Decimal.numberWords, w.all (·.toNat < 128) := by
      decide
    exact Decimal.toNat_lt_of_lowerAscii (of_decide_eq_true
      (List.all_eq_true.1 (hWords _ h) _ (List.mem_map_of_mem hc)))
  have hNot : ∀ w ∈ Decimal.numberWords,
      w ∉ ["none".toList, "true".toList, "false".toList] ∧
      '-' :: w ∉ ["none".toList, "true".toList, "false".toList] ∧
      '+' :: w ∉ ["none".toList, "true".toList, "false".toList] := by
    decide
  rcases takeSign_cases s with hEq | ⟨sign, hSign, hEq⟩
  · rw [hEq, lower_of_ascii hAscii]
    exact (hNot _ h).1
  · have hAll : ∀ c ∈ sign :: (takeSign s).2, c.toNat < 128 :=
      List.forall_mem_cons.2
        ⟨by rcases hSign with rfl | rfl <;> decide, hAscii⟩
    rw [hEq, lower_of_ascii hAll]
    rcases hSign with rfl | rfl
    · exact (hNot _ h).2.1
    · exact (hNot _ h).2.2

theorem ConfigValue.ofText_of_readInt? {s : List Char} {i : Int}
    (h : readInt? s = some i) : ofText (trim s) = .text (trim s) := by
  obtain ⟨hWord, c, hc, d, hDigit⟩ := isWord_of_readInt? h
  rw [trim_eq_trimPadding hWord]
  exact ofText_of_digit? hc hDigit

theorem ConfigValue.ofText_of_readFloat? {s : List Char} {x : Float}
    (h : Decimal.readFloat? s = some x) :
    ofText (trim s) = .text (trim s) := by
  obtain ⟨hWord, hNumeral⟩ := Decimal.isNumeral_of_readFloat? h
  rw [trim_eq_trimPadding hWord]
  rcases hNumeral.digit_or_word with ⟨c, hc, d, hDigit⟩ | hWords
  · exact ofText_of_digit? (mem_of_mem_takeSign hc) hDigit
  · exact ofText_of_numberWord hWords

/-- A text that is not empty is read as it stands. -/
theorem ConfigValue.toNumber?_text {α : Type} [OfNat α 0] [OfNat α 1]
    {read? : List Char → Option α} {s : List Char} (h : s ≠ []) :
    (ConfigValue.text s).toNumber? read? = read? s := by
  cases s with
  | nil => exact absurd rfl h
  | cons c s => rfl

theorem trim_ne_nil_of_readInt? {s : List Char} {i : Int}
    (h : readInt? s = some i) : trim s ≠ [] := by
  have hWord := (isWord_of_readInt? h).1
  rw [trim_eq_trimPadding hWord]
  exact hWord.ne_nil

theorem trim_ne_nil_of_readFloat? {s : List Char} {x : Float}
    (h : Decimal.readFloat? s = some x) : trim s ≠ [] := by
  have hWord := (Decimal.isNumeral_of_readFloat? h).1
  rw [trim_eq_trimPadding hWord]
  exact hWord.ne_nil

theorem toNumber?_of_readInt? {s : List Char} {i : Int}
    (h : readInt? s = some i) :
    (ConfigValue.ofText (trim s)).toNumber? readInt? = some i := by
  rw [ConfigValue.ofText_of_readInt? h,
    ConfigValue.toNumber?_text (trim_ne_nil_of_readInt? h), readInt?_trim h]

theorem toNumber?_of_readFloat? {s : List Char} {x : Float}
    (h : Decimal.readFloat? s = some x) :
    (ConfigValue.ofText (trim s)).toNumber? Decimal.readFloat? = some x := by
  rw [ConfigValue.ofText_of_readFloat? h,
    ConfigValue.toNumber?_text (trim_ne_nil_of_readFloat? h),
    Decimal.readFloat?_trim h]

/-- A number is on, whatever it is. -/
theorem toFlag_of_readInt? {s : List Char} {i : Int}
    (h : readInt? s = some i) :
    (ConfigValue.ofText (trim s)).toFlag = true := by
  rw [ConfigValue.ofText_of_readInt? h]
  simpa [ConfigValue.toFlag] using trim_ne_nil_of_readInt? h

/-! ## Lines of assignments -/

/-- An assignment as a line. -/
def assignmentLine (p : Parameter) (text : List Char) : List Char :=
  p.name.toList ++ " = ".toList ++ text

theorem isWord_name (p : Parameter) : IsWord p.name.toList := by
  cases p <;> decide

theorem headingTitle?_assignment (p : Parameter) (s : List Char) :
    headingTitle? (p.name.toList ++ s) = none := by
  cases p <;> rfl

/-- An assignment of a text that is not blank is cut into its name and the
text. -/
theorem ofLine_assignmentLine (p : Parameter) {text : List Char}
    (hComment : '#' ∉ text) (hText : trim text ≠ []) :
    ∃ right, Statement.ofLine (assignmentLine p text) =
        .body (p.name.toList ++ [' '] ++ '=' :: right) ∧
      trim right = trim text := by
  obtain ⟨a, b, hSplit, ha, hb⟩ := exists_ends isBlank text
  change text = a ++ trim text ++ b at hSplit
  have hName := isWord_name p
  have hNameComment : '#' ∉ p.name.toList := by cases p <;> decide
  have hStrip : stripComment (assignmentLine p text) =
      assignmentLine p text := by
    refine stripComment_of_notMem ?_
    simp [assignmentLine, hNameComment, hComment]
  have hTrim : trim (assignmentLine p text) =
      p.name.toList ++ (" = ".toList ++ a) ++ trim text := by
    calc trim (assignmentLine p text)
      _ = trim (p.name.toList ++ (" = ".toList ++ a) ++ trim text ++ b) := by
          rw [assignmentLine]
          conv_lhs => rw [hSplit]
          simp only [List.append_assoc]
      _ = trim (p.name.toList ++ (" = ".toList ++ a) ++ trim text) :=
          trim_append_right hb _
      _ = p.name.toList ++ (" = ".toList ++ a) ++ trim text :=
          (hName.trimmed.append (trimmed_trim hText) _).trim_eq
  refine ⟨' ' :: a ++ trim text, ?_, ?_⟩
  · have hNe : (p.name.toList ++ (" = ".toList ++ a) ++ trim text).isEmpty =
        false := by
      simp
    simp only [Statement.ofLine, hStrip, hTrim, hNe]
    rw [List.append_assoc, headingTitle?_assignment]
    simp
  · have hBlanks : ∀ c ∈ ' ' :: a, isBlank c = true :=
      List.forall_mem_cons.2 ⟨by decide, ha⟩
    rw [trim_append_left hBlanks, trim_trim]

theorem lower_name (p : Parameter) :
    lower (trim (p.name.toList ++ [' '])) = p.name.toList := by
  have hAscii : p.name.toList.all (·.toNat < 128) := by cases p <;> decide
  have hBlank : ∀ c ∈ [' '], isBlank c = true :=
    List.forall_mem_singleton.2 (by decide)
  rw [trim_append_right hBlank, trim_of_isWord (isWord_name p),
    lower_of_ascii fun c hc => of_decide_eq_true (List.all_eq_true.1 hAscii c hc)]
  cases p <;> decide

/-- An assignment of a text that can be read sets the parameter, and nothing
else. -/
theorem Reading.exists_apply_assignmentLine {r : Reading}
    (hr : r.inSection = true) {p : Parameter} {text : List Char}
    (hComment : '#' ∉ text) (hText : trim text ≠ []) {x : SettingValue}
    (hValue : p.valueOf? (.ofText (trim text)) = some x) :
    ∃ t, r.apply (assignmentLine p text) = .ok t ∧
      r.settings.Sets p x t.settings := by
  obtain ⟨right, hLine, hRight⟩ := ofLine_assignmentLine p hComment hText
  have hLeft : '=' ∉ p.name.toList ++ [' '] := by cases p <;> decide
  rw [apply_of_body hLine, if_pos hr,
    Settings.assignLine_of_known hLeft (lower_name p), hRight]
  cases hAssign : r.settings.assign? p (.ofText (trim text)) with
  | none =>
      rw [Settings.assign?_eq_none_iff, hValue] at hAssign
      cases hAssign
  | some s =>
      obtain ⟨y, hRead, hSets⟩ := Settings.exists_of_assign? hAssign
      obtain rfl := Option.some.inj (hValue.symm.trans hRead)
      exact ⟨{ r with settings := s }, rfl, hSets⟩

/-! ## Agreement -/

/-- A variable that is set is what is read from its text. -/
theorem Environment.readVariable_eq_ok_iff {α : Type}
    {read? : List Char → Option α} {env : Environment}
    {name default v : String} {x : α} (hText : env name = some v) :
    readVariable read? env name default = .ok x ↔ read? v.toList = some x := by
  rw [readVariable, hText]
  dsimp only [Option.getD_some]
  cases hRead : read? v.toList <;> simp

/-- An assignment takes an integer as a variable does. -/
theorem Environment.toNumber?_of_int {env : Environment}
    {name default v : String} {i : Int} (hText : env name = some v)
    (h : env.int name default = .ok i) : trim v.toList ≠ [] ∧
      (ConfigValue.ofText (trim v.toList)).toNumber? readInt? = some i := by
  have hRead := (readVariable_eq_ok_iff hText).1 h
  exact ⟨trim_ne_nil_of_readInt? hRead, toNumber?_of_readInt? hRead⟩

/-- An assignment takes a floating-point number as a variable does. -/
theorem Environment.toNumber?_of_float {env : Environment}
    {name default v : String} {x : Float} (hText : env name = some v)
    (h : env.float name default = .ok x) : trim v.toList ≠ [] ∧
      (ConfigValue.ofText (trim v.toList)).toNumber? Decimal.readFloat? =
        some x := by
  have hRead := (readVariable_eq_ok_iff hText).1 h
  exact ⟨trim_ne_nil_of_readFloat? hRead, toNumber?_of_readFloat? hRead⟩

/-- An assignment turns on whatever a variable takes for a switch. -/
theorem Environment.toFlag_of_flag {env : Environment}
    {name default v : String} {b : Bool} (hText : env name = some v)
    (h : env.flag name default = .ok b) : trim v.toList ≠ [] ∧
      (ConfigValue.ofText (trim v.toList)).toFlag = true := by
  obtain ⟨i, hInt, -⟩ := map_eq_ok.1 h
  have hRead := (readVariable_eq_ok_iff hText).1 hInt
  exact ⟨trim_ne_nil_of_readInt? hRead, toFlag_of_readInt? hRead⟩

/-- What an assignment makes of the text that gives a variable a value: the same
value for a number, and on for a switch. -/
def SettingValue.assigned : SettingValue → SettingValue
  | .flag _ => .flag true
  | x => x

theorem SettingValue.assigned_eq_self_iff {x : SettingValue} :
    x.assigned = x ↔ x ≠ .flag false := by
  cases x with
  | flag b => cases b <;> simp [assigned]
  | integer i => simp [assigned]
  | real y => simp [assigned]
  | word s => simp [assigned]

/-- The text of a variable is accepted as the value of an assignment. -/
theorem Environment.valueOf?_of_value {env : Environment} {p : Parameter}
    {name v : String} {x : SettingValue} (hName : p.variable? = some name)
    (hKind : p ≠ .logLevel) (hText : env name = some v)
    (h : env.value p = .ok x) : trim v.toList ≠ [] ∧
      p.valueOf? (.ofText (trim v.toList)) = some x.assigned := by
  cases p with
  | solverMaxIterations | solverMaxEvaluations =>
      cases hName
      obtain ⟨i, hInt, rfl⟩ := map_eq_ok.1 h
      obtain ⟨hNe, hValue⟩ := toNumber?_of_int hText hInt
      exact ⟨hNe, congrArg (Option.map SettingValue.integer) hValue⟩
  | solverTolerance | minRcond =>
      cases hName
      obtain ⟨y, hFloat, rfl⟩ := map_eq_ok.1 h
      obtain ⟨hNe, hValue⟩ := toNumber?_of_float hText hFloat
      exact ⟨hNe, congrArg (Option.map SettingValue.real) hValue⟩
  | strictSolver | mergeDuplicateRules =>
      cases hName
      obtain ⟨b, hFlag, rfl⟩ := map_eq_ok.1 h
      obtain ⟨hNe, hOn⟩ := toFlag_of_flag hText hFlag
      exact ⟨hNe, congrArg (some ∘ SettingValue.flag) hOn⟩
  | logLevel => exact absurd rfl hKind
  | debug => cases hName

namespace Settings

/-- Where a variable of a number or a switch accepts a text, the line that
assigns the text to the parameter is accepted too, and it changes nothing else.
It sets the value of the variable, but for a switch that the variable turns off:
the assignment turns it on. -/
theorem assign_agrees {env : Environment} {p : Parameter} {name v : String}
    {x : SettingValue} (hName : p.variable? = some name)
    (hKind : p ≠ .logLevel) (hText : env name = some v)
    (hRead : env.value p = .ok x) (hComment : '#' ∉ v.toList) {r : Reading}
    (hr : r.inSection = true) :
    ∃ t y, r.apply (assignmentLine p v.toList) = .ok t ∧
      r.settings.Sets p y t.settings ∧ (y = x ↔ x ≠ .flag false) ∧
      (x = .flag false → y = .flag true) := by
  obtain ⟨hNe, hValue⟩ :=
    Environment.valueOf?_of_value hName hKind hText hRead
  obtain ⟨t, hApply, hSets⟩ :=
    Reading.exists_apply_assignmentLine hr hComment hNe hValue
  refine ⟨t, x.assigned, hApply, hSets, SettingValue.assigned_eq_self_iff, ?_⟩
  rintro rfl
  rfl

/-- An environment that sets one variable. -/
def onlyVariable (name value : String) : Environment :=
  fun other => if other = name then some value else none

theorem assign_agrees_minusSeven :
    Parameter.mergeDuplicateRules.variable? =
        some "PCFG_MERGE_DUPLICATE_RULES" ∧
      (onlyVariable "PCFG_MERGE_DUPLICATE_RULES" "\u00a0-٠_٧ ").value
        .mergeDuplicateRules = .ok (.flag true) ∧
      ∃ t, (Reading.mk {} true).apply
          (assignmentLine .mergeDuplicateRules "\u00a0-٠_٧ ".toList) = .ok t ∧
        t.settings.value .mergeDuplicateRules = .flag true := by
  have hText : onlyVariable "PCFG_MERGE_DUPLICATE_RULES" "\u00a0-٠_٧ "
      "PCFG_MERGE_DUPLICATE_RULES" = some "\u00a0-٠_٧ " := if_pos rfl
  have hInt : (onlyVariable "PCFG_MERGE_DUPLICATE_RULES" "\u00a0-٠_٧ ").int
      "PCFG_MERGE_DUPLICATE_RULES" "1" = .ok (-7) :=
    (Environment.readVariable_eq_ok_iff hText).2 (by decide +kernel)
  have hRead : (onlyVariable "PCFG_MERGE_DUPLICATE_RULES" "\u00a0-٠_٧ ").value
      .mergeDuplicateRules = .ok (.flag true) := by
    rw [Environment.value, Environment.flag, hInt]
    rfl
  obtain ⟨t, y, hApply, hSets, hSame, -⟩ := assign_agrees rfl (by decide)
    hText hRead (by decide) (r := .mk {} true) rfl
  refine ⟨rfl, hRead, t, hApply, ?_⟩
  rw [hSets.value, hSame.2 (by simp)]

/-- The text for off in a variable turns a switch on in an assignment. -/
theorem assign_disagrees_zero :
    (onlyVariable "PCFG_STRICT_SOLVER" "0").value .strictSolver =
        .ok (.flag false) ∧
      ∃ t, (Reading.mk {} true).apply
          (assignmentLine .strictSolver "0".toList) = .ok t ∧
        t.settings.value .strictSolver = .flag true := by
  have hComment : '#' ∉ "0".toList := by decide
  have hText : trim "0".toList ≠ [] := by decide
  have hValue : Parameter.strictSolver.valueOf? (.ofText (trim "0".toList)) =
      some (.flag true) := rfl
  obtain ⟨t, hApply, hSets⟩ := Reading.exists_apply_assignmentLine
    (r := .mk {} true) rfl hComment hText hValue
  exact ⟨rfl, t, hApply, hSets.value⟩

end Settings

end StochasticGrammar
