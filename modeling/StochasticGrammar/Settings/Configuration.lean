import StochasticGrammar.Settings.Parameter
import StochasticGrammar.Text.Blank

/-!
# Configurations

A configuration is a sequence of lines. A line may end in a comment; what is
left of it without outer blanks is nothing, the title of a section in square
brackets, or an assignment. There is one section, and assignments stand in it.

Assignments take effect one after another, up to the first faulty line. If
there is none, the settings count as loaded, and later configurations are
ignored.

Main results: loaded settings stay as they are (`read_of_loaded`), and a fault
leaves settings that are not loaded (`loaded_of_applyLines`).
-/

namespace StochasticGrammar

/-! ## Lines -/

/-- A line with the file it comes from and its number there, counted from 1. -/
structure ConfigLine where
  /-- The file. -/
  file : String
  /-- The number. -/
  number : Nat
  /-- The text, perhaps with its line end. -/
  text : List Char
  deriving DecidableEq, Repr

/-- What a line says. -/
inductive Statement where
  /-- Nothing. -/
  | blank
  /-- A section begins. -/
  | heading (title : String)
  /-- Something else. -/
  | body (text : List Char)
  deriving DecidableEq, Repr

/-- The title in a line that is in square brackets. -/
def headingTitle? (s : List Char) : Option String :=
  match s with
  | '[' :: rest =>
    if rest.getLast? = some ']' then
      some (String.ofList (Text.lower (Text.trim rest.dropLast)))
    else none
  | _ => none

/-- What a line says without its comment. -/
def Statement.ofLine (line : List Char) : Statement :=
  let s := Text.trim (Text.stripComment line)
  if s.isEmpty then .blank
  else
    match headingTitle? s with
    | some title => .heading title
    | none => .body s

/-! ## Effects -/

/-- The settings while a configuration is read. -/
structure Reading where
  /-- The settings so far. -/
  settings : Settings
  /-- Whether the section has begun. -/
  inSection : Bool

/-- The title of the section. -/
def sectionTitle : String := "settings"

/-- The effect of a line. -/
def Reading.apply (r : Reading) (line : List Char) :
    Except ConfigError.Cause Reading :=
  match Statement.ofLine line with
  | .blank => .ok r
  | .heading title =>
    if title = sectionTitle then .ok { r with inSection := true }
    else .error (.unknownSection title)
  | .body text =>
    if r.inSection then
      (r.settings.assignLine text).map ({ r with settings := · })
    else .error (.noSection (String.ofList text))

/-- The effect of lines up to the first faulty one, and its error. -/
def Reading.applyLines (r : Reading) :
    List ConfigLine → Reading × Option ConfigError
  | [] => (r, none)
  | line :: rest =>
    match r.apply line.text with
    | .ok r => r.applyLines rest
    | .error cause => (r, some ⟨cause, some line.file, line.number⟩)

/-- Why a configuration could not be read. -/
inductive ConfigFault where
  /-- There is an error in it. -/
  | error (error : ConfigError)
  /-- Its bytes are not UTF-8. -/
  | encoding
  /-- It includes a file without naming it. -/
  | missingName
  /-- It is, or includes, what no file can be named. -/
  | invalidName
  deriving DecidableEq, Repr

/-- The lines of a configuration, and what keeps it from going on if anything
does. -/
structure Configuration where
  /-- The lines. -/
  lines : List ConfigLine
  /-- What comes after them. -/
  fault? : Option ConfigFault

namespace Settings

/-- Reads a configuration: the settings afterwards, and what went wrong. -/
def read (s : Settings) (c : Configuration) :
    Settings × Option ConfigFault :=
  if s.loaded then (s, none)
  else
    let (r, error?) := (Reading.mk s false).applyLines c.lines
    match error?.map ConfigFault.error |>.or c.fault? with
    | some fault => (r.settings, some fault)
    | none => ({ r.settings with loaded := true }, none)

/-- Loaded settings stay as they are. -/
theorem read_of_loaded {s : Settings} (h : s.loaded = true)
    (c : Configuration) : s.read c = (s, none) := by
  simp [read, h]

end Settings

/-! ## What stays unloaded -/

theorem loaded_of_assign? {s t : Settings} {p : Parameter} {v : ConfigValue}
    (h : s.assign? p v = some t) : t.loaded = s.loaded := by
  cases p <;> simp only [Settings.assign?, Option.map_eq_some_iff] at h
  all_goals
    obtain ⟨_, _, rfl⟩ := h
    rfl

theorem loaded_of_assignLine {s t : Settings} {line : List Char}
    (h : s.assignLine line = .ok t) : t.loaded = s.loaded := by
  unfold Settings.assignLine at h
  split at h
  · cases h
  · simp only at h
    split at h
    · cases h
    · split at h
      · rename_i hAssign
        cases h
        exact loaded_of_assign? hAssign
      · cases h

theorem loaded_of_apply {r t : Reading} {line : List Char}
    (h : r.apply line = .ok t) : t.settings.loaded = r.settings.loaded := by
  unfold Reading.apply at h
  split at h
  · cases h; rfl
  · split at h
    · cases h; rfl
    · cases h
  · split at h
    · cases hAssign : r.settings.assignLine _ with
      | error cause => rw [hAssign] at h; cases h
      | ok s =>
        rw [hAssign] at h
        cases h
        exact loaded_of_assignLine hAssign
    · cases h

/-- No line makes settings loaded. -/
theorem loaded_of_applyLines (r : Reading) (lines : List ConfigLine) :
    (r.applyLines lines).1.settings.loaded = r.settings.loaded := by
  induction lines generalizing r with
  | nil => rfl
  | cons line rest ih =>
    unfold Reading.applyLines
    cases hApply : r.apply line.text with
    | ok t => simpa [loaded_of_apply hApply] using ih t
    | error cause => rfl

end StochasticGrammar
