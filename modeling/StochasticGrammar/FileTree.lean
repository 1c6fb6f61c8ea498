import StochasticGrammar.Text.PathName

/-!
# File trees

The files that a program can reach, as a value: each has its place below a
common folder, which is the sequence of the names that lead to it. A program
that opens files can then be run on files that are given.

A name is followed step by step, and every step but the last has to lead to a
folder. Above the common folder there is nothing that could be opened.

Main results: a file that is added is found at its place and changes no other
(`bytesAt?_add`, `bytesAt?_add_of_ne`), and a file that is written is found by
its name (`bytes?_of_write`).
-/

namespace StochasticGrammar

/-- A place below the common folder. -/
abbrev Place := List String

/-- Files and folders. -/
structure FileTree where
  /-- The files with their contents. -/
  files : List (Place × ByteArray)
  /-- The folders. -/
  folders : List Place

namespace FileTree

/-- Why a file cannot be opened or made. -/
inductive Fault where
  /-- No file can have the name. -/
  | invalidName
  /-- The name is too long. -/
  | overlong
  /-- There is nothing with the name. -/
  | missing
  /-- A file stands where the name needs a folder. -/
  | notFolder
  /-- A folder stands where the name needs a file. -/
  | isFolder
  /-- A file stands where a folder is to be made. -/
  | occupied
  deriving DecidableEq, Repr

/-- There is only the common folder. -/
def empty : FileTree := ⟨[], [[]]⟩

/-- The contents of the file at a place. -/
def bytesAt? (t : FileTree) (p : Place) : Option ByteArray := t.files.lookup p

/-- Adds a file; an older one at the same place is gone. -/
def add (t : FileTree) (p : Place) (bytes : ByteArray) : FileTree :=
  { t with files := (p, bytes) :: t.files.filter (·.1 != p) }

/-- Adds a folder. -/
def addFolder (t : FileTree) (p : Place) : FileTree :=
  if t.folders.contains p then t else { t with folders := t.folders ++ [p] }

/-- A file that is added is found at its place. -/
theorem bytesAt?_add (t : FileTree) (p : Place) (bytes : ByteArray) :
    (t.add p bytes).bytesAt? p = some bytes := by
  simp [bytesAt?, add]

/-- What is at other places stays when a file is added. -/
theorem bytesAt?_add_of_ne (t : FileTree) {p q : Place} (bytes : ByteArray)
    (h : q ≠ p) : (t.add p bytes).bytesAt? q = t.bytesAt? q := by
  have hKept : ∀ files : List (Place × ByteArray),
      (files.filter (·.1 != p)).lookup q = files.lookup q := by
    intro files
    induction files with
    | nil => rfl
    | cons file files ih =>
      obtain ⟨r, b⟩ := file
      by_cases hr : r = p
      · subst hr
        simp [List.lookup_cons, beq_false_of_ne h, ih]
      · simp [List.lookup_cons, hr, ih]
  simp [bytesAt?, add, List.lookup_cons, beq_false_of_ne h, hKept]

/-! ## Names -/

/-- The names of a path between its slashes. -/
def steps (name : String) : List String :=
  (Text.pathParts name.toList).map String.ofList

/-- Where a step leads to from a place. -/
def enter (t : FileTree) (here : Place) (step : String) :
    Except Fault Place :=
  if (t.bytesAt? here).isSome then .error .notFolder
  else if !t.folders.contains here then .error .missing
  else if step = "" ∨ step = "." then .ok here
  else if step = ".." then
    if here.isEmpty then .error .missing else .ok here.dropLast
  else .ok (here ++ [step])

/-- A step leads to the same place when a file is added that is no folder. -/
theorem enter_add {t : FileTree} {p here next : Place} {step : String}
    (bytes : ByteArray) (hp : p ∉ t.folders)
    (h : t.enter here step = .ok next) :
    (t.add p bytes).enter here step = .ok next := by
  by_cases hFolder : here ∈ t.folders
  · have hNe : here ≠ p := fun hEq => hp (hEq ▸ hFolder)
    rw [← h]
    unfold enter
    rw [bytesAt?_add_of_ne t bytes hNe]
    rfl
  · unfold enter at h
    simp [hFolder] at h
    split at h <;> simp at h

/-- The lengths in bytes that a name and each of its steps may have. -/
def maxLengths : Nat × Nat := (4095, 255)

/-- Whether a name is too long. -/
def isOverlong (name : String) : Bool :=
  maxLengths.1 < name.utf8ByteSize ||
    (steps name).any (maxLengths.2 < ·.utf8ByteSize)

/-- The place that a name leads to. -/
def locate (t : FileTree) (name : String) : Except Fault Place :=
  if !Text.isFileName name.toList then .error .invalidName
  else if isOverlong name then .error .overlong
  else if name.startsWith "/" then .error .missing
  else (steps name).foldlM t.enter []

/-- The contents of the file with a name. -/
def bytes? (t : FileTree) (name : String) : Option ByteArray :=
  (t.locate name).toOption.bind t.bytesAt?

/-! ## Changes -/

/-- Writes a file at a place that is no folder. -/
def put (t : FileTree) (p : Place) (bytes : ByteArray) :
    Except Fault FileTree :=
  if t.folders.contains p then .error .isFolder else .ok (t.add p bytes)

/-- Writes a file whose folder exists. -/
def write (t : FileTree) (name : String) (bytes : ByteArray) :
    Except Fault FileTree := do
  t.put (← t.locate name) bytes

/-- A file that is written is found by its name. -/
theorem bytes?_of_write {t written : FileTree} {name : String}
    {bytes : ByteArray} (h : t.write name bytes = .ok written) :
    written.bytes? name = some bytes := by
  unfold write at h
  cases hPlace : t.locate name with
  | error fault => simp [hPlace, bind, Except.bind] at h
  | ok p =>
    simp only [hPlace, bind, Except.bind, put] at h
    split at h
    · simp at h
    · rename_i hFolder
      have hp : p ∉ t.folders := by simpa using hFolder
      have hSteps : ∀ (steps : List String) (here : Place),
          steps.foldlM t.enter here = .ok p →
            steps.foldlM (t.add p bytes).enter here = .ok p := by
        intro steps
        induction steps with
        | nil => exact fun _ h => h
        | cons step steps ih =>
          intro here hAll
          rw [List.foldlM_cons] at hAll ⊢
          cases hNext : t.enter here step with
          | error fault => simp [hNext, bind, Except.bind] at hAll
          | ok next =>
            rw [enter_add bytes hp hNext]
            rw [hNext] at hAll
            exact ih next hAll
      have hAgain : (t.add p bytes).locate name = .ok p := by
        unfold locate at hPlace ⊢
        split at hPlace
        · simp at hPlace
        · split at hPlace
          · simp at hPlace
          · split at hPlace
            · simp at hPlace
            · simp_all
      injection h with h
      subst h
      simp [bytes?, hAgain, Except.toOption, bytesAt?_add]

/-- Makes the folders along a sequence of steps. -/
def makeFolders (t : FileTree) (here : Place) :
    List String → Except Fault (FileTree × Place)
  | [] => .ok (t, here)
  | step :: rest => do
    let next ← t.enter here step
    if (t.bytesAt? next).isSome then .error .occupied
    else (t.addFolder next).makeFolders next rest

/-- Makes a folder and those above it. -/
def makeFolder (t : FileTree) (name : String) : Except Fault FileTree :=
  if !Text.isFileName name.toList then .error .invalidName
  else (t.makeFolders [] (steps name)).map (·.1)

/-- Makes a file and the folders above it. -/
def makeFile (t : FileTree) (name : String) (bytes : ByteArray) :
    Except Fault FileTree :=
  if !Text.isFileName name.toList then .error .invalidName
  else if isOverlong name then .error .overlong
  else do
    let (t, here) ← t.makeFolders [] (steps name).dropLast
    t.put (← t.enter here ((steps name).getLastD "")) bytes

/-! ## Folders -/

/-- What the name of a folder stands for if nothing is looked up: how many
steps above the common folder, and the way down from there. -/
def folderPlace (name : String) : Nat × Place :=
  (steps name).foldl
    (fun (above, here) step =>
      if step = "" ∨ step = "." then (above, here)
      else if step ≠ ".." then (above, here ++ [step])
      else if here.isEmpty then (above + 1, here)
      else (above, here.dropLast))
    (if name.startsWith "/" then 1 else 0, [])

/-- The names of what is in a folder. -/
def namesIn (t : FileTree) (p : Place) : List String :=
  ((t.files.map (·.1) ++ t.folders).filterMap fun q =>
    if q ≠ [] ∧ q.dropLast = p then q.getLast? else none).eraseDups

/-- The names of what is in the folder with a name, if there is one. The
folders above the common one are there, but nothing in them is known. -/
def list (t : FileTree) (name : String) : Except Fault (List String) :=
  if !Text.isFileName name.toList then .error .invalidName
  else
    match folderPlace name with
    | (0, p) =>
      if t.folders.contains p then .ok (t.namesIn p) else .error .missing
    | (_, []) => .ok []
    | _ => .error .missing

end FileTree

end StochasticGrammar
