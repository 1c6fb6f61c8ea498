import StochasticGrammar.Settings.Configuration
import StochasticGrammar.Text.LineBreak
import StochasticGrammar.Text.PathName

/-!
# Configuration files

The lines of a configuration come from a file in UTF-8 and from the files it
includes. A line that ends in a backslash is continued on the next one, and a
line that starts with `$include` and a space stands for the lines of the file
that it names, relative to the file it stands in.

Files are opened by a procedure that may have effects, so the same definition
serves a program that reads its files and a statement about files that are
given. Files that include themselves are cut off at a depth.

Main results: a file that cannot be opened is an error (`source_of_none`).
-/

namespace StochasticGrammar

/-- How deep files may include each other. -/
def maxIncludeDepth : Nat := 1000

namespace Configuration

/-- Nothing follows, but for a fault. -/
def ending (fault? : Option ConfigFault) : Configuration := ⟨[], fault?⟩

/-- A line followed by a configuration. -/
def cons (line : ConfigLine) (c : Configuration) : Configuration :=
  ⟨line :: c.lines, c.fault?⟩

/-- The lines of one configuration and then those of another, which is only
reached if there is no fault. -/
def append (c d : Configuration) : Configuration :=
  match c.fault? with
  | some _ => c
  | none => ⟨c.lines ++ d.lines, d.fault?⟩

end Configuration

/-- The text of a line that is continued on the next one. -/
def continuedText? (line : List Char) : Option (List Char) :=
  if (Text.trimRight line).getLast? = some '\\' then
    some (Text.trim line).dropLast
  else none

/-- What a line includes: the name, if there is one. -/
def includedName? (line : List Char) : Option (Option (List Char)) :=
  if "$include ".toList.isPrefixOf (Text.lower line) then
    match Text.trim (line.drop "$include".length) with
    | [] => some none
    | name => some (some name)
  else none

section Files

variable {m : Type → Type} [Monad m]

/-- The lines of a file from its rows of bytes, given how the lines of an
included file are found by its name and the number of the line that names it.
`count` rows have been read, and `pending` is what they left unfinished. -/
def configurationOfRows
    (included : List Char → Nat → m Configuration) (file : String) :
    Nat → List Char → List (List UInt8) → m Configuration
  | count, pending, [] =>
    return if pending.isEmpty then .ending none
      else .cons ⟨file, count, pending⟩ (.ending none)
  | count, pending, row :: rows =>
    match String.fromUTF8? ⟨row.toArray⟩ with
    | none => return .ending (some .encoding)
    | some text =>
      let line := text.toList
      match continuedText? line with
      | some start =>
        configurationOfRows included file (count + 1) (pending ++ start) rows
      | none => do
        let line :=
          if pending.isEmpty then line else pending ++ Text.trimLeft line
        match includedName? line with
        | none =>
          let rest ← configurationOfRows included file (count + 1) [] rows
          return .cons ⟨file, count + 1, line⟩ rest
        | some none => return .ending (some .missingName)
        | some (some name) =>
          let inner ← included name (count + 1)
          if inner.fault?.isSome then return inner
          else
            let rest ← configurationOfRows included file (count + 1) [] rows
            return inner.append rest

/-- The error for a file that cannot be opened, given the file and line that
include it if any does. -/
def unreadableFile (file : String) : Option (String × Nat) → ConfigFault
  | none => .error ⟨.unreadable file, some file, 0⟩
  | some (outer, line) => .error ⟨.unreadableInclude file, some outer, line⟩

/-- The lines of a file, up to a depth of inclusion. -/
def configurationOfFile (openFile : String → m (Option ByteArray)) :
    Nat → Option (String × Nat) → String → m Configuration
  | 0, outer, file => return .ending (some (unreadableFile file outer))
  | depth + 1, outer, file =>
    if !Text.isFileName file.toList then
      return .ending (some .invalidName)
    else do
      match ← openFile file with
      | none => return .ending (some (unreadableFile file outer))
      | some bytes =>
        let included (name : List Char) (line : Nat) : m Configuration :=
          configurationOfFile openFile depth (some (file, line))
            (String.ofList (Text.besideFile file.toList name))
        configurationOfRows included file 0 []
          (Text.byteLines bytes.data.toList)

/-- The configuration in a file. -/
def Configuration.source (openFile : String → m (Option ByteArray))
    (file : String) : m Configuration :=
  configurationOfFile openFile maxIncludeDepth none file

end Files

/-- A file that cannot be opened is an error at its beginning. -/
theorem Configuration.source_of_none {openFile : String → Id (Option ByteArray)}
    {file : String} (hName : Text.isFileName file.toList = true)
    (h : openFile file = none) :
    Configuration.source openFile file =
      .ending (some (.error ⟨.unreadable file, some file, 0⟩)) := by
  unfold Configuration.source maxIncludeDepth configurationOfFile
  simp only [hName, bind]
  rw [h]
  rfl

end StochasticGrammar
