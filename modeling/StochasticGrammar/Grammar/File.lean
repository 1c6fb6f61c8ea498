import StochasticGrammar.Grammar.IdFormat
import StochasticGrammar.Grammar.LabelFormat
import StochasticGrammar.Text.PathName

/-!
# Grammar files

Both formats are read from files in UTF-8, whose line ends are made uniform
first. A file that cannot be opened is an error of the grammar; bytes that are
not UTF-8, and what no file can be named, are errors of their own.
-/

namespace StochasticGrammar

/-- Why a grammar file could not be read. -/
inductive FileError (α : Type) where
  /-- The file is missing, or its text is not a grammar. -/
  | grammar (error : GrammarError α)
  /-- The bytes are not UTF-8. -/
  | encoding
  /-- No file can have this name. -/
  | invalidName

/-- The text of a file, with uniform line ends. -/
def decodeText? (bytes : ByteArray) : Option (List Char) :=
  (String.fromUTF8? bytes).map fun s => Text.unifyBreaks s.toList

namespace Grammar

variable {α : Type} [NumberText α]

/-- Reads a grammar from the bytes of a file, or from no file. -/
def ofFile
    (read : List Char → Option String → Except (GrammarError α) (Grammar α))
    (file : String) (bytes : Option ByteArray) :
    Except (FileError α) (Grammar α) :=
  if !Text.isFileName file.toList then .error .invalidName
  else
    match bytes with
    | none => .error (.grammar ⟨.unreadable, some file, 0⟩)
    | some bytes =>
      match decodeText? bytes with
      | none => .error .encoding
      | some text => (read text (some file)).mapError .grammar

/-- Reads a grammar file in the format with symbol numbers. -/
def ofIdFile (file : String) (bytes : Option ByteArray) :
    Except (FileError α) (Grammar α) :=
  ofFile (fun text => ofIdText (String.ofList text)) file bytes

/-- Reads a grammar file in the format with labels. -/
def ofLabelFile (file : String) (bytes : Option ByteArray) :
    Except (FileError α) (Grammar α) :=
  ofFile
    (fun text => ofLabelLines ((Text.linesKept text).map String.ofList))
    file bytes

end Grammar

end StochasticGrammar
