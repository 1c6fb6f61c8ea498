import StochasticGrammar.Command.Default
import StochasticGrammar.Command.Report
import StochasticGrammar.FileTree

/-!
# Runs on given files

What the program does with files that are given as a tree: it opens the
configuration and the grammar there, reports, and writes the file with the
drawn trees if the run comes that far.

Main results: a run that draws nothing leaves all files as they are
(`files_run`).
-/

namespace StochasticGrammar.Command

/-- What a run leads to. -/
structure Outcome where
  /-- What is reported. -/
  report : Report
  /-- The files afterwards. -/
  files : FileTree
  /-- Why the file with the drawn trees could not be written. -/
  fault? : Option FileTree.Fault

/-- All records that are logged. -/
def Outcome.records (o : Outcome) : List LogRecord :=
  match o.fault? with
  | some _ => o.report.records
  | none => o.report.records ++ o.report.afterwards

/-- Writes what a report draws. -/
def Report.deliver (r : Report) (files : FileTree) : Outcome :=
  match r.drawn? with
  | none => ⟨r, files, none⟩
  | some d =>
    match files.write d.file d.text.toUTF8 with
    | .ok written => ⟨r, written, none⟩
    | .error fault => ⟨r, files, some fault⟩

/-- Runs the program. -/
def run (c : Conversion) (initial : Settings) (files : FileTree)
    (a : Arguments) (l : LinearAlgebra := .standard) : Outcome :=
  let config := Id.run
    (configurationFor (fun name => (pure (files.bytes? name) : Id _)) a.config)
  (report l c initial a config (files.bytes? a.grammar)).deliver files

/-- A run that draws nothing leaves all files as they are. -/
theorem files_run {c : Conversion} {initial : Settings} {files : FileTree}
    {a : Arguments} {l : LinearAlgebra}
    (h : (run c initial files a l).report.drawn? = none) :
    (run c initial files a l).files = files := by
  revert h
  simp only [run, Report.deliver]
  split
  · intro _
    rfl
  · rename_i hDrawn
    split <;> intro h <;> simp_all

end StochasticGrammar.Command
