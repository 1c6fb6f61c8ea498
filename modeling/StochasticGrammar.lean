import StochasticGrammar.Text.Blank
import StochasticGrammar.Text.LineBreak
import StochasticGrammar.Text.Case
import StochasticGrammar.Text.Digit
import StochasticGrammar.Decimal.Reading
import StochasticGrammar.Decimal.Fixed
import StochasticGrammar.Alphabet.Listing
import StochasticGrammar.Grammar.File
import StochasticGrammar.Tree.Graph
import StochasticGrammar.Tree.Visit
import StochasticGrammar.Parse.Earley.Chart
import StochasticGrammar.Parse.Earley.Invariant
import StochasticGrammar.Parse.Earley.Bound
import StochasticGrammar.Parse.Derivations
import StochasticGrammar.Parse.Earley.Basic
import StochasticGrammar.Parse.Earley.Listing
import StochasticGrammar.Parse.Cyk.Basic
import StochasticGrammar.LinearAlgebra.Condition
import StochasticGrammar.LinearAlgebra.Elimination
import StochasticGrammar.NormalForm.Erasable
import StochasticGrammar.NormalForm.Split
import StochasticGrammar.Settings.Basic
import StochasticGrammar.NormalForm.Cleanup
import StochasticGrammar.NormalForm.EmptyRules
import StochasticGrammar.NormalForm.UnitRules
import StochasticGrammar.NormalForm.Conversion
import StochasticGrammar.Alphabet.Strings
import StochasticGrammar.Decimal.Display
import StochasticGrammar.Grammar.Directory
import StochasticGrammar.Settings.Environment
import StochasticGrammar.Settings.Configuration
import StochasticGrammar.Settings.Source
import StochasticGrammar.Command.Arguments
import StochasticGrammar.Command.Report
import StochasticGrammar.Command.Run
import StochasticGrammar.Command.Default
import StochasticGrammar.Main
import StochasticGrammar.Proofs.Grammar.WellFormed
import StochasticGrammar.Proofs.Parse.Listing
import StochasticGrammar.Proofs.Tree.Repetition
import StochasticGrammar.Proofs.Parse.Earley.Growth
import StochasticGrammar.Proofs.Parse.Earley.ItemTree
import StochasticGrammar.Proofs.Parse.Earley.Closure
import StochasticGrammar.Proofs.Parse.Earley.Exact
import StochasticGrammar.Proofs.Parse.Cyk.Filled
import StochasticGrammar.Proofs.Parse.Cyk.Exact
import StochasticGrammar.Proofs.Weight.Basic
import StochasticGrammar.Proofs.Weight.TreeSum
import StochasticGrammar.Proofs.NormalForm.Split
import StochasticGrammar.Proofs.NormalForm.Start
import StochasticGrammar.Proofs.NormalForm.Erasable
import StochasticGrammar.Proofs.NormalForm.EmptyRules
import StochasticGrammar.Proofs.NormalForm.UnitClosure
import StochasticGrammar.Proofs.NormalForm.UnitChains
import StochasticGrammar.Proofs.NormalForm.UnitRules
import StochasticGrammar.Proofs.NormalForm.Cleanup
import StochasticGrammar.Proofs.NormalForm.Stages
import StochasticGrammar.Proofs.Parse.Cyk.NormalForm
import StochasticGrammar.Proofs.NormalForm.Result
import StochasticGrammar.Proofs.NormalForm.Language
import StochasticGrammar.Proofs.NormalForm.Probability
import StochasticGrammar.Proofs.Grammar.Built
import StochasticGrammar.Proofs.Grammar.Reading
import StochasticGrammar.Proofs.Parse.Earley.Termination
import StochasticGrammar.Proofs.Grammar.EmptySymbol
import StochasticGrammar.Proofs.Parse.NormalForm
import StochasticGrammar.Proofs.Parse.SameLanguage
import StochasticGrammar.Proofs.Tree.Rewriting
import StochasticGrammar.Proofs.NormalForm.Layers
import StochasticGrammar.Proofs.NormalForm.Fit
import StochasticGrammar.Proofs.Parse.SameProbability
import StochasticGrammar.Proofs.Text.Integer
import StochasticGrammar.Proofs.Text.Cutting
import StochasticGrammar.Proofs.Alphabet.Listing
import StochasticGrammar.Proofs.Alphabet.FreshLabel
import StochasticGrammar.Proofs.Decimal.Shortest
import StochasticGrammar.Proofs.Grammar.IdFormat
import StochasticGrammar.Proofs.Grammar.LabelFormat
import StochasticGrammar.Proofs.NormalForm.Failure
import StochasticGrammar.Proofs.NormalForm.Shape
import StochasticGrammar.Proofs.Parse.Earley.Moments
import StochasticGrammar.Proofs.Parse.Earley.CycleSearch
import StochasticGrammar.Proofs.Parse.Earley.Viability
import StochasticGrammar.Proofs.Parse.Earley.ChartInvariant
import StochasticGrammar.Proofs.NormalForm.Nonnegative
import StochasticGrammar.Proofs.NormalForm.Repeated
import StochasticGrammar.Proofs.Alphabet.Lookup
import StochasticGrammar.Proofs.Alphabet.Table
import StochasticGrammar.Proofs.Alphabet.Session
import StochasticGrammar.Proofs.Alphabet.Tokens
import StochasticGrammar.Proofs.NormalForm.ErasureSystem
import StochasticGrammar.Proofs.NormalForm.LeastSolution
import StochasticGrammar.Proofs.NormalForm.RemoveEmpty
import StochasticGrammar.Proofs.Command.Ending
import StochasticGrammar.Proofs.NormalForm.ChainSums
import StochasticGrammar.Proofs.NormalForm.FitRun
import StochasticGrammar.Proofs.NormalForm.RemoveUnits
import StochasticGrammar.Proofs.NormalForm.SplitTrees
import StochasticGrammar.Proofs.Grammar.Comments
import StochasticGrammar.Proofs.Grammar.Layout
import StochasticGrammar.Proofs.Grammar.Refusal
import StochasticGrammar.Proofs.Parse.NodeIds
import StochasticGrammar.Proofs.Settings.Run
import StochasticGrammar.Proofs.Settings.Variables
import StochasticGrammar.Proofs.Decimal.Display
import StochasticGrammar.Proofs.Tree.Drawing
import StochasticGrammar.Proofs.NormalForm.ErasableOrder
import StochasticGrammar.Proofs.NormalForm.ClosureOrder
import StochasticGrammar.Proofs.NormalForm.UnusedRules
import StochasticGrammar.Proofs.NormalForm.WordProbability
