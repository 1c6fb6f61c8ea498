/-!
# Grammars in a directory

The grammar files of a directory are the entries whose names end in
`.grammar`, in the order of their names; a name that starts with an underscore
is left out.

Main results: the names that are listed are those of the directory that name a
grammar (`mem_grammarNames_iff`).
-/

namespace StochasticGrammar

/-- What the names of grammar files end in. -/
def grammarSuffix : List Char := ".grammar".toList

/-- Whether a name is that of a grammar file. -/
def isGrammarName (name : String) : Bool :=
  grammarSuffix.isSuffixOf name.toList && name.toList.head? != some '_'

/-- The names of the grammar files among the entries of a directory, sorted by
the order of characters. -/
def grammarNames (entries : List String) : List String :=
  (entries.filter isGrammarName).mergeSort fun s t => decide (s ≤ t)

/-- The names that are listed are those that name a grammar file. -/
theorem mem_grammarNames_iff {entries : List String} {name : String} :
    name ∈ grammarNames entries ↔
      name ∈ entries ∧ isGrammarName name = true := by
  simp [grammarNames]

end StochasticGrammar
