/-!
# File names

File names are texts with slashes between their parts and without null
characters (`isFileName`). Two things are done with them: the name of an included file is taken relative to the directory of the
file that names it (`besideFile`), and a name on the command line is brought
into a short form (`shortPath`), without doubled slashes and without parts that
stand for the same directory.

Main results: a name that starts with a slash does not depend on the directory
(`besideFile_slash`).
-/

namespace StochasticGrammar.Text

/-- Whether a text can be the name of a file: there is no null character in
it. -/
def isFileName (name : List Char) : Bool := !name.contains '\x00'

/-- The parts of a name between its slashes; empty parts are kept. -/
def pathParts : List Char → List (List Char)
  | [] => [[]]
  | c :: s =>
    if c = '/' then [] :: pathParts s
    else
      match pathParts s with
      | [] => [[c]]
      | first :: rest => (c :: first) :: rest

/-- The parts with a slash between each two of them. -/
def joinParts : List (List Char) → List Char
  | [] => []
  | [s] => s
  | s :: rest => s ++ '/' :: joinParts rest

/-- The directory part of a name: what precedes the last slash, without slashes
at its end unless there is nothing else. -/
def directoryOf (file : List Char) : List Char :=
  let head := (file.reverse.dropWhile (· != '/')).reverse
  match head.reverse.dropWhile (· == '/') with
  | [] => head
  | kept => kept.reverse

/-- A name taken relative to the directory of a file. -/
def besideFile (file name : List Char) : List Char :=
  if name.head? = some '/' then name
  else
    match directoryOf file with
    | [] => name
    | directory =>
      if directory.getLast? = some '/' then directory ++ name
      else directory ++ '/' :: name

/-- The slashes that a name starts with, in short form: two stay two, more are
one. -/
def rootOf : List Char → List Char
  | '/' :: '/' :: '/' :: _ => ['/']
  | '/' :: '/' :: _ => ['/', '/']
  | '/' :: _ => ['/']
  | _ => []

/-- A name in short form. The name of the current directory stands for an empty
one. -/
def shortPath (file : List Char) : List Char :=
  let parts := (pathParts file).filter fun part => part != [] && part != ['.']
  match rootOf file ++ joinParts parts with
  | [] => ['.']
  | short => short

/-- A name that starts with a slash does not depend on the directory. -/
theorem besideFile_slash (file name : List Char) :
    besideFile file ('/' :: name) = '/' :: name := by
  simp [besideFile]

end StochasticGrammar.Text
