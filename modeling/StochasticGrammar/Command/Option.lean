import StochasticGrammar.Text.Digit

/-!
# Options of the command line

An option has names with one dash and a letter, with two dashes and a word, or
both. The word may be cut short as long as only one name begins with what is
left. A value is given by the next argument or is attached: after an equals
sign, or directly after a letter. What is attached to the letter of an option
without a value are the letters of further options.

An argument that begins with a dash and names no option is taken for one all
the same, unless it is a lone dash, looks like a negative number, or has a
space in it.

Main results: the full name of an option is understood (`recognize_name`).
-/

namespace StochasticGrammar.Command

/-- What an option sets. -/
inductive Opt where
  /-- Shows how the program is used. -/
  | help
  /-- The parser to use. -/
  | parser
  /-- Converts to normal form first. -/
  | cnf
  /-- Shows the grammar. -/
  | rules
  /-- Shows the trees as outlines. -/
  | trees
  /-- Shows the states of the parser. -/
  | states
  /-- The file to draw the trees in. -/
  | dot
  /-- The configuration file. -/
  | config
  /-- Logs everything. -/
  | verbose
  deriving DecidableEq, Repr

namespace Opt

/-- The names of the options. -/
def names : List (String × Opt) :=
  [("-h", .help), ("--help", .help), ("-p", .parser), ("--parser", .parser),
    ("--cnf", .cnf), ("-r", .rules), ("--rules", .rules), ("-t", .trees),
    ("--trees", .trees), ("--states", .states), ("-d", .dot), ("--dot", .dot),
    ("-c", .config), ("--config", .config), ("-v", .verbose),
    ("--verbose", .verbose)]

/-- Whether an option has a value. -/
def hasValue : Opt → Bool
  | .parser | .dot | .config => true
  | _ => false

/-- The option with a name. -/
def ofName? (s : List Char) : Option Opt := names.lookup (String.ofList s)

end Opt

/-! ## Arguments one by one -/

/-- What an argument looks like. -/
inductive Token where
  /-- It is not an option. -/
  | plain (text : String)
  /-- It is the two dashes after which nothing is an option. -/
  | separator
  /-- It names an option, by a letter or a word, perhaps with something
  attached. -/
  | option (opt : Opt) (letter : Bool) (attached : Option (List Char))
  /-- It looks like an option that does not exist. -/
  | unknown
  deriving DecidableEq, Repr

/-- The text before the first equals sign, and what is attached by it. -/
def splitAttached (s : List Char) : List Char × Option (List Char) :=
  match s.dropWhile (· != '=') with
  | [] => (s, none)
  | _ :: rest => (s.takeWhile (· != '='), some rest)

/-- Whether an option name is a dash and a letter. -/
def isLetterName (name : List Char) : Bool := name.tail.head? != some '-'

/-- The options that an argument may stand for when names are cut short or
values attached. It begins with a dash and has more than that. -/
def candidates (s : List Char) : List (Opt × Bool × Option (List Char)) :=
  if isLetterName s then
    (Opt.names.filter fun (name, _) => name.toList == s.take 2).map
      fun (_, opt) => (opt, true, some (s.drop 2))
  else
    let (stem, attached) := splitAttached s
    (Opt.names.filter fun (name, _) => stem.isPrefixOf name.toList).map
      fun (_, opt) => (opt, false, attached)

/-- Whether a character is a decimal digit of any script. -/
def isDigit (c : Char) : Bool := (Text.digit? c).isSome

/-- Whether all characters are digits, of which there is at least one. -/
def isDigits (s : List Char) : Bool := !s.isEmpty && s.all isDigit

/-- Whether a text is that of a negative number: digits after a dash, with a
point before the last of them. A line end may follow. -/
def isNegativeNumber (s : List Char) : Bool :=
  match s with
  | '-' :: rest =>
    let body := if rest.getLast? = some '\n' then rest.dropLast else rest
    isDigits body ||
      match body.dropWhile isDigit with
      | '.' :: fraction => isDigits fraction
      | _ => false
  | _ => false

/-- What an argument looks like; nothing if it is ambiguous. -/
def recognize (argument : String) : Option Token :=
  let s := argument.toList
  if s.head? != some '-' then some (.plain argument)
  else
    match Opt.ofName? s with
    | some opt => some (.option opt (isLetterName s) none)
    | none =>
      if s.length = 1 then some (.plain argument)
      else
        let (stem, attached) := splitAttached s
        match attached, Opt.ofName? stem with
        | some value, some opt =>
          some (.option opt (isLetterName stem) (some value))
        | _, _ =>
          match candidates s with
          | [(opt, letter, attached)] => some (.option opt letter attached)
          | _ :: _ => none
          | [] =>
            if isNegativeNumber s || s.contains ' ' then
              some (.plain argument)
            else some .unknown

/-- The full name of an option is understood. -/
theorem recognize_name {name : String} {opt : Opt}
    (h : (name, opt) ∈ Opt.names) :
    ∃ letter, recognize name = some (.option opt letter none) := by
  simp only [Opt.names, List.mem_cons, Prod.mk.injEq, List.not_mem_nil,
    or_false] at h
  rcases h with ⟨rfl, rfl⟩ | ⟨rfl, rfl⟩ | ⟨rfl, rfl⟩ | ⟨rfl, rfl⟩ |
    ⟨rfl, rfl⟩ | ⟨rfl, rfl⟩ | ⟨rfl, rfl⟩ | ⟨rfl, rfl⟩ | ⟨rfl, rfl⟩ |
    ⟨rfl, rfl⟩ | ⟨rfl, rfl⟩ | ⟨rfl, rfl⟩ | ⟨rfl, rfl⟩ | ⟨rfl, rfl⟩ |
    ⟨rfl, rfl⟩ | ⟨rfl, rfl⟩
  all_goals exact ⟨_, rfl⟩

end StochasticGrammar.Command
