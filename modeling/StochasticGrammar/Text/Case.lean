import StochasticGrammar.Text.CaseTable

/-!
# Changing the case of a text

Names of settings, section titles and logging levels are compared without
regard to case, and an unknown name is shown in the case it was compared in.
So the full Unicode mappings are used: one character may become several, and
a capital sigma at the end of a word becomes the final sigma.
-/

namespace StochasticGrammar.Text

/-- Whether the nearest character that a sigma does not look past has a case. -/
def meetsCased (s : List Char) : Bool :=
  match s.dropWhile (inSpans caseIgnorableSpans) with
  | [] => false
  | c :: _ => inSpans casedSpans c

/-- Lower case of the rest of a text; `before` is what precedes it, last
character first. -/
def lowerFrom (before : List Char) : List Char → List Char
  | [] => []
  | c :: s =>
    let image :=
      if c = 'Σ' then
        if meetsCased before && !meetsCased s then ['ς'] else ['σ']
      else if c = 'İ' then ['i', '\u0307']
      else [shiftCase lowerRanges c]
    image ++ lowerFrom (c :: before) s

/-- The text in lower case. -/
def lower (s : List Char) : List Char := lowerFrom [] s

/-- The upper case of one character, which may have several characters. -/
def upperChar (c : Char) : List Char :=
  match upperExpansions.lookup c.toNat with
  | some codes => codes.map Char.ofNat
  | none => [shiftCase upperRanges c]

/-- The text in upper case. -/
def upper (s : List Char) : List Char := s.flatMap upperChar

end StochasticGrammar.Text
