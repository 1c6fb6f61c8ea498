/-!
# Blanks, words and fields

Grammar and settings files are cut into pieces by blank characters. Two ways
of cutting occur and they are not the same:

* `words` cuts at every run of blanks and never yields an empty piece;
* `splitSpaces` cuts at single spaces only, a bounded number of times, and
  keeps empty pieces.

The second one reads symbol definitions, where the remainder of the line is
a description that may itself hold spaces.

Texts are handled as lists of characters, so that every function here is
plain recursion on the text.

Main results: a word is not empty (`ne_nil_of_mem_words`) and has no blank in
it (`isBlank_of_mem_words`).
-/

namespace StochasticGrammar.Text

/-! ## Blank characters -/

/-- Characters that separate words: the ASCII blanks and separators, the next
line character and the Unicode spaces. Zero-width characters are not among
them. -/
def isBlank (c : Char) : Bool :=
  let code := c.toNat
  (0x09 ≤ code && code ≤ 0x0d) || (0x1c ≤ code && code ≤ 0x20) ||
    code == 0x85 || code == 0xa0 || code == 0x1680 ||
    (0x2000 ≤ code && code ≤ 0x200a) || code == 0x2028 || code == 0x2029 ||
    code == 0x202f || code == 0x205f || code == 0x3000

/-! ## Trimming -/

/-- The text without the blanks it starts with. -/
def trimLeft (s : List Char) : List Char := s.dropWhile isBlank

/-- The text without the blanks it ends with. -/
def trimRight (s : List Char) : List Char :=
  (s.reverse.dropWhile isBlank).reverse

/-- The text without blanks at either end. -/
def trim (s : List Char) : List Char := trimRight (trimLeft s)

/-! ## Cutting -/

/-- The maximal runs of characters that are not blank, in order. -/
def words (s : List Char) : List (List Char) :=
  match _h : trimLeft s with
  | [] => []
  | c :: rest =>
    (c :: rest.takeWhile (!isBlank ·)) :: words (rest.dropWhile (!isBlank ·))
termination_by s.length
decreasing_by
  have hTrim : rest.length + 1 ≤ s.length := by
    have := (List.dropWhile_sublist isBlank (l := s)).length_le
    rw [← trimLeft, _h] at this
    simpa using this
  have hRest := (List.dropWhile_sublist (!isBlank ·) (l := rest)).length_le
  omega

/-- Cuts at the first `n` spaces, keeping empty pieces; the last piece is the
remainder. -/
def splitSpaces : Nat → List Char → List (List Char)
  | 0, s => [s]
  | n + 1, s =>
    match s.dropWhile (· != ' ') with
    | [] => [s]
    | _ :: rest => s.takeWhile (· != ' ') :: splitSpaces n rest

/-- The text before the first comment sign. -/
def stripComment (s : List Char) : List Char := s.takeWhile (· != '#')

/-- The pieces with the separator between each two of them. -/
def join (separator : List Char) : List (List Char) → List Char
  | [] => []
  | [s] => s
  | s :: rest => s ++ separator ++ join separator rest

/-! ## Words -/

private theorem isBlank_head_trimLeft {s rest : List Char} {c : Char}
    (h : trimLeft s = c :: rest) : isBlank c = false := by
  induction s with
  | nil => simp [trimLeft] at h
  | cons d s ih =>
    unfold trimLeft at h ih
    rw [List.dropWhile_cons] at h
    split at h
    · exact ih h
    · cases h
      simp_all

/-- A word has no blank in it. -/
theorem isBlank_of_mem_words {s w : List Char} {c : Char} (hw : w ∈ words s)
    (hc : c ∈ w) : isBlank c = false := by
  induction s using words.induct with
  | case1 s h => rw [words, h] at hw; simp at hw
  | case2 s d rest h ih =>
    rw [words, h] at hw
    rcases List.mem_cons.1 hw with rfl | hw
    · rcases List.mem_cons.1 hc with rfl | hc
      · exact isBlank_head_trimLeft h
      · simpa using List.all_eq_true.1 List.all_takeWhile c hc
    · exact ih hw

/-- A word is not empty. -/
theorem ne_nil_of_mem_words {s w : List Char} (hw : w ∈ words s) :
    w ≠ [] := by
  induction s using words.induct with
  | case1 s h => rw [words, h] at hw; simp at hw
  | case2 s d rest h ih =>
    rw [words, h] at hw
    rcases List.mem_cons.1 hw with rfl | hw
    · simp
    · exact ih hw

end StochasticGrammar.Text
