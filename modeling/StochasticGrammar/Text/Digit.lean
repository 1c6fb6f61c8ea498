import StochasticGrammar.Text.Blank

/-!
# Digits and integers

Integers are read with the decimal digits of every script, an optional sign,
single underscores between digits and blanks around them; they are written in
ASCII with a minus sign where one is needed.

Main results: the digits of a number have that number as their value
(`digitsValue_natDigits`), and each is read as it is written
(`digit?_digitChar`).
-/

namespace StochasticGrammar.Text

/-! ## Digits -/

/-- The zeros of the scripts that have decimal digits; the other nine follow
each of them. -/
def zeroDigits : List Nat := [
  0x30, 0x660, 0x6f0, 0x7c0, 0x966, 0x9e6, 0xa66, 0xae6, 0xb66, 0xbe6,
  0xc66, 0xce6, 0xd66, 0xde6, 0xe50, 0xed0, 0xf20, 0x1040, 0x1090, 0x17e0,
  0x1810, 0x1946, 0x19d0, 0x1a80, 0x1a90, 0x1b50, 0x1bb0, 0x1c40, 0x1c50,
  0xa620, 0xa8d0, 0xa900, 0xa9d0, 0xa9f0, 0xaa50, 0xabf0, 0xff10, 0x104a0,
  0x10d30, 0x11066, 0x110f0, 0x11136, 0x111d0, 0x112f0, 0x11450, 0x114d0,
  0x11650, 0x116c0, 0x11730, 0x118e0, 0x11950, 0x11c50, 0x11d50, 0x11da0,
  0x16a60, 0x16ac0, 0x16b50, 0x1d7ce, 0x1d7d8, 0x1d7e2, 0x1d7ec, 0x1d7f6,
  0x1e140, 0x1e2f0, 0x1e950, 0x1fbf0
]

/-- The value of a decimal digit of any script. -/
def digit? (c : Char) : Option Nat :=
  (zeroDigits.find? fun first =>
    first ≤ c.toNat && c.toNat < first + 10).map
    (c.toNat - ·)

/-- Digits that may be separated by single underscores, up to the end of the
text. -/
def digitsTail? : List Char → Option (List Nat)
  | [] => some []
  | '_' :: c :: s => do
    let d ← digit? c
    let rest ← digitsTail? s
    some (d :: rest)
  | c :: s => do
    let d ← digit? c
    let rest ← digitsTail? s
    some (d :: rest)

/-- One or more digits, with single underscores allowed between two of them. -/
def digits? : List Char → Option (List Nat)
  | [] => none
  | c :: s => do
    let d ← digit? c
    let rest ← digitsTail? s
    some (d :: rest)

/-- The number that a row of decimal digits stands for. -/
def digitsValue (digits : List Nat) : Nat :=
  digits.foldl (fun value d => 10 * value + d) 0

/-! ## Reading integers -/

/-- Blanks that may stand around a number: all but the four separators that
ASCII has for files, groups, records and units. -/
def isPadding (c : Char) : Bool :=
  isBlank c && !(0x1c ≤ c.toNat && c.toNat ≤ 0x1f)

/-- The text without padding at either end. -/
def trimPadding (s : List Char) : List Char :=
  ((s.dropWhile isPadding).reverse.dropWhile isPadding).reverse

/-- Takes a sign off a number; `true` stands for a minus. -/
def takeSign : List Char → Bool × List Char
  | '-' :: s => (true, s)
  | '+' :: s => (false, s)
  | s => (false, s)

/-- How many digits an integer may be written with. -/
def maxIntegerDigits : Nat := 4300

/-- Reads an integer. -/
def readInt? (s : List Char) : Option Int := do
  let (negative, body) := takeSign (trimPadding s)
  let digits ← digits? body
  if digits.length ≤ maxIntegerDigits then
    let value : Int := digitsValue digits
    some (if negative then -value else value)
  else none

/-! ## Writing integers -/

/-- The ASCII character of a digit. -/
def digitChar (d : Nat) : Char := Char.ofNat (0x30 + d)

/-- The decimal digits of a number, most significant first. -/
def natDigits (n : Nat) : List Nat :=
  if n < 10 then [n] else natDigits (n / 10) ++ [n % 10]

/-- Writes a natural number in decimal. -/
def writeNat (n : Nat) : List Char := (natDigits n).map digitChar

/-- The least number with more digits than can be read. -/
def unreadableNumber : Nat := Nat.pow 10 maxIntegerDigits

/-- Whether an integer has no more digits than can be read. One that has is
not to be written. -/
def isWritable (i : Int) : Bool := i.natAbs < unreadableNumber

/-- Writes an integer in decimal. -/
def writeInt : Int → List Char
  | .ofNat n => writeNat n
  | .negSucc n => '-' :: writeNat (n + 1)

/-- Writes an integer in decimal, as a string. -/
def intText (i : Int) : String := String.ofList (writeInt i)

/-- Writes a natural number in decimal, as a string. -/
def natText (n : Nat) : String := String.ofList (writeNat n)

/-! ## Digits of a number -/

theorem digitsValue_append (xs : List Nat) (d : Nat) :
    digitsValue (xs ++ [d]) = 10 * digitsValue xs + d := by
  simp [digitsValue]

/-- The digits of a number stand for it. -/
theorem digitsValue_natDigits (n : Nat) : digitsValue (natDigits n) = n := by
  induction n using natDigits.induct with
  | case1 n h => rw [natDigits, if_pos h]; simp [digitsValue]
  | case2 n h ih => rw [natDigits, if_neg h, digitsValue_append, ih]; omega

/-- Every digit of a number is below ten. -/
theorem lt_ten_of_mem_natDigits {n d : Nat} (h : d ∈ natDigits n) :
    d < 10 := by
  induction n using natDigits.induct with
  | case1 n hn =>
    rw [natDigits, if_pos hn] at h
    simp at h
    omega
  | case2 n hn ih =>
    rw [natDigits, if_neg hn] at h
    rcases List.mem_append.1 h with h | h
    · exact ih h
    · simp at h
      omega

theorem digit?_digitChar {d : Nat} (h : d < 10) :
    digit? (digitChar d) = some d := by
  match d, h with
  | 0, _ | 1, _ | 2, _ | 3, _ | 4, _ | 5, _ | 6, _ | 7, _ | 8, _ | 9, _ =>
    rfl

end StochasticGrammar.Text
