/-!
# Lines

Three ways of cutting a text into lines:

* `lines` cuts at every line boundary of Unicode, drops the boundary, and
  takes a carriage return with its line feed as one boundary;
* `linesKept` cuts after line feeds only and keeps them, which is how a text
  file is read line by line;
* `byteLines` does the same to bytes that have not been decoded yet.

`unifyBreaks` is applied when a text file is read: every carriage return, with
or without its line feed, becomes a line feed.

Main results: cutting after line feeds loses nothing (`flatten_linesKept`,
`flatten_byteLines`), and no line feed is left inside a line of `lines`
(`isLineBreak_of_mem_lines`).
-/

namespace StochasticGrammar.Text

/-- Characters that end a line. -/
def isLineBreak (c : Char) : Bool :=
  let code := c.toNat
  (0x0a ≤ code && code ≤ 0x0d) || (0x1c ≤ code && code ≤ 0x1e) ||
    code == 0x85 || code == 0x2028 || code == 0x2029

/-- Puts a character at the start of the first line. -/
def consLine (c : Char) : List (List Char) → List (List Char)
  | [] => [[c]]
  | line :: rest => (c :: line) :: rest

/-- The lines of a text, without their ends. A text that ends with a line break
has no empty line after it. -/
def lines : List Char → List (List Char)
  | [] => []
  | '\r' :: '\n' :: s => [] :: lines s
  | c :: s => if isLineBreak c then [] :: lines s else consLine c (lines s)

/-- The lines of a text, each with the line feed that ends it. -/
def linesKept : List Char → List (List Char)
  | [] => []
  | c :: s => if c = '\n' then [c] :: linesKept s else consLine c (linesKept s)

/-- Writes every line end as a line feed. -/
def unifyBreaks : List Char → List Char
  | [] => []
  | '\r' :: '\n' :: s => '\n' :: unifyBreaks s
  | c :: s => (if c = '\r' then '\n' else c) :: unifyBreaks s

/-- The lines of a byte sequence, each with the line feed that ends it. -/
def byteLines : List UInt8 → List (List UInt8)
  | [] => []
  | b :: s =>
    if b = 0x0a then [b] :: byteLines s
    else
      match byteLines s with
      | [] => [[b]]
      | line :: rest => (b :: line) :: rest

/-! ## What the cuts keep -/

@[simp] theorem flatten_consLine (c : Char) (rows : List (List Char)) :
    (consLine c rows).flatten = c :: rows.flatten := by
  cases rows <;> simp [consLine]

theorem flatten_linesKept (s : List Char) : (linesKept s).flatten = s := by
  induction s with
  | nil => rfl
  | cons c s ih => by_cases h : c = '\n' <;> simp [linesKept, h, ih]

theorem flatten_byteLines (s : List UInt8) : (byteLines s).flatten = s := by
  induction s with
  | nil => rfl
  | cons b s ih =>
    unfold byteLines
    split
    · simp [ih]
    · cases hRows : byteLines s with
      | nil => rw [hRows] at ih; simp at ih; simp [ih]
      | cons row rest => rw [hRows] at ih; simp at ih; simp [ih]

private theorem mem_consLine {c d : Char} {rows : List (List Char)}
    {row : List Char} (h : row ∈ consLine c rows) (hd : d ∈ row) :
    d = c ∨ ∃ r ∈ rows, d ∈ r := by
  cases rows with
  | nil => simp_all [consLine]
  | cons r rest =>
    simp only [consLine, List.mem_cons] at h
    rcases h with rfl | h
    · rcases List.mem_cons.1 hd with rfl | hd
      · exact .inl rfl
      · exact .inr ⟨r, by simp, hd⟩
    · exact .inr ⟨row, by simp [h], hd⟩

/-- A line holds no line break. -/
theorem isLineBreak_of_mem_lines {s row : List Char} {c : Char}
    (hRow : row ∈ lines s) (hc : c ∈ row) : isLineBreak c = false := by
  induction s using lines.induct generalizing row with
  | case1 => simp [lines] at hRow
  | case2 s ih =>
    simp only [lines, List.mem_cons] at hRow
    rcases hRow with rfl | hRow
    · simp at hc
    · exact ih hRow hc
  | case3 s d _ hBreak ih =>
    rw [lines, if_pos hBreak] at hRow
    · rcases List.mem_cons.1 hRow with rfl | hRow
      · simp at hc
      · exact ih hRow hc
    · assumption
  | case4 s d _ hBreak ih =>
    rw [lines, if_neg hBreak] at hRow
    · rcases mem_consLine hRow hc with rfl | ⟨r, hr, hcr⟩
      · simpa using hBreak
      · exact ih hr hcr
    · assumption

end StochasticGrammar.Text
