import Mathlib.Data.List.DropRight
import StochasticGrammar.Proofs.Text.Integer
import StochasticGrammar.Text.LineBreak

/-!
# Cutting undoes joining

A text is written from pieces with separators between them, and cut into pieces
when it is read.  The pieces come back if none of them holds what the cut looks
for:

* words, put together with single spaces, come back as words;
* a field without a space is cut off at the space behind it, and what remains
  may hold anything;
* lines without a line break come back, each of the many line breaks counted;
* a text that neither begins nor ends with a blank survives trimming, and
  blanks put around a text do not;
* a comment put behind a text goes with the comment sign.

Every line break is a blank, so words never break a line.

Main results: `words_intercalate`, `splitSpaces_append`, `lines_intercalate`,
`trim_eq_self_iff`.
-/

namespace StochasticGrammar.Text

/-! ## Line breaks -/

/-- Characters that end a line are blank. -/
theorem isBlank_of_isLineBreak {c : Char} (h : isLineBreak c = true) :
    isBlank c = true := by
  simp only [isLineBreak, isBlank, Bool.or_eq_true, Bool.and_eq_true,
    decide_eq_true_eq, beq_iff_eq] at h ⊢
  omega

/-- A text within one line. -/
def OneLine (s : List Char) : Prop := ∀ c ∈ s, isLineBreak c = false

instance (s : List Char) : Decidable (OneLine s) :=
  List.decidableBAll (isLineBreak · = false) s

theorem IsWord.oneLine {s : List Char} (h : IsWord s) : OneLine s := by
  intro c hc
  by_contra hBreak
  have hBlank := isBlank_of_isLineBreak (by simpa using hBreak)
  rw [h.not_blank c hc] at hBlank
  cases hBlank

theorem IsWord.space_notMem {s : List Char} (h : IsWord s) : ' ' ∉ s := by
  intro hMem
  have hBlank := h.not_blank ' ' hMem
  revert hBlank
  decide

theorem OneLine.append {s t : List Char} (hs : OneLine s) (ht : OneLine t) :
    OneLine (s ++ t) := by
  intro c hc
  rcases List.mem_append.1 hc with hc | hc
  · exact hs c hc
  · exact ht c hc

theorem oneLine_intercalate {sep : List Char} (hSep : OneLine sep)
    {ws : List (List Char)} (h : ∀ w ∈ ws, OneLine w) :
    OneLine (sep.intercalate ws) := by
  induction ws with
  | nil => simp [OneLine]
  | cons w ws ih =>
      have hFirst : OneLine w := h w (by simp)
      cases ws with
      | nil => rwa [List.intercalate_singleton]
      | cons v ws =>
          rw [List.intercalate_cons_cons]
          exact (hFirst.append hSep).append (ih fun x hx => h x (by simp [hx]))

/-! ## Trimming -/

theorem trimRight_eq (s : List Char) : trimRight s = s.rdropWhile isBlank :=
  rfl

theorem trimLeft_eq_self_iff {s : List Char} :
    trimLeft s = s ↔ ∀ c ∈ s.head?, isBlank c = false := by
  cases s with
  | nil => simp [trimLeft]
  | cons c s =>
      rw [trimLeft, List.dropWhile_eq_self_iff]
      simp

theorem trimRight_eq_self_iff {s : List Char} :
    trimRight s = s ↔ ∀ c ∈ s.getLast?, isBlank c = false := by
  rw [trimRight_eq, List.rdropWhile_eq_self_iff]
  constructor
  · intro h c hc
    obtain ⟨hNe, rfl⟩ := List.mem_getLast?_eq_getLast hc
    simpa using h hNe
  · intro h hNe
    simpa using h _ (List.getLast?_eq_some_getLast hNe)

theorem getLast?_trimRight (s : List Char) :
    ∀ c ∈ (trimRight s).getLast?, isBlank c = false := by
  intro c hc
  rw [trimRight_eq] at hc
  obtain ⟨hNe, rfl⟩ := List.mem_getLast?_eq_getLast hc
  simpa using List.rdropWhile_last_not isBlank s hNe

theorem head?_trimLeft (s : List Char) :
    ∀ c ∈ (trimLeft s).head?, isBlank c = false := by
  intro c hc
  have hHead := List.head?_dropWhile_not isBlank s
  rw [trimLeft, Option.mem_def] at hc
  rw [hc] at hHead
  exact hHead

/-- What is left on the right does not begin with anything else. -/
theorem head?_trimRight {s : List Char} {c : Char}
    (hc : c ∈ (trimRight s).head?) : c ∈ s.head? := by
  rw [trimRight_eq] at hc
  obtain ⟨t, ht⟩ := List.rdropWhile_prefix isBlank s
  rw [← ht, List.head?_append]
  exact Option.mem_def.2 (by rw [Option.mem_def.1 hc]; rfl)

theorem trim_eq_self_iff {s : List Char} :
    trim s = s ↔ (∀ c ∈ s.head?, isBlank c = false) ∧
      ∀ c ∈ s.getLast?, isBlank c = false := by
  constructor
  · intro h
    rw [← h]
    constructor
    · intro c hc
      exact head?_trimLeft s c (head?_trimRight hc)
    · exact getLast?_trimRight (trimLeft s)
  · intro h
    rw [trim, trimLeft_eq_self_iff.2 h.1, trimRight_eq_self_iff.2 h.2]

/-- Trimming a second time takes nothing off. -/
theorem trim_trim (s : List Char) : trim (trim s) = trim s := by
  rw [trim_eq_self_iff]
  constructor
  · intro c hc
    exact head?_trimLeft s c (head?_trimRight hc)
  · exact getLast?_trimRight (trimLeft s)

theorem mem_of_mem_trim {s : List Char} {c : Char} (h : c ∈ trim s) :
    c ∈ s := by
  rw [trim, trimRight_eq] at h
  exact (List.dropWhile_sublist isBlank).subset
    ((List.rdropWhile_prefix isBlank (trimLeft s)).subset h)

theorem trim_of_isWord {s : List Char} (h : IsWord s) : trim s = s := by
  rw [trim_eq_self_iff]
  constructor
  · intro c hc
    exact h.not_blank c (List.mem_of_mem_head? hc)
  · intro c hc
    exact h.not_blank c (List.mem_of_mem_getLast? hc)

/-- Trimming leaves what is not blank. -/
theorem trim_ne_nil {s : List Char} {c : Char} (hc : c ∈ s)
    (h : isBlank c = false) : trim s ≠ [] := by
  intro hNil
  rw [trim, trimRight_eq, List.rdropWhile_eq_nil_iff] at hNil
  cases hLeft : trimLeft s with
  | nil =>
      have hBlank := List.dropWhile_eq_nil_iff.1 hLeft c hc
      rw [h] at hBlank
      cases hBlank
  | cons d t =>
      have hHead := head?_trimLeft s d (by simp [hLeft])
      rw [hNil d (by simp [hLeft])] at hHead
      cases hHead

/-- Blanks in front of a text do not change what trimming leaves. -/
theorem trim_append_left {b : List Char} (hb : ∀ c ∈ b, isBlank c = true)
    (s : List Char) : trim (b ++ s) = trim s := by
  rw [trim, trim, trimLeft, trimLeft, List.dropWhile_append_of_pos hb]

/-- Neither do blanks behind it. -/
theorem trim_append_right {b : List Char} (hb : ∀ c ∈ b, isBlank c = true)
    (s : List Char) : trim (s ++ b) = trim s := by
  have hRight (t : List Char) : trimRight (t ++ b) = trimRight t := by
    have hBlank : ∀ c ∈ b.reverse, isBlank c = true := by simpa using hb
    rw [trimRight, List.reverse_append, List.dropWhile_append_of_pos hBlank,
      trimRight]
  induction s with
  | nil =>
      have hTrim := trim_append_left hb []
      rwa [List.append_nil] at hTrim
  | cons c s ih =>
      by_cases hc : isBlank c = true
      · have hSkip (t : List Char) : trim (c :: t) = trim t :=
          trim_append_left (b := [c]) (by simpa using hc) t
        rw [List.cons_append, hSkip, hSkip, ih]
      · have hKeep (t : List Char) : trimLeft (c :: t) = c :: t :=
          List.dropWhile_cons_of_neg hc
        rw [trim, trim, List.cons_append, hKeep, hKeep, ← List.cons_append,
          hRight]

/-- A text that neither is empty nor begins or ends with a blank. -/
structure Trimmed (s : List Char) : Prop where
  ne_nil : s ≠ []
  trim_eq : trim s = s

/-- What is left after trimming, if anything is. -/
theorem trimmed_trim {s : List Char} (h : trim s ≠ []) : Trimmed (trim s) :=
  ⟨h, trim_trim s⟩

theorem IsWord.trimmed {s : List Char} (h : IsWord s) : Trimmed s :=
  ⟨h.ne_nil, trim_of_isWord h⟩

/-- What stands between two trimmed texts is inside. -/
theorem Trimmed.append {s t : List Char} (hs : Trimmed s) (ht : Trimmed t)
    (m : List Char) : Trimmed (s ++ m ++ t) := by
  refine ⟨by simp [hs.ne_nil], trim_eq_self_iff.2 ⟨?_, ?_⟩⟩
  · intro c hc
    rw [List.append_assoc, List.head?_append_of_ne_nil _ hs.ne_nil] at hc
    exact (trim_eq_self_iff.1 hs.trim_eq).1 c hc
  · intro c hc
    rw [List.getLast?_append_of_ne_nil _ ht.ne_nil] at hc
    exact (trim_eq_self_iff.1 ht.trim_eq).2 c hc

theorem trimmed_intercalate {sep : List Char} {ws : List (List Char)}
    (hNe : ws ≠ []) (h : ∀ w ∈ ws, Trimmed w) :
    Trimmed (sep.intercalate ws) := by
  induction ws with
  | nil => exact absurd rfl hNe
  | cons w ws ih =>
      cases ws with
      | nil =>
          rw [List.intercalate_singleton]
          exact h w (by simp)
      | cons v ws =>
          rw [List.intercalate_cons_cons]
          have hRest := ih (by simp) fun x hx => h x (by simp [hx])
          exact (h w (by simp)).append hRest sep

/-! ## Comments -/

theorem isBlank_ne_comment {c : Char} (h : isBlank c = true) : c ≠ '#' := by
  rintro rfl
  revert h
  decide

theorem stripComment_of_notMem {s : List Char} (h : '#' ∉ s) :
    stripComment s = s := by
  rw [stripComment, List.takeWhile_eq_self_iff]
  intro c hc
  simpa using fun hEq : c = '#' => h (hEq ▸ hc)

/-- A comment ends a text, whatever was written before it. -/
theorem stripComment_append_comment (s comment : List Char) :
    stripComment (s ++ '#' :: comment) = stripComment s := by
  induction s with
  | nil => rfl
  | cons c s ih =>
      by_cases hc : c = '#'
      · subst hc
        rfl
      · have hKeep (t : List Char) : stripComment (c :: t) =
            c :: stripComment t :=
          List.takeWhile_cons_of_pos (by simpa using hc)
        rw [List.cons_append, hKeep, hKeep, ih]

/-- What stands behind a comment sign is part of the comment. -/
theorem stripComment_append_of_mem {s : List Char} (h : '#' ∈ s)
    (t : List Char) : stripComment (s ++ t) = stripComment s := by
  obtain ⟨a, b, rfl⟩ := List.append_of_mem h
  rw [List.append_assoc, List.cons_append, stripComment_append_comment,
    stripComment_append_comment]

theorem comment_notMem_intercalate {ws : List (List Char)}
    (h : ∀ w ∈ ws, '#' ∉ w) : '#' ∉ [' '].intercalate ws := by
  induction ws with
  | nil => simp
  | cons w ws ih =>
      have hw : '#' ∉ w := h w (by simp)
      cases ws with
      | nil => rwa [List.intercalate_singleton]
      | cons v ws =>
          have hRest := ih fun x hx => h x (by simp [hx])
          rw [List.intercalate_cons_cons]
          simp [hw, hRest]

/-! ## Fields -/

/-- A field without spaces is cut off at the space behind it. -/
theorem splitSpaces_append {a : List Char} (h : ' ' ∉ a) (n : Nat)
    (s : List Char) :
    splitSpaces (n + 1) (a ++ ' ' :: s) = a :: splitSpaces n s := by
  have hPlain : ∀ c ∈ a, (c != ' ') = true := by
    intro c hc
    simpa using fun hEq : c = ' ' => h (hEq ▸ hc)
  have hDrop : (a ++ ' ' :: s).dropWhile (· != ' ') = ' ' :: s := by
    rw [List.dropWhile_append_of_pos hPlain]
    rfl
  have hTake : (a ++ ' ' :: s).takeWhile (· != ' ') = a := by
    rw [List.takeWhile_append_of_pos hPlain]
    simp
  rw [splitSpaces, hDrop, hTake]

theorem splitSpaces_of_notMem {a : List Char} (h : ' ' ∉ a) (n : Nat) :
    splitSpaces n a = [a] := by
  cases n with
  | zero => rfl
  | succ n =>
      have hDrop : a.dropWhile (· != ' ') = [] := by
        rw [List.dropWhile_eq_nil_iff]
        intro c hc
        simpa using fun hEq : c = ' ' => h (hEq ▸ hc)
      rw [splitSpaces, hDrop]

/-- Where a cut takes place there was a space, and none before it. -/
theorem splitSpaces_succ_cases (n : Nat) (s : List Char) :
    ' ' ∉ s ∧ splitSpaces (n + 1) s = [s] ∨
      ∃ a t, ' ' ∉ a ∧ s = a ++ ' ' :: t ∧
        splitSpaces (n + 1) s = a :: splitSpaces n t := by
  by_cases h : ' ' ∈ s
  · right
    obtain ⟨a, t, rfl, hNot⟩ := List.eq_append_cons_of_mem h
    exact ⟨a, t, hNot, rfl, splitSpaces_append hNot n t⟩
  · exact .inl ⟨h, splitSpaces_of_notMem h (n + 1)⟩

/-- There are no more fields than are asked for. -/
theorem length_splitSpaces_le (n : Nat) :
    ∀ s, (splitSpaces n s).length ≤ n + 1 := by
  induction n with
  | zero => exact fun s => Nat.le_refl 1
  | succ n ih =>
      intro s
      rcases splitSpaces_succ_cases n s with ⟨-, h⟩ | ⟨a, t, -, -, h⟩
      · rw [h, List.length_singleton]
        omega
      · rw [h, List.length_cons]
        exact Nat.succ_le_succ (ih t)

/-! ## Words -/

theorem words_nil : words [] = [] := by
  rw [words]
  rfl

theorem words_cons_of_isBlank {c : Char} (h : isBlank c = true)
    (s : List Char) : words (c :: s) = words s := by
  have hTrim : trimLeft (c :: s) = trimLeft s := by
    rw [trimLeft, List.dropWhile_cons_of_pos h, trimLeft]
  rw [words, words, hTrim]

/-- A word ends where the text ends or a blank follows. -/
theorem words_append {w : List Char} (hw : IsWord w) {s : List Char}
    (hs : ∀ c ∈ s.head?, isBlank c = true) : words (w ++ s) = w :: words s := by
  obtain ⟨c, rest, rfl⟩ := List.exists_cons_of_ne_nil hw.ne_nil
  have hRest : ∀ d ∈ rest, (!isBlank d) = true := by
    intro d hd
    simp [hw.not_blank d (by simp [hd])]
  have hEnd : s.takeWhile (!isBlank ·) = [] ∧ s.dropWhile (!isBlank ·) = s := by
    cases s with
    | nil => exact ⟨rfl, rfl⟩
    | cons d s =>
        have hd : isBlank d = true := hs d rfl
        simp [hd]
  have hTrim : trimLeft (c :: rest ++ s) = c :: (rest ++ s) := by
    rw [List.cons_append, trimLeft_eq_self_iff]
    intro d hd
    rw [← Option.mem_some_iff.1 hd]
    exact hw.not_blank c (by simp)
  rw [words, hTrim]
  simp only [List.takeWhile_append_of_pos hRest,
    List.dropWhile_append_of_pos hRest, hEnd.1, hEnd.2, List.append_nil]

/-- Words with single spaces between them come back. -/
theorem words_intercalate {ws : List (List Char)} (h : ∀ w ∈ ws, IsWord w) :
    words ([' '].intercalate ws) = ws := by
  induction ws with
  | nil => exact words_nil
  | cons w ws ih =>
      have hw : IsWord w := h w (by simp)
      have hRest := ih fun v hv => h v (by simp [hv])
      cases ws with
      | nil =>
          have hAlone := words_append hw (s := []) (by simp)
          rw [List.append_nil, words_nil] at hAlone
          rw [List.intercalate_singleton, hAlone]
      | cons v ws =>
          have hSpace : isBlank ' ' = true := by decide
          rw [List.intercalate_cons_cons, List.append_assoc,
            words_append hw (by simp [hSpace]), List.singleton_append,
            words_cons_of_isBlank hSpace, hRest]

/-! ## Lines -/

theorem lines_cons {c : Char} (h : isLineBreak c = false) (s : List Char) :
    lines (c :: s) = consLine c (lines s) := by
  rw [lines, if_neg (by simp [h])]
  intro t hReturn _
  rw [hReturn] at h
  revert h
  decide

/-- A line that a line feed ends is cut off. -/
theorem lines_append {row : List Char} (h : OneLine row) (s : List Char) :
    lines (row ++ '\n' :: s) = row :: lines s := by
  induction row with
  | nil => rfl
  | cons c row ih =>
      rw [List.cons_append, lines_cons (h c (by simp)),
        ih fun d hd => h d (by simp [hd])]
      rfl

/-- Lines that line feeds end come back. -/
theorem lines_intercalate {rows : List (List Char)} (hNe : rows ≠ [])
    (h : ∀ row ∈ rows, OneLine row) :
    lines (['\n'].intercalate rows ++ ['\n']) = rows := by
  induction rows with
  | nil => exact absurd rfl hNe
  | cons row rows ih =>
      have hRow : OneLine row := h row (by simp)
      cases rows with
      | nil =>
          rw [List.intercalate_singleton, lines_append hRow]
          rfl
      | cons next rows =>
          have hRest := ih (by simp) fun r hr => h r (by simp [hr])
          rw [List.intercalate_cons_cons, List.append_assoc, List.append_assoc,
            List.singleton_append, lines_append hRow, hRest]

end StochasticGrammar.Text
