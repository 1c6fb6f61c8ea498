import StochasticGrammar.Text.LineBreak
import StochasticGrammar.Tree.Graph

/-!
# Quoted strings of the DOT language

A string in quotes ends at the first quote that stands after no backslash.  A
backslash stands before a quote of the string, joins two lines, or stands for
itself together with the next character, whatever that is.  So a text that is
quoted by writing a backslash before its quotes is read again only if its own
backslashes leave its quotes and its end alone.

Main results: a closed text is read as it was quoted (`spells_quote`), and what
is read from a string is always closed (`closed_of_quotedStrings?`).
-/

namespace StochasticGrammar.Dot

/-! ## Backslashes -/

/-- Whether the next character stands after a backslash.  A backslash that
stands after one puts nothing there. -/
def escapeStep (escaped : Bool) (c : Char) : Bool := !escaped && c == '\\'

/-- Whether what follows a text stands after a backslash. -/
def escapedAfter (escaped : Bool) (s : List Char) : Bool :=
  s.foldl escapeStep escaped

/-- Whether every character of a text is accepted, given whether it stands after
a backslash. -/
def allowed (p : Bool → Char → Bool) : Bool → List Char → Bool
  | _, [] => true
  | escaped, c :: s => p escaped c && allowed p (escapeStep escaped c) s

@[simp] theorem escapeStep_true (c : Char) : escapeStep true c = false := rfl

theorem escapeStep_of_ne {c : Char} (h : c ≠ '\\') (escaped : Bool) :
    escapeStep escaped c = false := by
  cases escaped <;> simp [escapeStep, h]

theorem escapedAfter_append (escaped : Bool) (s t : List Char) :
    escapedAfter escaped (s ++ t) = escapedAfter (escapedAfter escaped s) t :=
  List.foldl_append

/-- After another character than a backslash a text begins anew. -/
theorem escapedAfter_append_cons {d : Char} (hd : d ≠ '\\') (escaped : Bool)
    (s t : List Char) :
    escapedAfter escaped (s ++ d :: t) = escapedAfter false t := by
  rw [escapedAfter_append, escapedAfter, List.foldl_cons, escapeStep_of_ne hd]
  rfl

section Allowed

variable {p q : Bool → Char → Bool}

theorem allowed_append (escaped : Bool) (s t : List Char) :
    allowed p escaped (s ++ t) =
      (allowed p escaped s && allowed p (escapedAfter escaped s) t) := by
  induction s generalizing escaped with
  | nil => rfl
  | cons c s ih =>
      rw [List.cons_append, allowed, allowed, ih, Bool.and_assoc]
      rfl

theorem allowed_append_cons {d : Char} (hd : d ≠ '\\')
    (hp : ∀ escaped, p escaped d = true) (escaped : Bool) (s t : List Char) :
    allowed p escaped (s ++ d :: t) =
      (allowed p escaped s && allowed p false t) := by
  rw [allowed_append, allowed, hp, escapeStep_of_ne hd, Bool.true_and]

theorem allowed_mono (h : ∀ escaped c, p escaped c = true → q escaped c = true)
    {s : List Char} : ∀ {escaped : Bool}, allowed p escaped s = true →
      allowed q escaped s = true := by
  induction s with
  | nil => exact fun _ => rfl
  | cons c s ih =>
      intro escaped hs
      rw [allowed, Bool.and_eq_true] at hs ⊢
      exact ⟨h _ _ hs.1, ih hs.2⟩

/-- Characters that are accepted wherever they stand. -/
theorem allowed_of_forall {s : List Char}
    (h : ∀ c ∈ s, ∀ escaped, p escaped c = true) :
    ∀ escaped, allowed p escaped s = true := by
  induction s with
  | nil => exact fun _ => rfl
  | cons c s ih =>
      intro escaped
      rw [allowed, h c (by simp), ih fun d hd => h d (by simp [hd])]
      rfl

end Allowed

/-! ## Closed texts -/

/-- A backslash does not stand before a quote or the end of a line. -/
def keepsQuotes (escaped : Bool) (c : Char) : Bool :=
  !escaped || (c != '"' && c != '\n')

/-- No backslash of a text stands before a quote or the end of a line. -/
def Quotable (s : List Char) : Prop := allowed keepsQuotes false s = true

/-- A text that can be quoted, and whose end stands after no backslash. -/
structure Closed (s : List Char) : Prop where
  quotable : Quotable s
  not_escaped : escapedAfter false s = false

instance (s : List Char) : Decidable (Quotable s) :=
  inferInstanceAs (Decidable (_ = true))

instance (s : List Char) : Decidable (Closed s) :=
  decidable_of_iff (Quotable s ∧ escapedAfter false s = false)
    ⟨fun h => ⟨h.1, h.2⟩, fun h => ⟨h.quotable, h.not_escaped⟩⟩

theorem closed_nil : Closed [] := ⟨rfl, rfl⟩

theorem Closed.cons {c : Char} {s : List Char} (h : Closed s) (hc : c ≠ '\\') :
    Closed (c :: s) := by
  constructor
  · rw [Quotable, allowed, escapeStep_of_ne hc, h.quotable]
    rfl
  · rw [escapedAfter, List.foldl_cons, escapeStep_of_ne hc]
    exact h.not_escaped

theorem Closed.cons_escaped {c : Char} {s : List Char} (h : Closed s)
    (hQuote : c ≠ '"') (hLine : c ≠ '\n') : Closed ('\\' :: c :: s) := by
  constructor
  · have hc : keepsQuotes true c = true := by simp [keepsQuotes, hQuote, hLine]
    calc allowed keepsQuotes false ('\\' :: c :: s)
      _ = (keepsQuotes true c && allowed keepsQuotes false s) := rfl
      _ = true := by rw [hc, h.quotable]; rfl
  · exact h.not_escaped

/-- A text without backslashes is closed. -/
theorem closed_of_notMem {s : List Char} (h : '\\' ∉ s) : Closed s := by
  induction s with
  | nil => exact closed_nil
  | cons c s ih =>
      rw [List.mem_cons, not_or] at h
      exact (ih h.2).cons (Ne.symm h.1)

/-! ## Reading strings -/

/-- Where a reader of strings stands. -/
inductive Place where
  /-- Between two strings. -/
  | outside
  /-- In a string. -/
  | inside
  /-- In a string, after a backslash. -/
  | escaped

/-- What a backslash and a character add to the string that goes on after
them. -/
def unescape (c : Char) (rows : List (List Char)) : List (List Char) :=
  if c = '"' then Text.consLine '"' rows
  else if c = '\n' then rows
  else Text.consLine '\\' (Text.consLine c rows)

/-- Reads what is left of the strings. -/
def stringsFrom? : Place → List Char → Option (List (List Char))
  | .outside, [] => some []
  | .inside, [] => none
  | .escaped, [] => none
  | .outside, c :: s =>
    if c = '"' then stringsFrom? .inside s else stringsFrom? .outside s
  | .inside, c :: s =>
    if c = '"' then (stringsFrom? .outside s).map ([] :: ·)
    else if c = '\\' then stringsFrom? .escaped s
    else (stringsFrom? .inside s).map (Text.consLine c)
  | .escaped, c :: s => (stringsFrom? .inside s).map (unescape c)

/-- The quoted strings of a text in order; `none` if the last one does not
end. -/
def quotedStrings? (s : List Char) : Option (List (List Char)) :=
  stringsFrom? .outside s

theorem closed_of_mem_consLine {c : Char} (hc : c ≠ '\\')
    {rows : List (List Char)} (h : ∀ row ∈ rows, Closed row) :
    ∀ row ∈ Text.consLine c rows, Closed row := by
  cases rows with
  | nil => exact List.forall_mem_singleton.2 (closed_nil.cons hc)
  | cons row rows =>
      rw [List.forall_mem_cons] at h
      exact List.forall_mem_cons.2 ⟨h.1.cons hc, h.2⟩

theorem closed_of_mem_unescape {c : Char} {rows : List (List Char)}
    (h : ∀ row ∈ rows, Closed row) : ∀ row ∈ unescape c rows, Closed row := by
  unfold unescape
  split
  · exact closed_of_mem_consLine (by decide) h
  · rename_i hQuote
    split
    · exact h
    · rename_i hLine
      cases rows with
      | nil =>
          exact List.forall_mem_singleton.2
            (closed_nil.cons_escaped hQuote hLine)
      | cons row rows =>
          rw [List.forall_mem_cons] at h
          exact List.forall_mem_cons.2
            ⟨h.1.cons_escaped hQuote hLine, h.2⟩

theorem closed_of_stringsFrom? {s : List Char} :
    ∀ {place : Place} {rows : List (List Char)},
      stringsFrom? place s = some rows → ∀ row ∈ rows, Closed row := by
  induction s with
  | nil =>
      intro place rows h
      cases place with
      | outside => cases h; simp
      | inside | escaped => cases h
  | cons c s ih =>
      intro place rows h
      cases place with
      | outside =>
          rw [stringsFrom?] at h
          split at h <;> exact ih h
      | inside =>
          rw [stringsFrom?] at h
          split at h
          · obtain ⟨rest, hRest, rfl⟩ := Option.map_eq_some_iff.1 h
            exact List.forall_mem_cons.2 ⟨closed_nil, ih hRest⟩
          · split at h
            · exact ih h
            · rename_i hEscape
              obtain ⟨rest, hRest, rfl⟩ := Option.map_eq_some_iff.1 h
              exact closed_of_mem_consLine hEscape (ih hRest)
      | escaped =>
          obtain ⟨rest, hRest, rfl⟩ := Option.map_eq_some_iff.1 h
          exact closed_of_mem_unescape (ih hRest)

/-- What is read from a string is closed. -/
theorem closed_of_quotedStrings? {s : List Char} {rows : List (List Char)}
    (h : quotedStrings? s = some rows) : ∀ row ∈ rows, Closed row :=
  closed_of_stringsFrom? h

/-! ## Texts that spell strings -/

/-- Every quote of a text with a backslash before it. -/
def escapeQuotes (s : List Char) : List Char :=
  s.flatMap fun c => if c = '"' then ['\\', '"'] else [c]

theorem toList_quote (s : String) :
    (Graph.quote s).toList = '"' :: (escapeQuotes s.toList ++ ['"']) := by
  simp [Graph.quote, escapeQuotes]

/-- Where a reader stands in a string. -/
def placeOf (escaped : Bool) : Place := if escaped then .escaped else .inside

theorem escapeQuotes_quote (s : List Char) :
    escapeQuotes ('"' :: s) = '\\' :: '"' :: escapeQuotes s := rfl

theorem escapeQuotes_cons {c : Char} (h : c ≠ '"') (s : List Char) :
    escapeQuotes (c :: s) = c :: escapeQuotes s := by
  rw [escapeQuotes, List.flatMap_cons, if_neg h]
  rfl

/-- A text is read as it was quoted, together with a backslash before it. -/
theorem stringsFrom?_escapeQuotes (rest : List Char) {s : List Char} :
    ∀ {escaped : Bool}, allowed keepsQuotes escaped s = true →
      escapedAfter escaped s = false →
      stringsFrom? (placeOf escaped) (escapeQuotes s ++ '"' :: rest) =
        (stringsFrom? .outside rest).map
          (((if escaped then ['\\'] else []) ++ s) :: ·) := by
  induction s with
  | nil =>
      intro escaped _ hEnd
      obtain rfl : escaped = false := hEnd
      rfl
  | cons c s ih =>
      intro escaped hs hEnd
      rw [allowed, Bool.and_eq_true] at hs
      have hRest := ih hs.2 hEnd
      cases escaped with
      | true =>
          obtain ⟨hQuote, hLine⟩ : c ≠ '"' ∧ c ≠ '\n' := by
            simpa [keepsQuotes] using hs.1
          rw [escapeStep_true, placeOf, if_neg Bool.false_ne_true] at hRest
          rw [escapeQuotes_cons hQuote, placeOf, if_pos rfl, List.cons_append,
            stringsFrom?, hRest, Option.map_map]
          congr 1
          funext rows
          simp [unescape, hQuote, hLine, Text.consLine]
      | false =>
          rw [placeOf, if_neg Bool.false_ne_true]
          by_cases hQuote : c = '"'
          · subst hQuote
            rw [escapeStep_of_ne (by decide), placeOf,
              if_neg Bool.false_ne_true] at hRest
            rw [escapeQuotes_quote, List.cons_append, List.cons_append,
              stringsFrom?, if_neg (by decide), if_pos rfl, stringsFrom?, hRest,
              Option.map_map]
            rfl
          · rw [escapeQuotes_cons hQuote, List.cons_append, stringsFrom?,
              if_neg hQuote]
            by_cases hEscape : c = '\\'
            · subst hEscape
              rw [if_pos rfl]
              exact hRest
            · rw [escapeStep_of_ne hEscape, placeOf,
                if_neg Bool.false_ne_true] at hRest
              rw [if_neg hEscape, hRest, Option.map_map]
              rfl

/-- A text adds strings to those of what follows it. -/
def Spells (s : List Char) (rows : List (List Char)) : Prop :=
  ∀ rest, quotedStrings? (s ++ rest) = (quotedStrings? rest).map (rows ++ ·)

theorem Spells.quotedStrings?_eq {s : List Char} {rows : List (List Char)}
    (h : Spells s rows) : quotedStrings? s = some rows := by
  have hAll := h []
  rw [List.append_nil] at hAll
  rw [hAll]
  simp [quotedStrings?, stringsFrom?]

theorem Spells.append {s t : List Char} {rows others : List (List Char)}
    (hs : Spells s rows) (ht : Spells t others) :
    Spells (s ++ t) (rows ++ others) := by
  intro rest
  rw [List.append_assoc, hs, ht, Option.map_map]
  congr 1
  funext tail
  simp

theorem spells_flatMap {α : Type} {f : α → List Char}
    {rows : α → List (List Char)} {xs : List α}
    (h : ∀ x ∈ xs, Spells (f x) (rows x)) :
    Spells (xs.flatMap f) (xs.flatMap rows) := by
  induction xs with
  | nil => intro rest; simp
  | cons x xs ih =>
      rw [List.flatMap_cons, List.flatMap_cons]
      exact (h x (by simp)).append (ih fun y hy => h y (by simp [hy]))

/-- A text without quotes holds no string. -/
theorem spells_of_notMem {s : List Char} (h : '"' ∉ s) : Spells s [] := by
  intro rest
  rw [Option.map_congr fun _ _ => List.nil_append _, Option.map_id']
  induction s with
  | nil => rfl
  | cons c s ih =>
      rw [List.mem_cons, not_or] at h
      rw [List.cons_append, quotedStrings?, stringsFrom?, if_neg (Ne.symm h.1)]
      exact ih h.2

/-- A closed text is read as it was quoted. -/
theorem spells_quote {s : String} (h : Closed s.toList) :
    Spells (Graph.quote s).toList [s.toList] := by
  intro rest
  rw [toList_quote, List.cons_append, List.append_assoc]
  exact stringsFrom?_escapeQuotes rest h.quotable h.not_escaped

/-- Rows with a text between them, and that text at the end. -/
theorem intercalate_append_self (sep : List Char) {rows : List (List Char)}
    (h : rows ≠ []) : sep.intercalate rows ++ sep = rows.flatMap (· ++ sep) := by
  induction rows with
  | nil => exact absurd rfl h
  | cons row rows ih =>
      cases rows with
      | nil => simp
      | cons next rows =>
          rw [List.intercalate_cons_cons, List.flatMap_cons, ← ih (by simp)]
          simp

/-- The end of a line holds no string. -/
theorem Spells.line {s : List Char} {rows : List (List Char)}
    (h : Spells s rows) : Spells (s ++ ['\n']) rows := by
  have hEnd := h.append (spells_of_notMem (s := ['\n']) (by decide))
  rwa [List.append_nil] at hEnd

end StochasticGrammar.Dot
