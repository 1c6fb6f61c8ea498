import StochasticGrammar.Proofs.Tree.Quoted

/-!
# Records of the DOT language

The label of a record is cut into fields at its bars, and a field may begin with
the name of a port in angle brackets.  A mark that stands after a backslash is a
character like any other.  Fields are read without records inside them, which
braces would begin.

Main results: fields that are written with a bar between two of them are read
with their ports exactly if there is a field and all marks in the texts of fields
stand after backslashes (`ports?_recordText_iff`), and such a record can be
quoted if the texts of its fields can (`closed_recordText_iff`).
-/

namespace StochasticGrammar.Dot

/-! ## Reading records -/

/-- The characters that mean something in a record. -/
def recordMarks : List Char := ['|', '<', '>', '\x7b', '\x7d']

/-- A character is no mark, unless it stands after a backslash. -/
def keepsFields (escaped : Bool) (c : Char) : Bool :=
  escaped || !recordMarks.contains c

/-- Every mark of a text stands after a backslash. -/
def Plain (s : List Char) : Prop := allowed keepsFields false s = true

instance (s : List Char) : Decidable (Plain s) :=
  inferInstanceAs (Decidable (_ = true))

/-- Cuts a text at the marks of a kind that stand after no backslash. -/
def cutAt (mark : Char) : Bool → List Char → List (List Char)
  | _, [] => [[]]
  | escaped, c :: s =>
    if !escaped && c == mark then [] :: cutAt mark false s
    else Text.consLine c (cutAt mark (escapeStep escaped c) s)

/-- Reads a field for its port; `none` if it is none. -/
def readField? (field : List Char) : Option (Option (List Char)) :=
  match field.dropWhile (· == ' ') with
  | '<' :: s =>
    match cutAt '>' false s with
    | [port, text] =>
      if Plain port ∧ Plain text then some (some port) else none
    | _ => none
  | s => if Plain s then some none else none

/-- The ports of the fields of a record, in order. -/
def ports? (label : List Char) : Option (List (Option (List Char))) :=
  (cutAt '|' false label).mapM readField?

/-! ## Cutting -/

/-- A text has no mark of a kind, unless after a backslash. -/
def keeps (mark : Char) (escaped : Bool) (c : Char) : Bool :=
  escaped || c != mark

theorem length_consLine {c : Char} {rows : List (List Char)} (h : rows ≠ []) :
    (Text.consLine c rows).length = rows.length := by
  cases rows with
  | nil => exact absurd rfl h
  | cons row rows => rfl

theorem cutAt_ne_nil (mark : Char) (escaped : Bool) (s : List Char) :
    cutAt mark escaped s ≠ [] := by
  cases s with
  | nil => simp [cutAt]
  | cons c s =>
      rw [cutAt]
      split
      · simp
      · cases cutAt mark (escapeStep escaped c) s <;> simp [Text.consLine]

/-- A text without the mark is not cut, and one with it is. -/
theorem cutAt_cases (mark : Char) (s : List Char) (escaped : Bool) :
    allowed (keeps mark) escaped s = true ∧ cutAt mark escaped s = [s] ∨
      allowed (keeps mark) escaped s = false ∧
        2 ≤ (cutAt mark escaped s).length := by
  induction s generalizing escaped with
  | nil => exact .inl ⟨rfl, rfl⟩
  | cons c s ih =>
      by_cases hCut : (!escaped && c == mark) = true
      · refine .inr ⟨?_, ?_⟩
        · have hMark : keeps mark escaped c = false := by
            simpa [keeps] using hCut
          rw [allowed, hMark, Bool.false_and]
        · rw [cutAt, if_pos hCut, List.length_cons]
          have hPos := List.length_pos_iff.2 (cutAt_ne_nil mark false s)
          omega
      · have hMark : keeps mark escaped c = true := by
          cases escaped <;> simp_all [keeps]
        rw [allowed, hMark, Bool.true_and, cutAt, if_neg hCut,
          length_consLine (cutAt_ne_nil _ _ _)]
        refine (ih (escapeStep escaped c)).imp (fun h => ⟨h.1, ?_⟩) id
        rw [h.2, Text.consLine]

/-- A closed text without the mark ends where the mark follows. -/
theorem cutAt_append_mark {mark : Char} (t : List Char) {s : List Char} :
    ∀ {escaped : Bool}, allowed (keeps mark) escaped s = true →
      escapedAfter escaped s = false →
      cutAt mark escaped (s ++ mark :: t) = s :: cutAt mark false t := by
  induction s with
  | nil =>
      intro escaped _ hEnd
      obtain rfl : escaped = false := hEnd
      simp [cutAt]
  | cons c s ih =>
      intro escaped hs hEnd
      rw [allowed, Bool.and_eq_true] at hs
      have hCut : ¬ (!escaped && c == mark) = true := by
        have hMark := hs.1
        cases escaped <;> simp_all [keeps]
      rw [List.cons_append, cutAt, if_neg hCut, ih hs.2 hEnd, Text.consLine]

/-- A bar after a blank is a mark, whatever stands before the blank. -/
theorem cutAt_blank_bar (t : List Char) (s : List Char) (escaped : Bool) :
    cutAt '|' escaped (s ++ ' ' :: '|' :: t) =
      cutAt '|' escaped (s ++ [' ']) ++ cutAt '|' false t := by
  induction s generalizing escaped with
  | nil =>
      have hBlank : (!escaped && ' ' == '|') = false := by cases escaped <;> rfl
      rw [List.nil_append, List.nil_append, cutAt, hBlank,
        escapeStep_of_ne (by decide), cutAt, cutAt, hBlank,
        escapeStep_of_ne (by decide)]
      rfl
  | cons c s ih =>
      rw [List.cons_append, List.cons_append, cutAt, cutAt]
      split
      · rw [ih, List.cons_append]
      · rw [ih]
        have hNe := cutAt_ne_nil '|' (escapeStep escaped c) (s ++ [' '])
        cases hCut : cutAt '|' (escapeStep escaped c) (s ++ [' ']) with
        | nil => exact absurd hCut hNe
        | cons row rows => rfl

/-! ## Fields -/

/-- The text of a field with a port. -/
def fieldText (port text : List Char) : List Char :=
  '<' :: (port ++ '>' :: ' ' :: text)

/-- Blanks at the end are no marks. -/
theorem allowed_append_blanks {p : Bool → Char → Bool}
    (hp : ∀ escaped, p escaped ' ' = true) (s : List Char) (j : Nat) :
    allowed p false (s ++ List.replicate j ' ') = allowed p false s := by
  have hBlanks : ∀ c ∈ List.replicate j ' ', ∀ escaped, p escaped c = true :=
    List.forall_mem_replicate.2 (.inr hp)
  rw [allowed_append, allowed_of_forall hBlanks, Bool.and_true]

/-- A text in which no mark of records stands has none of a kind. -/
theorem allowed_keeps {mark : Char} (hMark : mark ∈ recordMarks)
    {s : List Char} (h : Plain s) : allowed (keeps mark) false s = true := by
  refine allowed_mono (fun escaped c hc => ?_) h
  simp only [keepsFields, keeps, Bool.or_eq_true, Bool.not_eq_true',
    bne_iff_ne] at hc ⊢
  refine hc.imp_right ?_
  rintro hc rfl
  rw [List.contains_iff_mem.2 hMark] at hc
  cases hc

/-- The name of a port has neither marks nor backslashes. -/
structure IsPort (port : List Char) : Prop where
  no_mark : ∀ c ∈ port, c ∉ recordMarks
  no_backslash : '\\' ∉ port

theorem IsPort.plain {port : List Char} (h : IsPort port) : Plain port := by
  refine allowed_of_forall (fun c hc escaped => ?_) false
  simp [keepsFields, h.no_mark c hc]

/-- A field with blanks around it is read for its port, if its text is plain. -/
theorem readField?_fieldText {port : List Char} (h : IsPort port)
    (text : List Char) (k j : Nat) :
    readField? (List.replicate k ' ' ++ fieldText port text ++
        List.replicate j ' ') =
      if Plain text then some (some port) else none := by
  have hStart : (List.replicate k ' ' ++ fieldText port text ++
      List.replicate j ' ').dropWhile (· == ' ') =
        '<' :: (port ++ '>' :: (' ' :: text ++ List.replicate j ' ')) := by
    have hBlanks : ∀ c ∈ List.replicate k ' ', (c == ' ') = true :=
      List.forall_mem_replicate.2 (.inr rfl)
    rw [List.append_assoc, List.dropWhile_append_of_pos hBlanks, fieldText,
      List.cons_append, List.dropWhile_cons_of_neg (by decide)]
    simp
  have hPort := cutAt_append_mark (' ' :: text ++ List.replicate j ' ')
    (allowed_keeps (show '>' ∈ recordMarks by decide) h.plain)
    (closed_of_notMem h.no_backslash).not_escaped
  have hText : Plain (' ' :: text ++ List.replicate j ' ') ↔ Plain text := by
    rw [Plain, allowed_append_blanks (by decide)]
    exact Iff.rfl
  rw [readField?, hStart]
  simp only [hPort]
  rcases cutAt_cases '>' (' ' :: text ++ List.replicate j ' ') false with
    ⟨_, hCut⟩ | ⟨hMark, hCut⟩
  · rw [hCut]
    simp only [hText, h.plain, true_and]
  · -- a bracket in the text
    have hNot : ¬ Plain text := fun hPlain => by
      rw [allowed_keeps (by decide) (hText.2 hPlain)] at hMark
      cases hMark
    rw [if_neg hNot]
    split
    · rename_i hPair
      rw [(List.cons.inj hPair).2] at hCut
      simp at hCut
    · rfl

/-! ## Records -/

/-- Fields with a bar between two of them. -/
def recordText (fields : List (List Char × List Char)) : List Char :=
  " | ".toList.intercalate (fields.map fun f => fieldText f.1 f.2)

theorem recordText_cons_cons (f g : List Char × List Char)
    (fields : List (List Char × List Char)) :
    recordText (f :: g :: fields) =
      fieldText f.1 f.2 ++ ' ' :: '|' :: ' ' :: recordText (g :: fields) := by
  rw [recordText, List.map_cons, List.map_cons, List.intercalate_cons_cons,
    List.append_assoc]
  rfl

/-- Blanks before a record of two fields or more belong to the first. -/
theorem cutAt_recordText (k : Nat) (f g : List Char × List Char)
    (fields : List (List Char × List Char)) :
    cutAt '|' false (List.replicate k ' ' ++ recordText (f :: g :: fields)) =
      cutAt '|' false
          (List.replicate k ' ' ++ fieldText f.1 f.2 ++ List.replicate 1 ' ') ++
        cutAt '|' false (List.replicate 1 ' ' ++ recordText (g :: fields)) := by
  rw [recordText_cons_cons, ← List.append_assoc]
  exact cutAt_blank_bar _ _ _

/-- A record is cut into its fields at least. -/
theorem length_le_length_cutAt (fields : List (List Char × List Char)) :
    ∀ k, fields.length ≤
      (cutAt '|' false (List.replicate k ' ' ++ recordText fields)).length := by
  induction fields with
  | nil => exact fun k => Nat.zero_le _
  | cons f fields ih =>
      intro k
      cases fields with
      | nil => exact List.length_pos_iff.2 (cutAt_ne_nil _ _ _)
      | cons g fields =>
          rw [cutAt_recordText, List.length_append, List.length_cons]
          have hFirst := List.length_pos_iff.2 (cutAt_ne_nil '|' false
            (List.replicate k ' ' ++ fieldText f.1 f.2 ++
              List.replicate 1 ' '))
          have hRest := ih 1
          omega

theorem length_of_mapM {β γ : Type} {f : β → Option γ} {xs : List β} :
    ∀ {ys : List γ}, xs.mapM f = some ys → ys.length = xs.length := by
  induction xs with
  | nil =>
      intro ys h
      cases h
      rfl
  | cons x xs ih =>
      intro ys h
      rw [List.mapM_cons] at h
      obtain ⟨y, _, h⟩ := Option.bind_eq_some_iff.1 h
      obtain ⟨zs, hRest, h⟩ := Option.bind_eq_some_iff.1 h
      cases h
      rw [List.length_cons, List.length_cons, ih hRest]

/-- A field has the bars of its text. -/
theorem allowed_fieldText {port : List Char} (h : IsPort port)
    (text : List Char) (k j : Nat) :
    allowed (keeps '|') false (List.replicate k ' ' ++ fieldText port text ++
        List.replicate j ' ') = allowed (keeps '|') false text := by
  have hStart : ∀ c ∈ List.replicate k ' ' ++ '<' :: (port ++ ['>']),
      ∀ escaped, keeps '|' escaped c = true := by
    intro c hc escaped
    have hBar : c ≠ '|' := by
      rintro rfl
      simp only [List.mem_append, List.mem_cons, List.mem_replicate,
        List.not_mem_nil, or_false] at hc
      rcases hc with ⟨-, hc⟩ | hc | hc | hc
      · revert hc; decide
      · revert hc; decide
      · exact h.no_mark _ hc (by decide)
      · revert hc; decide
    simp [keeps, hBar]
  have hSplit : List.replicate k ' ' ++ fieldText port text =
      (List.replicate k ' ' ++ '<' :: (port ++ ['>'])) ++ ' ' :: text := by
    simp [fieldText]
  rw [allowed_append_blanks (by decide), hSplit,
    allowed_append_cons (by decide) (by decide), allowed_of_forall hStart,
    Bool.true_and]

/-- A field that is not cut is read alone. -/
theorem mapM_readField?_iff {port : List Char} (h : IsPort port)
    (text : List Char) (k j : Nat) :
    (cutAt '|' false (List.replicate k ' ' ++ fieldText port text ++
        List.replicate j ' ')).mapM readField? = some [some port] ↔
      Plain text := by
  have hRead := readField?_fieldText h text k j
  rcases cutAt_cases '|' (List.replicate k ' ' ++ fieldText port text ++
      List.replicate j ' ') false with ⟨_, hCut⟩ | ⟨hMark, hCut⟩
  · rw [hCut, List.mapM_cons, List.mapM_nil, hRead]
    split <;> simp [*]
  · -- a bar in the text
    refine iff_of_false (fun hAll => ?_) fun hPlain => ?_
    · have hLength := length_of_mapM hAll
      rw [List.length_singleton] at hLength
      omega
    · rw [allowed_fieldText h, allowed_keeps (by decide) hPlain] at hMark
      cases hMark

/-- Fields that are written as a record are read with their ports exactly if
there is a field and the texts of all fields are plain. -/
theorem ports?_recordText_iff {fields : List (List Char × List Char)}
    (hPorts : ∀ f ∈ fields, IsPort f.1) (k : Nat) :
    ports? (List.replicate k ' ' ++ recordText fields) =
        some (fields.map fun f => some f.1) ↔
      fields ≠ [] ∧ ∀ f ∈ fields, Plain f.2 := by
  unfold ports?
  induction fields generalizing k with
  | nil =>
      refine iff_of_false (fun hAll => ?_) fun h => h.1 rfl
      have hLength := length_of_mapM hAll
      have hPos := List.length_pos_iff.2
        (cutAt_ne_nil '|' false (List.replicate k ' ' ++ recordText []))
      rw [List.map_nil, List.length_nil] at hLength
      omega
  | cons f fields ih =>
      rw [List.forall_mem_cons] at hPorts
      cases fields with
      | nil =>
          have hOne := mapM_readField?_iff hPorts.1 f.2 k 0
          rw [List.replicate_zero, List.append_nil] at hOne
          simpa [recordText] using hOne
      | cons g fields =>
          have hFirst := mapM_readField?_iff hPorts.1 f.2 k 1
          have hRest := ih hPorts.2 1
          rw [cutAt_recordText, List.mapM_append, List.forall_mem_cons, ← hFirst]
          constructor
          · intro hAll
            obtain ⟨ys, hYs, hAll⟩ := Option.bind_eq_some_iff.1 hAll
            obtain ⟨zs, hZs, hAll⟩ := Option.bind_eq_some_iff.1 hAll
            -- no field is cut, since there are as many ports as fields
            have hSplit : ys ++ zs =
                [some f.1] ++ (g :: fields).map fun f => some f.1 :=
              Option.some.inj hAll
            have hLength := congrArg List.length hSplit
            have hFew := length_le_length_cutAt (g :: fields) 1
            have hPos := List.length_pos_iff.2 (cutAt_ne_nil '|' false
              (List.replicate k ' ' ++ fieldText f.1 f.2 ++
                List.replicate 1 ' '))
            rw [← length_of_mapM hZs] at hFew
            rw [← length_of_mapM hYs] at hPos
            simp only [List.length_append, List.length_singleton,
              List.length_map] at hLength
            obtain ⟨rfl, rfl⟩ := List.append_inj hSplit (by
              rw [List.length_singleton]
              omega)
            exact ⟨by simp, hYs, (hRest.1 hZs).2⟩
          · rintro ⟨-, hYs, hPlain⟩
            rw [hYs, hRest.2 ⟨by simp, hPlain⟩]
            rfl

/-! ## Quoting records -/

/-- The name of a port leaves the text of its field as it is. -/
theorem closed_fieldText {port : List Char} (h : IsPort port)
    (text : List Char) :
    allowed keepsQuotes false (fieldText port text) =
        allowed keepsQuotes false text ∧
      escapedAfter false (fieldText port text) = escapedAfter false text := by
  have hPort : Closed ('<' :: (port ++ ['>'])) :=
    closed_of_notMem (by simp [h.no_backslash])
  have hSplit : fieldText port text =
      '<' :: (port ++ ['>']) ++ ' ' :: text := by simp [fieldText]
  constructor
  · rw [hSplit, allowed_append_cons (by decide) (by decide), hPort.quotable,
      Bool.true_and]
  · rw [hSplit, escapedAfter_append_cons (by decide)]

theorem closed_recordText_singleton {f : List Char × List Char}
    (h : IsPort f.1) : Closed (recordText [f]) ↔ Closed f.2 := by
  obtain ⟨hQuotable, hEnd⟩ := closed_fieldText h f.2
  have hOne : recordText [f] = fieldText f.1 f.2 := List.intercalate_singleton
  rw [hOne]
  exact ⟨fun hc => ⟨hQuotable.symm.trans hc.quotable,
      hEnd.symm.trans hc.not_escaped⟩,
    fun hc => ⟨hQuotable.trans hc.quotable, hEnd.trans hc.not_escaped⟩⟩

/-- A backslash at the end of a field that is not the last one only meets a
blank. -/
theorem closed_recordText_cons_cons {f g : List Char × List Char}
    {fields : List (List Char × List Char)} (h : IsPort f.1) :
    Closed (recordText (f :: g :: fields)) ↔
      Quotable f.2 ∧ Closed (recordText (g :: fields)) := by
  have hText : allowed keepsQuotes false (recordText (f :: g :: fields)) =
      (allowed keepsQuotes false f.2 &&
        allowed keepsQuotes false (recordText (g :: fields))) := by
    rw [recordText_cons_cons, allowed_append_cons (by decide) (by decide),
      (closed_fieldText h f.2).1]
    rfl
  have hEnd : escapedAfter false (recordText (f :: g :: fields)) =
      escapedAfter false (recordText (g :: fields)) := by
    rw [recordText_cons_cons, escapedAfter_append_cons (by decide)]
    rfl
  constructor
  · intro hc
    have hBoth := hc.quotable
    rw [Quotable, hText, Bool.and_eq_true] at hBoth
    exact ⟨hBoth.1, hBoth.2, hEnd ▸ hc.not_escaped⟩
  · rintro ⟨hFirst, hRest⟩
    exact ⟨by rw [Quotable, hText, hFirst, hRest.quotable]; rfl,
      hEnd ▸ hRest.not_escaped⟩

/-- A record is closed if the texts of its fields can be quoted and the last one
is closed. -/
theorem closed_recordText_iff {fields : List (List Char × List Char)}
    (hPorts : ∀ f ∈ fields, IsPort f.1) :
    Closed (recordText fields) ↔ (∀ f ∈ fields, Quotable f.2) ∧
      ∀ f ∈ fields.getLast?, escapedAfter false f.2 = false := by
  induction fields with
  | nil => exact iff_of_true closed_nil ⟨by simp, by simp⟩
  | cons f fields ih =>
      rw [List.forall_mem_cons] at hPorts
      cases fields with
      | nil =>
          rw [closed_recordText_singleton hPorts.1]
          constructor
          · exact fun h =>
              ⟨by simpa using h.quotable, by simpa using h.not_escaped⟩
          · exact fun h => ⟨by simpa using h.1, by simpa using h.2⟩
      | cons g fields =>
          rw [closed_recordText_cons_cons hPorts.1, ih hPorts.2,
            List.getLast?_cons_cons, ← and_assoc]
          refine and_congr_left fun _ => ?_
          exact (List.forall_mem_cons
            (p := fun f : List Char × List Char => Quotable f.2)).symm

/-! ## Lines in fields -/

/-- What joins two lines in a field stands for itself, and what follows it begins
anew. -/
theorem allowed_intercalate_lines {p : Bool → Char → Bool}
    (hBackslash : ∀ escaped, p escaped '\\' = true)
    (hLetter : ∀ escaped, p escaped 'n' = true) (rows : List (List Char)) :
    allowed p false ("\\n".toList.intercalate rows) =
      rows.all (allowed p false) := by
  induction rows with
  | nil => rfl
  | cons row rows ih =>
      cases rows with
      | nil => simp
      | cons next rows =>
          rw [List.intercalate_cons_cons, List.append_assoc, allowed_append,
            List.all_cons, ← ih]
          congr 1
          change allowed p _ ('\\' :: 'n' :: _) = _
          rw [allowed, allowed, hBackslash, hLetter]
          cases escapedAfter false row <;> rfl

theorem escapedAfter_intercalate_lines (rows : List (List Char)) :
    escapedAfter false ("\\n".toList.intercalate rows) = false ↔
      ∀ row ∈ rows.getLast?, escapedAfter false row = false := by
  induction rows with
  | nil => simp [escapedAfter]
  | cons row rows ih =>
      cases rows with
      | nil => simp
      | cons next rows =>
          rw [List.getLast?_cons_cons, ← ih, List.intercalate_cons_cons,
            List.append_assoc, escapedAfter_append]
          change escapedAfter _ ('\\' :: 'n' :: _) = false ↔ _
          cases escapedAfter false row <;> rfl

end StochasticGrammar.Dot
