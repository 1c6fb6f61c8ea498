import StochasticGrammar.Proofs.Grammar.Reading

/-!
# Comments and blank lines in the format with labels

Nothing but the content of its lines counts for the reader of the format with
labels, apart from the numbers of the lines, which it puts into its errors.  So
a text that is edited by putting in blank lines, comments and blanks is read as
before, and an error names the place to which its line was moved.

Two facts carry this.  An edit relabels the contents of the lines
(`Edits.contents_eq`), and the reader commutes with every relabelling that
leaves the number 0 alone, which stands for no line (`readContents_moved`).
That an error without a line is one of a text that ends too early is a third
fact, `isAt_of_readContents`.

Main results: `ofLabelLines_edits`.
-/

namespace StochasticGrammar

/-- An error with another line number. -/
def GrammarError.moved {α : Type} (move : Nat → Nat) (e : GrammarError α) :
    GrammarError α :=
  ⟨e.cause, e.file, move e.line⟩

/-- Whether an error says that the text ended too early. -/
def GrammarError.Cause.isEarlyEnd {α : Type} : GrammarError.Cause α → Bool
  | .missingNumber _ => true
  | .invalidSymbolDefinition line => line.isEmpty
  | .invalidRule line => line.isEmpty
  | _ => false

namespace Grammar

open Text

variable {α : Type} {file : Option String} {move : Nat → Nat}

/-! ## Edits -/

/-- A text of blanks. -/
def AllBlank (s : String) : Prop := ∀ c ∈ s.toList, isBlank c = true

instance (s : String) : Decidable (AllBlank s) :=
  List.decidableBAll (isBlank · = true) s.toList

/-- The new number of a line when another one is put in after `n` lines. -/
def behind (n k : Nat) : Nat := if k ≤ n then k else k + 1

/-- An edit that leaves the content of the lines alone, and the new numbers of
the lines. -/
inductive Edit : List String → List String → (Nat → Nat) → Prop where
  /-- A blank line is put in. -/
  | blankLine (before after : List String) {blanks : String}
    (h : AllBlank blanks) :
    Edit (before ++ after) (before ++ blanks :: after) (behind before.length)
  /-- A line with nothing but a comment is put in. -/
  | commentLine (before after : List String) {blanks : String}
    (h : AllBlank blanks) (comment : String) :
    Edit (before ++ after) (before ++ (blanks ++ "#" ++ comment) :: after)
      (behind before.length)
  /-- A comment is put behind a line. -/
  | comment (before after : List String) (row comment : String) :
    Edit (before ++ row :: after) (before ++ (row ++ "#" ++ comment) :: after)
      id
  /-- Blanks are put in front of a line. -/
  | leading (before after : List String) (row : String) {blanks : String}
    (h : AllBlank blanks) :
    Edit (before ++ row :: after) (before ++ (blanks ++ row) :: after) id
  /-- Blanks are put behind a line. -/
  | trailing (before after : List String) (row : String) {blanks : String}
    (h : AllBlank blanks) :
    Edit (before ++ row :: after) (before ++ (row ++ blanks) :: after) id

/-- Any number of edits, and where the lines are in the end. -/
inductive Edits : List String → List String → (Nat → Nat) → Prop where
  /-- Nothing is edited. -/
  | refl (rows : List String) : Edits rows rows id
  /-- One more edit. -/
  | step {rows mid rows' : List String} {move next : Nat → Nat}
    (first : Edits rows mid move) (last : Edit mid rows' next) :
    Edits rows rows' (next ∘ move)

/-! ## The content of a line -/

theorem lineContent_of_allBlank {blanks : String} (h : AllBlank blanks) :
    lineContent blanks = [] := by
  have hPlain : '#' ∉ blanks.toList :=
    fun hMem => isBlank_ne_comment (h '#' hMem) rfl
  have hTrim := trim_append_left h []
  rw [List.append_nil] at hTrim
  rw [lineContent, stripComment_of_notMem hPlain, hTrim]
  rfl

theorem lineContent_append_comment (row comment : String) :
    lineContent (row ++ "#" ++ comment) = lineContent row := by
  have hList : (row ++ "#" ++ comment).toList =
      row.toList ++ '#' :: comment.toList := by
    simp
  rw [lineContent, hList, stripComment_append_comment, lineContent]

theorem lineContent_append_left {blanks : String} (h : AllBlank blanks)
    (row : String) : lineContent (blanks ++ row) = lineContent row := by
  have hStrip : stripComment (blanks.toList ++ row.toList) =
      blanks.toList ++ stripComment row.toList := by
    refine List.takeWhile_append_of_pos fun c hc => ?_
    simpa using isBlank_ne_comment (h c hc)
  rw [lineContent, String.toList_append, hStrip, trim_append_left h,
    lineContent]

theorem lineContent_append_right {blanks : String} (h : AllBlank blanks)
    (row : String) : lineContent (row ++ blanks) = lineContent row := by
  rw [lineContent, lineContent, String.toList_append]
  by_cases hMem : '#' ∈ row.toList
  · rw [stripComment_append_of_mem hMem]
  · have hPlain : '#' ∉ row.toList ++ blanks.toList := by
      intro hComment
      rcases List.mem_append.1 hComment with hc | hc
      · exact hMem hc
      · exact isBlank_ne_comment (h '#' hc) rfl
    rw [stripComment_of_notMem hPlain, stripComment_of_notMem hMem,
      trim_append_right h]

/-! ## The contents of the lines -/

/-- A content with another line number. -/
def Content.moved (move : Nat → Nat) (c : Content) : Content :=
  ⟨move c.line, c.text⟩

theorem contents_append (rows rows' : List String) :
    ∀ line, contents line (rows ++ rows') =
      contents line rows ++ contents (line + rows.length) rows' := by
  induction rows with
  | nil => simp [contents]
  | cons row rows ih =>
      intro line
      have hLine : line + 1 + rows.length = line + (row :: rows).length := by
        rw [List.length_cons]
        omega
      rw [List.cons_append, contents, contents, ih, hLine]
      split <;> rfl

theorem contents_add (rows : List String) (n : Nat) :
    ∀ line, contents (line + n) rows =
      (contents line rows).map (·.moved (· + n)) := by
  induction rows with
  | nil => simp [contents]
  | cons row rows ih =>
      intro line
      have hLine : line + n + 1 = line + 1 + n := by omega
      rw [contents, contents, hLine, ih]
      split <;> rfl

/-- Each content is that of a line that is not empty. -/
theorem exists_of_mem_contents {rows : List String} {c : Content} :
    ∀ {line : Nat}, c ∈ contents line rows → ∃ k row, rows[k]? = some row ∧
      c = ⟨line + k, lineContent row⟩ ∧ lineContent row ≠ [] := by
  induction rows with
  | nil =>
      intro line h
      simp [contents] at h
  | cons row rows ih =>
      intro line h
      have hRest (hc : c ∈ contents (line + 1) rows) :
          ∃ k r, (row :: rows)[k]? = some r ∧
            c = ⟨line + k, lineContent r⟩ ∧ lineContent r ≠ [] := by
        obtain ⟨k, r, hGet, rfl, hNe⟩ := ih hc
        have hLine : line + 1 + k = line + (k + 1) := by omega
        exact ⟨k + 1, r, by simpa using hGet, by rw [hLine], hNe⟩
      rw [contents] at h
      split at h
      · exact hRest h
      · rename_i hNe
        rcases List.mem_cons.1 h with rfl | h
        · exact ⟨0, row, rfl, rfl, by simpa using hNe⟩
        · exact hRest h

/-- A line may be replaced by another one of the same content. -/
theorem contents_replace {row row' : String}
    (h : lineContent row' = lineContent row) (before after : List String)
    (line : Nat) : contents line (before ++ row' :: after) =
      contents line (before ++ row :: after) := by
  rw [contents_append, contents_append, contents, contents, h]

/-- A line without content moves the lines behind it. -/
theorem contents_insert {row : String} (h : lineContent row = [])
    (before after : List String) : contents 1 (before ++ row :: after) =
      (contents 1 (before ++ after)).map (·.moved (behind before.length)) := by
  have hBefore : ∀ c ∈ contents 1 before,
      c.moved (behind before.length) = c := by
    intro c hc
    obtain ⟨k, r, hGet, rfl, -⟩ := exists_of_mem_contents hc
    have hk := (List.getElem?_eq_some_iff.1 hGet).1
    have hStay : behind before.length (1 + k) = 1 + k := if_pos (by omega)
    rw [Content.moved, hStay]
  have hAfter : ∀ c ∈ contents (1 + before.length) after,
      c.moved (behind before.length) = c.moved (· + 1) := by
    intro c hc
    obtain ⟨k, r, -, rfl, -⟩ := exists_of_mem_contents hc
    have hMove : behind before.length (1 + before.length + k) =
        1 + before.length + k + 1 := if_neg (by omega)
    rw [Content.moved, hMove, Content.moved]
  rw [contents_append, contents_append, List.map_append,
    List.map_congr_left hBefore, List.map_congr_left hAfter, List.map_id',
    contents, if_pos (by simp [h]), contents_add]

theorem Edit.contents_eq {rows rows' : List String} (h : Edit rows rows' move) :
    contents 1 rows' = (contents 1 rows).map (·.moved move) := by
  have hSame (cs : List Content) : cs.map (·.moved id) = cs := List.map_id cs
  cases h with
  | blankLine before after hBlank =>
      exact contents_insert (lineContent_of_allBlank hBlank) before after
  | commentLine before after hBlank text =>
      refine contents_insert ?_ before after
      rw [lineContent_append_comment, lineContent_of_allBlank hBlank]
  | comment before after row text =>
      rw [hSame]
      exact contents_replace (lineContent_append_comment row text) ..
  | leading before after row hBlank =>
      rw [hSame]
      exact contents_replace (lineContent_append_left hBlank row) ..
  | trailing before after row hBlank =>
      rw [hSame]
      exact contents_replace (lineContent_append_right hBlank row) ..

/-- Edits leave the contents of the lines as they are, with new numbers. -/
theorem Edits.contents_eq {rows rows' : List String}
    (h : Edits rows rows' move) :
    contents 1 rows' = (contents 1 rows).map (·.moved move) := by
  induction h with
  | refl => exact (List.map_id _).symm
  | step first last ih =>
      rw [last.contents_eq, ih, List.map_map]
      rfl

/-- The number that stands for no line stays. -/
theorem Edits.move_zero {rows rows' : List String}
    (h : Edits rows rows' move) : move 0 = 0 := by
  induction h with
  | refl => rfl
  | step first last ih =>
      rw [Function.comp_apply, ih]
      cases last <;> rfl

/-! ## Where the lines are -/

/-- A line that stands at another place with the same content. -/
def Kept (rows rows' : List String) (move : Nat → Nat) : Prop :=
  ∀ k row, rows[k]? = some row → ∃ k' row', move (k + 1) = k' + 1 ∧
    rows'[k']? = some row' ∧ lineContent row' = lineContent row

theorem kept_insert (row : String) (before after : List String) :
    Kept (before ++ after) (before ++ row :: after) (behind before.length) := by
  intro k r hGet
  by_cases hk : k < before.length
  · have hStay : behind before.length (k + 1) = k + 1 := if_pos (by omega)
    rw [List.getElem?_append_left hk] at hGet
    exact ⟨k, r, hStay, by rw [List.getElem?_append_left hk, hGet], rfl⟩
  · have hMove : behind before.length (k + 1) = k + 1 + 1 :=
      if_neg (by omega)
    rw [List.getElem?_append_right (by omega)] at hGet
    refine ⟨k + 1, r, hMove, ?_, rfl⟩
    have hIndex : k + 1 - before.length = k - before.length + 1 := by omega
    rw [List.getElem?_append_right (by omega), hIndex,
      List.getElem?_cons_succ, hGet]

theorem kept_replace {row row' : String}
    (h : lineContent row' = lineContent row) (before after : List String) :
    Kept (before ++ row :: after) (before ++ row' :: after) id := by
  intro k r hGet
  by_cases hk : k < before.length
  · rw [List.getElem?_append_left hk] at hGet
    exact ⟨k, r, rfl, by rw [List.getElem?_append_left hk, hGet], rfl⟩
  · rw [List.getElem?_append_right (by omega)] at hGet
    cases hIndex : k - before.length with
    | zero =>
        rw [hIndex, List.getElem?_cons_zero] at hGet
        cases hGet
        refine ⟨k, row', rfl, ?_, h⟩
        rw [List.getElem?_append_right (by omega), hIndex,
          List.getElem?_cons_zero]
    | succ n =>
        rw [hIndex, List.getElem?_cons_succ] at hGet
        refine ⟨k, r, rfl, ?_, rfl⟩
        rw [List.getElem?_append_right (by omega), hIndex,
          List.getElem?_cons_succ, hGet]

theorem Edit.kept {rows rows' : List String} (h : Edit rows rows' move) :
    Kept rows rows' move := by
  cases h with
  | blankLine before after hBlank => exact kept_insert _ before after
  | commentLine before after hBlank text => exact kept_insert _ before after
  | comment before after row text =>
      exact kept_replace (lineContent_append_comment row text) before after
  | leading before after row hBlank =>
      exact kept_replace (lineContent_append_left hBlank row) before after
  | trailing before after row hBlank =>
      exact kept_replace (lineContent_append_right hBlank row) before after

/-- Each line is found, with its content, at the place to which the edits move
it. -/
theorem Edits.kept {rows rows' : List String} (h : Edits rows rows' move) :
    Kept rows rows' move := by
  induction h with
  | refl => exact fun k row hGet => ⟨k, row, rfl, hGet, rfl⟩
  | step first last ih =>
      intro k row hGet
      obtain ⟨k', row', hMove, hGet', hContent⟩ := ih k row hGet
      obtain ⟨k'', row'', hNext, hGet'', hLast⟩ := last.kept k' row' hGet'
      exact ⟨k'', row'', by rw [Function.comp_apply, hMove, hNext], hGet'',
        hLast.trans hContent⟩

/-! ## Readers and line numbers -/

/-- The reader from the contents of the lines on. -/
def readContents [NumberText α] (file : Option String) (cs : List Content) :
    Except (GrammarError α) (Grammar α) := do
  let (symbols, rest) ← takeNumber file "symbols" cs
  let (al, rest) ← addDefinitions file symbols.toNat .initial rest
  let (rules, rest) ← takeNumber file "rules" rest
  addStatements file rules.toNat (empty al) rest

theorem ofLabelLines_eq [NumberText α] (rows : List String)
    (file : Option String) : (ofLabelLines rows file :
      Except (GrammarError α) (Grammar α)) =
        readContents file (contents 1 rows) :=
  rfl

section Moved

theorem takeNumber_moved (what : String) (cs : List Content)
    (hZero : move 0 = 0) :
    (takeNumber file what (cs.map (·.moved move)) :
      Except (GrammarError α) (Int × List Content)) =
      ((takeNumber file what cs).map
        (fun (n, rest) => (n, rest.map (·.moved move)))).mapError
          (·.moved move) := by
  cases cs with
  | nil =>
      show Except.error _ = Except.error (GrammarError.mk _ _ (move 0))
      rw [hZero]
  | cons c rest =>
      rw [List.map_cons, takeNumber, takeNumber, Content.moved]
      cases readInt? c.text <;> rfl

theorem addDefinition_moved (al : Alphabet) (c : Content) :
    (addDefinition file al (c.moved move) :
      Except (GrammarError α) Alphabet) =
      (addDefinition file al c).mapError (·.moved move) := by
  simp only [addDefinition, Content.moved]
  split
  · split
    · rfl
    · split <;> rfl
  · rfl

theorem nextContent_moved (cs : List Content) (hZero : move 0 = 0) :
    nextContent (cs.map (·.moved move)) =
      ((nextContent cs).1.moved move,
        (nextContent cs).2.map (·.moved move)) := by
  cases cs with
  | nil =>
      show (Content.mk 0 [], []) = (Content.mk (move 0) [], [])
      rw [hZero]
  | cons c rest => rfl

theorem addDefinitions_moved (hZero : move 0 = 0) (n : Nat) :
    ∀ (al : Alphabet) (cs : List Content),
      (addDefinitions file n al (cs.map (·.moved move)) :
        Except (GrammarError α) (Alphabet × List Content)) =
        ((addDefinitions file n al cs).map
          (fun (al, rest) => (al, rest.map (·.moved move)))).mapError
            (·.moved move) := by
  induction n with
  | zero => exact fun al cs => rfl
  | succ n ih =>
      intro al cs
      rw [addDefinitions, addDefinitions, nextContent_moved cs hZero]
      dsimp only
      rw [addDefinition_moved]
      cases addDefinition file al (nextContent cs).1 with
      | error e => rfl
      | ok extended => exact ih extended (nextContent cs).2

variable [NumberText α]

theorem addStatement_moved (g : Grammar α) (c : Content) :
    addStatement file g (c.moved move) =
      (addStatement file g c).mapError (·.moved move) := by
  unfold addStatement
  rw [Content.moved]
  dsimp only
  split
  · split
    · rfl
    · split
      · rfl
      · rename_i r _
        unfold addRule
        cases ruleFault? g.alphabet r <;> rfl
  · rfl

theorem addStatements_moved (hZero : move 0 = 0) (n : Nat) :
    ∀ (g : Grammar α) (cs : List Content),
      addStatements file n g (cs.map (·.moved move)) =
        (addStatements file n g cs).mapError (·.moved move) := by
  induction n with
  | zero => exact fun g cs => rfl
  | succ n ih =>
      intro g cs
      rw [addStatements, addStatements, nextContent_moved cs hZero]
      dsimp only
      rw [addStatement_moved]
      cases addStatement file g (nextContent cs).1 with
      | error e => rfl
      | ok extended => exact ih extended (nextContent cs).2

/-- If the lines have other numbers then so do the errors, and nothing else
changes. -/
theorem readContents_moved (hZero : move 0 = 0) (cs : List Content) :
    (readContents file (cs.map (·.moved move)) :
      Except (GrammarError α) (Grammar α)) =
        (readContents file cs).mapError (·.moved move) := by
  unfold readContents
  rw [takeNumber_moved "symbols" cs hZero]
  refine bind_mapError fun (symbols, rest) => ?_
  dsimp only
  rw [addDefinitions_moved hZero]
  refine bind_mapError fun (al, rest) => ?_
  dsimp only
  rw [takeNumber_moved "rules" rest hZero]
  exact bind_mapError fun (rules, rest) =>
    addStatements_moved hZero rules.toNat (empty al) rest

end Moved

/-! ## Where a text is refused -/

/-- Where an error stands: nowhere if the text ended too early, and otherwise
in one of the lines. -/
def IsAt (cs : List Content) (e : GrammarError α) : Prop :=
  e.line = 0 ∧ e.cause.isEarlyEnd = true ∨
    ∃ c ∈ cs, e.line = c.line ∧ e.cause.isEarlyEnd = false

theorem IsAt.mono {cs ds : List Content} {e : GrammarError α}
    (h : IsAt cs e) (hSub : cs ⊆ ds) : IsAt ds e := by
  rcases h with hEnd | ⟨c, hc, hLine⟩
  · exact .inl hEnd
  · exact .inr ⟨c, hSub hc, hLine⟩

/-- An error in the next line, or in the empty line that stands for it at the
end of the text. -/
theorem isAt_of_nextContent {cs : List Content} {e : GrammarError α}
    (hText : ∀ c ∈ cs, c.text ≠ []) (hLine : e.line = (nextContent cs).1.line)
    (hCause : e.cause.isEarlyEnd = (nextContent cs).1.text.isEmpty) :
    IsAt cs e := by
  cases cs with
  | nil => exact .inl ⟨hLine, hCause⟩
  | cons c rest =>
      have hNe : c.text.isEmpty = false := by
        simpa using hText c (by simp)
      exact .inr ⟨c, by simp, hLine, by rw [hCause, ← hNe]; rfl⟩

theorem nextContent_subset (cs : List Content) :
    (nextContent cs).2 ⊆ cs := by
  cases cs with
  | nil => exact List.Subset.refl []
  | cons c rest => exact List.subset_cons_self c rest

theorem isAt_of_takeNumber {what : String} {cs : List Content}
    {e : GrammarError α} (h : takeNumber file what cs = .error e) :
    IsAt cs e := by
  unfold takeNumber at h
  split at h
  · cases h
    exact .inl ⟨rfl, rfl⟩
  · rename_i c rest
    split at h
    · cases h
    · cases h
      exact .inr ⟨c, by simp, rfl, rfl⟩

theorem subset_of_takeNumber {what : String} {cs rest : List Content} {n : Int}
    (h : (takeNumber file what cs : Except (GrammarError α) _) =
      .ok (n, rest)) : rest ⊆ cs := by
  unfold takeNumber at h
  split at h
  · cases h
  · rename_i c rest
    split at h
    · cases h
      exact List.subset_cons_self c rest
    · cases h

theorem isEmpty_ofList (s : List Char) :
    (String.ofList s).isEmpty = s.isEmpty := by
  rw [Bool.eq_iff_iff, String.isEmpty_iff, List.isEmpty_iff,
    ← String.toList_inj, String.toList_ofList]
  rfl

/-- A definition is refused at its own line, and as empty only if it is. -/
theorem addDefinition_eq_error {al : Alphabet} {c : Content}
    {e : GrammarError α} (h : addDefinition file al c = .error e) :
    e.line = c.line ∧ e.cause.isEarlyEnd = c.text.isEmpty := by
  simp only [addDefinition] at h
  split at h
  · rename_i kind label rest hFields
    have hNe : c.text.isEmpty = false := by
      cases hText : c.text with
      | nil =>
          rw [hText] at hFields
          cases hFields
      | cons _ _ => rfl
    split at h
    · cases h
      exact ⟨rfl, isEmpty_ofList c.text⟩
    · split at h
      · cases h
      · cases h
        exact ⟨rfl, hNe.symm⟩
  · cases h
    exact ⟨rfl, isEmpty_ofList c.text⟩

theorem isAt_of_addDefinitions {n : Nat} :
    ∀ {al : Alphabet} {cs : List Content} {e : GrammarError α},
      (∀ c ∈ cs, c.text ≠ []) → addDefinitions file n al cs = .error e →
        IsAt cs e := by
  induction n with
  | zero =>
      intro al cs e hText h
      cases h
  | succ n ih =>
      intro al cs e hText h
      have hSub := nextContent_subset cs
      rcases bind_eq_error.1 h with h | ⟨extended, -, h⟩
      · obtain ⟨hLine, hCause⟩ := addDefinition_eq_error h
        exact isAt_of_nextContent hText hLine hCause
      · exact (ih (fun c hc => hText c (hSub hc)) h).mono hSub

theorem subset_of_addDefinitions {n : Nat} :
    ∀ {al extended : Alphabet} {cs rest : List Content},
      (addDefinitions file n al cs : Except (GrammarError α) _) =
        .ok (extended, rest) → rest ⊆ cs := by
  induction n with
  | zero =>
      intro al extended cs rest h
      cases h
      exact List.Subset.refl cs
  | succ n ih =>
      intro al extended cs rest h
      obtain ⟨mid, -, h⟩ := bind_eq_ok.1 h
      exact List.Subset.trans (ih h) (nextContent_subset cs)

variable [NumberText α]

/-- A statement is refused at its own line, and as empty only if it is. -/
theorem addStatement_eq_error {g : Grammar α} {c : Content}
    {e : GrammarError α} (h : addStatement file g c = .error e) :
    e.line = c.line ∧ e.cause.isEarlyEnd = c.text.isEmpty := by
  unfold addStatement at h
  split at h
  · rename_i probability lhs rhs hWords
    have hNe : c.text.isEmpty = false := by
      cases hText : c.text with
      | nil =>
          rw [hText, words_nil] at hWords
          cases hWords
      | cons _ _ => rfl
    split at h
    · cases h
      exact ⟨rfl, hNe.symm⟩
    · split at h
      · cases h
        exact ⟨rfl, hNe.symm⟩
      · obtain ⟨fault, hFault, rfl⟩ := mapError_eq_error.1 h
        obtain ⟨cause, hCause, rfl⟩ := addRule_eq_error_iff.1 hFault
        rw [hNe]
        rcases ruleFault?_cases hCause with ⟨id, rfl⟩ | ⟨label, rfl⟩
        · exact ⟨rfl, rfl⟩
        · exact ⟨rfl, rfl⟩
  · cases h
    exact ⟨rfl, isEmpty_ofList c.text⟩

theorem isAt_of_addStatements {n : Nat} :
    ∀ {g : Grammar α} {cs : List Content} {e : GrammarError α},
      (∀ c ∈ cs, c.text ≠ []) → addStatements file n g cs = .error e →
        IsAt cs e := by
  induction n with
  | zero =>
      intro g cs e hText h
      cases h
  | succ n ih =>
      intro g cs e hText h
      have hSub := nextContent_subset cs
      rcases bind_eq_error.1 h with h | ⟨extended, -, h⟩
      · obtain ⟨hLine, hCause⟩ := addStatement_eq_error h
        exact isAt_of_nextContent hText hLine hCause
      · exact (ih (fun c hc => hText c (hSub hc)) h).mono hSub

/-- A refusal without a line is one of a text that ends too early. -/
theorem isAt_of_readContents {cs : List Content} {e : GrammarError α}
    (hText : ∀ c ∈ cs, c.text ≠ []) (h : readContents file cs = .error e) :
    IsAt cs e := by
  rcases bind_eq_error.1 h with h | ⟨⟨symbols, cs₁⟩, hSymbols, h⟩
  · exact isAt_of_takeNumber h
  have hSub₁ : cs₁ ⊆ cs := subset_of_takeNumber hSymbols
  have hText₁ : ∀ c ∈ cs₁, c.text ≠ [] := fun c hc => hText c (hSub₁ hc)
  rcases bind_eq_error.1 h with h | ⟨⟨al, cs₂⟩, hAl, h⟩
  · exact (isAt_of_addDefinitions hText₁ h).mono hSub₁
  have hSub₂ : cs₂ ⊆ cs :=
    List.Subset.trans (subset_of_addDefinitions hAl) hSub₁
  rcases bind_eq_error.1 h with h | ⟨⟨rules, cs₃⟩, hRules, h⟩
  · exact (isAt_of_takeNumber h).mono hSub₂
  have hSub₃ : cs₃ ⊆ cs :=
    List.Subset.trans (subset_of_takeNumber hRules) hSub₂
  exact (isAt_of_addStatements (fun c hc => hText c (hSub₃ hc)) h).mono hSub₃

/-! ## Main result -/

/-- A text with other blanks and comments stands for the same grammar, or it is
refused for the same reason: in the line to which the edits moved the one that
is to blame, or without a line if the text ended too early. -/
theorem ofLabelLines_edits {rows rows' : List String}
    (h : Edits rows rows' move) (file : Option String) :
    (∀ g : Grammar α, ofLabelLines rows file = .ok g →
      ofLabelLines rows' file = .ok g) ∧
    ∀ e : GrammarError α, ofLabelLines rows file = .error e →
      ofLabelLines rows' file = .error ⟨e.cause, e.file, move e.line⟩ ∧
      (e.line = 0 ∧ move e.line = 0 ∧ e.cause.isEarlyEnd = true ∨
        ∃ k row k' row', e.line = k + 1 ∧ rows[k]? = some row ∧
          move e.line = k' + 1 ∧ rows'[k']? = some row' ∧
          lineContent row' = lineContent row ∧ e.cause.isEarlyEnd = false) := by
  have hRead : ofLabelLines rows' file =
      (ofLabelLines rows file : Except (GrammarError α) (Grammar α)).mapError
        (·.moved move) := by
    rw [ofLabelLines_eq, h.contents_eq, readContents_moved h.move_zero]
    rfl
  constructor
  · intro g hOk
    rw [hRead, hOk]
    rfl
  · intro e hError
    refine ⟨by rw [hRead, hError]; rfl, ?_⟩
    have hText : ∀ c ∈ contents 1 rows, c.text ≠ [] := by
      intro c hc
      obtain ⟨k, row, -, rfl, hNe⟩ := exists_of_mem_contents hc
      exact hNe
    rcases isAt_of_readContents hText hError with
      ⟨hLine, hEnd⟩ | ⟨c, hc, hLine, hCause⟩
    · exact .inl ⟨hLine, by rw [hLine, h.move_zero], hEnd⟩
    · obtain ⟨k, row, hGet, rfl, -⟩ := exists_of_mem_contents hc
      obtain ⟨k', row', hMove, hGet', hContent⟩ := h.kept k row hGet
      have hNumber : e.line = k + 1 := by
        rw [hLine]
        exact Nat.add_comm 1 k
      exact .inr ⟨k, row, k', row', hNumber, hGet, by rw [hNumber, hMove],
        hGet', hContent, hCause⟩

/-- The lines of a text with a rule whose probability is no number. -/
def doubtful : List String := ["1", "1 a", "1", "half S a"]

/-- The same lines with a comment line, a blank line, blanks and a comment. -/
def doubtfulSpaced : List String :=
  ["# symbols", "  1", "1 a", "", "1", "half S a \t# rule"]

theorem edits_doubtful : Edits doubtful doubtfulSpaced
    (id ∘ id ∘ behind 3 ∘ id ∘ behind 0 ∘ id) := by
  have hBlank : AllBlank "" := by decide
  have hTwo : AllBlank "  " := by decide
  have hMixed : AllBlank " \t" := by decide
  have hComment := (Edits.refl doubtful).step
    (.commentLine [] doubtful hBlank " symbols")
  have hLeading := hComment.step
    (.leading ["# symbols"] ["1 a", "1", "half S a"] "1" hTwo)
  have hLine := hLeading.step
    (.blankLine ["# symbols", "  1", "1 a"] ["1", "half S a"] hBlank)
  have hTrailing := hLine.step
    (.trailing ["# symbols", "  1", "1 a", "", "1"] [] "half S a" hMixed)
  exact hTrailing.step (.comment ["# symbols", "  1", "1 a", "", "1"] []
    "half S a \t" " rule")

/-- The error moves from the fourth line to the sixth. -/
theorem ofLabelLines_edits_doubtful : ∃ e : GrammarError Float,
    e.line = 4 ∧ e.message = "Line 4: Invalid probability 'half'" ∧
      ofLabelLines doubtful none = .error e ∧
      ofLabelLines doubtfulSpaced none = .error ⟨e.cause, e.file, 6⟩ := by
  have hParts : (errorOf? (ofLabelLines doubtful none :
      Except (GrammarError Float) (Grammar Float))).map
        (fun e => (e.line, e.message)) =
          some (4, "Line 4: Invalid probability 'half'") := by
    decide +kernel
  obtain ⟨e, hError, hText⟩ := Option.map_eq_some_iff.1 hParts
  obtain ⟨hLine, hMessage⟩ := Prod.mk.inj hText
  have hRead := errorOf?_eq_some_iff.1 hError
  have hMoved := ((ofLabelLines_edits edits_doubtful none).2 e hRead).1
  rw [hLine] at hMoved
  exact ⟨e, hLine, hMessage, hRead, hMoved⟩

end Grammar

end StochasticGrammar
