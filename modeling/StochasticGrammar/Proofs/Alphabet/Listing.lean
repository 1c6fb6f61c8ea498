import StochasticGrammar.Alphabet.Listing
import StochasticGrammar.Proofs.Grammar.Reading
import StochasticGrammar.Proofs.Text.Cutting

/-!
# Symbol lines are read as they are written

A symbol line holds a number, a label and perhaps a description.  The reader
trims the line, cuts it at the first two spaces and trims the description.  So a
symbol comes back from its line if

* its number is read as it is written,
* its label has no space and no line break, and does not end in a blank unless
  a description follows (it may be empty if one does, and it may hold a tab),
* its description, if there is one, is not empty, neither begins nor ends with
  a blank, and has no line break.

These conditions are `Symbol.Storable`.  A symbol that was read from one line
meets all of them, whatever the line was.

The number that the next symbol gets is not written.  It is the least one that
is larger than all numbers in use and not negative, `NextIsLeast`, so the
symbols determine it.

Main results: `readSymbolLine_symbolLine`, `storable_of_readSymbolLine`,
`ofLines_symbolLines`.
-/

namespace StochasticGrammar

open Text

/-- A symbol that survives being written and read. -/
structure Symbol.Storable (s : Symbol) : Prop where
  id : readInt? (writeInt s.id) = some s.id
  space_notMem : ' ' ∉ s.label.toList
  oneLine : OneLine s.label.toList
  label_end : s.description = none →
    ∃ c ∈ s.label.toList.getLast?, isBlank c = false
  description : ∀ d ∈ s.description, Trimmed d.toList ∧ OneLine d.toList

namespace Alphabet

/-- A label of an added symbol is one word. -/
theorem isLabel_iff {label : String} :
    isLabel label = true ↔ IsWord label.toList := by
  unfold isLabel
  rw [Bool.and_eq_true, Bool.not_eq_true', Bool.not_eq_true',
    List.isEmpty_eq_false_iff, List.any_eq_false]
  constructor
  · rintro ⟨hNe, hPlain⟩
    exact ⟨hNe, fun c hc => by simpa using hPlain c hc⟩
  · intro h
    exact ⟨h.ne_nil, fun c hc => by simp [h.not_blank c hc]⟩

/-! ## One symbol -/

theorem shownDescription_eq {s : Symbol}
    (h : ∀ d ∈ s.description, d.toList ≠ []) :
    shownDescription s = s.description := by
  rw [shownDescription]
  cases hDescription : s.description with
  | none => rfl
  | some d =>
      have hNe : d ≠ "" := by
        rintro rfl
        exact h "" hDescription rfl
      simp [Option.filter, hNe]

/-- What follows the number and a space in the line of a symbol. -/
def lineTail (s : Symbol) : List Char :=
  s.label.toList ++ s.description.elim [] (' ' :: ·.toList)

/-- The characters of a symbol line. -/
theorem toList_symbolLine {s : Symbol} (h : s.Storable) :
    (symbolLine s).toList = writeInt s.id ++ ' ' :: lineTail s := by
  have hShown := shownDescription_eq fun d hd => (h.description d hd).1.ne_nil
  rw [symbolLine, hShown, lineTail]
  cases s.description <;> simp [intText]

/-- The line of a symbol does not end in a blank. -/
theorem exists_getLast?_lineTail {s : Symbol} (h : s.Storable) :
    ∃ c ∈ (lineTail s).getLast?, isBlank c = false := by
  rw [lineTail]
  cases hDescription : s.description with
  | none =>
      rw [Option.elim_none, List.append_nil]
      exact h.label_end hDescription
  | some d =>
      have hd := (h.description d hDescription).1
      have hLast := List.getLast?_eq_some_getLast hd.ne_nil
      refine ⟨d.toList.getLast hd.ne_nil, ?_,
        (trim_eq_self_iff.1 hd.trim_eq).2 _ hLast⟩
      rw [Option.elim_some, List.getLast?_append, List.getLast?_cons, hLast]
      rfl

theorem trim_symbolLine {s : Symbol} (h : s.Storable) :
    trim (symbolLine s).toList = (symbolLine s).toList := by
  have hId := isWord_writeInt s.id
  rw [toList_symbolLine h, trim_eq_self_iff]
  constructor
  · intro c hc
    rw [List.head?_append_of_ne_nil _ hId.ne_nil] at hc
    exact hId.not_blank c (List.mem_of_mem_head? hc)
  · obtain ⟨last, hLast, hBlank⟩ := exists_getLast?_lineTail h
    intro c hc
    rw [List.getLast?_append, List.getLast?_cons, Option.mem_def.1 hLast] at hc
    cases hc
    exact hBlank

/-- A symbol is read from its line as it was. -/
theorem readSymbolLine_symbolLine {s : Symbol} (h : s.Storable) :
    readSymbolLine (symbolLine s) = .ok s := by
  have hCut := splitSpaces_append (isWord_writeInt s.id).space_notMem 1
    (lineTail s)
  unfold readSymbolLine
  rw [trim_symbolLine h, toList_symbolLine h, hCut, lineTail]
  obtain ⟨id, label, description⟩ := s
  cases description with
  | none =>
      rw [Option.elim_none, List.append_nil,
        splitSpaces_of_notMem h.space_notMem]
      simp [h.id]
  | some d =>
      have hd := (h.description d rfl).1
      rw [Option.elim_some, splitSpaces_append h.space_notMem]
      simp [h.id, splitSpaces, hd.trim_eq, nonempty?, hd.ne_nil]

/-- The line of a symbol is one line. -/
theorem oneLine_symbolLine {s : Symbol} (h : s.Storable) :
    OneLine (symbolLine s).toList := by
  have hSpace : ∀ {t}, OneLine t → OneLine (' ' :: t) := by
    intro t ht c hc
    rcases List.mem_cons.1 hc with rfl | hc
    · decide
    · exact ht c hc
  rw [toList_symbolLine h, lineTail]
  refine (isWord_writeInt s.id).oneLine.append (hSpace (h.oneLine.append ?_))
  cases hDescription : s.description with
  | none => simp [OneLine]
  | some d => exact hSpace (h.description d hDescription).2

/-- What a line from which a symbol is read looks like. -/
theorem readSymbolLine_cases {line : String} {s : Symbol}
    (h : readSymbolLine line = .ok s) :
    ∃ first rest, trim line.toList = first ++ ' ' :: rest ∧
      readInt? first = some s.id ∧ ' ' ∉ s.label.toList ∧
        (rest = s.label.toList ∧ s.description = none ∨
          ∃ d, rest = s.label.toList ++ ' ' :: d ∧
            s.description = nonempty? (trim d)) := by
  unfold readSymbolLine at h
  rcases splitSpaces_succ_cases 1 (trim line.toList) with
    ⟨_, hSplit⟩ | ⟨first, rest, _, hTrim, hSplit⟩
  · rw [hSplit] at h
    cases h
  · refine ⟨first, rest, hTrim, ?_⟩
    rw [hSplit] at h
    rcases splitSpaces_succ_cases 0 rest with
      ⟨hSpace, hSplit⟩ | ⟨label, d, hSpace, rfl, hSplit⟩
    · cases hId : readInt? first with
      | none => simp [hSplit, hId] at h
      | some id =>
          simp only [hSplit, hId, Except.ok.injEq] at h
          subst h
          simp [hSpace]
    · cases hId : readInt? first with
      | none => simp [hSplit, hId] at h
      | some id =>
          simp only [hSplit, hId, Except.ok.injEq] at h
          subst h
          simp [hSpace, splitSpaces]

/-- What follows the first space of a trimmed text does not end in a blank. -/
theorem exists_getLast?_of_trim {s first rest : List Char}
    (h : trim s = first ++ ' ' :: rest) :
    ∃ c ∈ rest.getLast?, isBlank c = false := by
  have hEnd := (trim_eq_self_iff.1 (trim_trim s)).2
  rw [h, List.getLast?_append, List.getLast?_cons] at hEnd
  cases hLast : rest.getLast? with
  | none =>
      have hSpace : isBlank ' ' = false := hEnd ' ' (by simp [hLast])
      exact absurd hSpace (by decide)
  | some c => exact ⟨c, rfl, hEnd c (by simp [hLast])⟩

/-- A symbol that was read from one line can be written. -/
theorem storable_of_readSymbolLine {line : String} {s : Symbol}
    (hLine : OneLine line.toList) (h : readSymbolLine line = .ok s) :
    s.Storable := by
  obtain ⟨first, rest, hTrim, hId, hSpace, hRest⟩ := readSymbolLine_cases h
  obtain ⟨last, hLast, hBlank⟩ := exists_getLast?_of_trim hTrim
  have hPart : ∀ c ∈ rest, isLineBreak c = false := by
    intro c hc
    exact hLine c (mem_of_mem_trim (by simp [hTrim, hc]))
  rcases hRest with ⟨rfl, hNone⟩ | ⟨d, rfl, hSome⟩
  · exact {
      id := readInt?_writeInt (isWritable_of_readInt? hId)
      space_notMem := hSpace
      oneLine := hPart
      label_end := fun _ => ⟨last, hLast, hBlank⟩
      description := by simp [hNone] }
  · have hBoth : trim line.toList =
        (first ++ ' ' :: s.label.toList) ++ ' ' :: d := by
      rw [hTrim, List.append_assoc, List.cons_append]
    obtain ⟨c, hc, hPlain⟩ := exists_getLast?_of_trim hBoth
    have hNe : trim d ≠ [] := trim_ne_nil (List.mem_of_mem_getLast? hc) hPlain
    have hDescription : s.description = some (String.ofList (trim d)) := by
      rw [hSome, nonempty?, if_neg (by simpa using hNe)]
    have hLine : OneLine (trim d) :=
      fun x hx => hPart x (by simp [mem_of_mem_trim hx])
    exact {
      id := readInt?_writeInt (isWritable_of_readInt? hId)
      space_notMem := hSpace
      oneLine := fun x hx => hPart x (by simp [hx])
      label_end := by simp [hDescription]
      description := by
        simpa [hDescription] using ⟨trimmed_trim hNe, hLine⟩ }

/-! ## All symbols -/

/-- Alphabets with the same rows are the same if neither skips numbers. -/
theorem eq_of_row_eq {al bl : Alphabet} (hal : al.NextIsLeast)
    (hbl : bl.NextIsLeast) (hAl : ∀ s ∈ al.symbols, s.id < al.nextId)
    (hBl : ∀ s ∈ bl.symbols, s.id < bl.nextId)
    (h : ∀ c, al.row c = bl.row c) : al = bl := by
  have hNonterminals : al.nonterminals = bl.nonterminals := h .nonterminal
  have hTerminals : al.terminals = bl.terminals := h .terminal
  have hSymbols : al.symbols = bl.symbols := by
    rw [symbols, symbols, hNonterminals, hTerminals]
  have hNext : al.nextId = bl.nextId := by
    have hLe := hal.le bl.nextId hbl.nonneg (hSymbols ▸ hBl)
    have hGe := hbl.le al.nextId hal.nonneg (hSymbols ▸ hAl)
    exact Int.le_antisymm hLe hGe
  cases al
  cases bl
  simp_all

theorem NextIsLeast.insertLines {al extended : Alphabet} {c : Category}
    {rows : List String} (h : al.NextIsLeast)
    (hInsert : al.insertLines c rows = .ok extended) :
    extended.NextIsLeast := by
  refine foldlM_preserves (p := NextIsLeast) (fun hal hStep => ?_) h hInsert
  obtain ⟨s, _, hStep⟩ := bind_eq_ok.1 hStep
  exact hal.insert hStep

/-- The lines of new symbols add these symbols to their row. -/
theorem insertLines_symbolLines {c : Category} {ss : List Symbol} :
    ∀ (al : Alphabet), (∀ s ∈ ss, s.Storable) →
      ((al.symbols ++ ss).map (·.id)).Nodup →
      ((al.symbols ++ ss).map (·.label)).Nodup →
      ∃ extended, al.insertLines c (ss.map symbolLine) = .ok extended ∧
        extended.row c = al.row c ++ ss ∧
          ∀ d ≠ c, extended.row d = al.row d := by
  induction ss with
  | nil =>
      intro al _ _ _
      exact ⟨al, rfl, by simp, fun _ _ => rfl⟩
  | cons s ss ih =>
      intro al hStorable hIds hLabels
      have hPerm : (al.symbols ++ s :: ss).Perm ((al.push c s).symbols ++ ss) :=
        List.perm_middle.trans ((perm_symbols_push al c s).symm.append_right ss)
      have hNew : al.insert c s = .ok (al.push c s) := by
        have hIdsNew := (List.nodup_append.1 (List.map_append ▸ hIds)).2.2
        have hLabelsNew := (List.nodup_append.1 (List.map_append ▸ hLabels)).2.2
        rw [insert_eq_ok_iff, Bool.eq_false_iff, Bool.eq_false_iff, Ne, Ne,
          hasLabel_iff, hasId_iff]
        refine ⟨?_, ?_, rfl⟩
        · rintro ⟨t, ht, hEq⟩
          exact hLabelsNew _ (List.mem_map.2 ⟨t, ht, rfl⟩) _ (by simp) hEq
        · rintro ⟨t, ht, hEq⟩
          exact hIdsNew _ (List.mem_map.2 ⟨t, ht, rfl⟩) _ (by simp) hEq
      obtain ⟨extended, hInsert, hRow, hOther⟩ := ih (al.push c s)
        (fun t ht => hStorable t (by simp [ht]))
        ((hPerm.map _).nodup_iff.1 hIds) ((hPerm.map _).nodup_iff.1 hLabels)
      refine ⟨extended, ?_, ?_, ?_⟩
      · rw [insertLines, List.map_cons, List.foldlM_cons,
          readSymbolLine_symbolLine (hStorable s (by simp))]
        simp only [bind, Except.bind, hNew]
        exact hInsert
      · rw [hRow, row_push, List.append_assoc, List.singleton_append]
      · intro d hd
        rw [hOther d hd, row_push_of_ne al s hd]

/-- Lines that were each cut off at a line break give symbols that can be
written. -/
theorem storable_of_insertLines {al extended : Alphabet} {c : Category}
    {rows : List String} (hRows : ∀ row ∈ rows, OneLine row.toList)
    (hal : ∀ s ∈ al.symbols, s.Storable)
    (h : al.insertLines c rows = .ok extended) :
    ∀ s ∈ extended.symbols, s.Storable := by
  refine foldlM_preserves_of_mem (p := fun al => ∀ s ∈ symbols al, s.Storable)
    (fun row hRow al extended hal hStep => ?_) hal h
  obtain ⟨s, hRead, hStep⟩ := bind_eq_ok.1 hStep
  obtain ⟨_, _, rfl⟩ := insert_eq_ok_iff.1 hStep
  intro t ht
  rcases mem_symbols_push.1 ht with rfl | ht
  · exact storable_of_readSymbolLine (hRows row hRow) hRead
  · exact hal t ht

/-- An alphabet that can be written, as the lines of its symbols. -/
structure Storable (al : Alphabet) : Prop where
  wellFormed : al.WellFormed
  nextIsLeast : al.NextIsLeast
  symbols : ∀ s ∈ al.symbols, s.Storable

/-- What is read from lines can be written as lines. -/
theorem storable_of_ofLines {nonterminals terminals : List String}
    {al : Alphabet} (hNonterminals : ∀ row ∈ nonterminals, OneLine row.toList)
    (hTerminals : ∀ row ∈ terminals, OneLine row.toList)
    (h : ofLines nonterminals terminals = .ok al) : al.Storable := by
  have hWellFormed := wellFormed_ofLines h
  obtain ⟨first, hFirst, h⟩ := bind_eq_ok.1 h
  obtain ⟨last, hLast, h⟩ := bind_eq_ok.1 h
  obtain ⟨_, _, h⟩ := bind_eq_ok.1 h
  obtain ⟨_, _, h⟩ := bind_eq_ok.1 h
  cases h
  have hSymbols := storable_of_insertLines hNonterminals
    (by simp [empty, Alphabet.symbols]) hFirst
  exact ⟨hWellFormed, (nextIsLeast_empty.insertLines hFirst).insertLines hLast,
    storable_of_insertLines hTerminals hSymbols hLast⟩

/-- Every line adds one symbol to the row of its category. -/
theorem row_of_insertLines {c : Category} {rows : List String} :
    ∀ {al extended : Alphabet}, al.insertLines c rows = .ok extended →
      (extended.row c).length = (al.row c).length + rows.length ∧
        ∀ d ≠ c, extended.row d = al.row d := by
  induction rows with
  | nil =>
      intro al extended h
      cases h
      exact ⟨rfl, fun _ _ => rfl⟩
  | cons row rows ih =>
      intro al extended h
      rw [insertLines, List.foldlM_cons] at h
      obtain ⟨mid, hMid, h⟩ := bind_eq_ok.1 h
      obtain ⟨s, _, hInsert⟩ := bind_eq_ok.1 hMid
      obtain ⟨_, _, rfl⟩ := insert_eq_ok_iff.1 hInsert
      obtain ⟨hLength, hOther⟩ := ih h
      constructor
      · rw [hLength, row_push, List.length_append, List.length_singleton,
          List.length_cons]
        omega
      · intro d hd
        rw [hOther d hd, row_push_of_ne al s hd]

theorem length_of_ofLines {nonterminals terminals : List String}
    {al : Alphabet} (h : ofLines nonterminals terminals = .ok al) :
    al.nonterminals.length = nonterminals.length ∧
      al.terminals.length = terminals.length := by
  obtain ⟨first, hFirst, h⟩ := bind_eq_ok.1 h
  obtain ⟨last, hLast, h⟩ := bind_eq_ok.1 h
  obtain ⟨_, _, h⟩ := bind_eq_ok.1 h
  obtain ⟨_, _, h⟩ := bind_eq_ok.1 h
  cases h
  obtain ⟨hNonterminals, hNone⟩ := row_of_insertLines hFirst
  obtain ⟨hTerminals, hSame⟩ := row_of_insertLines hLast
  have hRow : al.nonterminals = first.nonterminals :=
    hSame .nonterminal (by simp)
  have hEmpty : first.terminals = [] := hNone .terminal (by simp)
  rw [row, row, hEmpty] at hTerminals
  constructor
  · rw [hRow]
    simpa [row, empty] using hNonterminals
  · simpa using hTerminals

theorem requireReserved_eq_ok {al : Alphabet} {c : Category} {id : SymbolId}
    (label : String) (h : id ∈ al.ids c) :
    al.requireReserved c id label = .ok () := by
  obtain ⟨s, hs, rfl⟩ := List.mem_map.1 h
  rw [requireReserved, if_pos (List.any_eq_true.2 ⟨s, hs, by simp⟩)]

/-- An alphabet is read from its lines as it was. -/
theorem ofLines_symbolLines {al : Alphabet} (h : al.Storable) :
    ofLines (al.symbolLines .nonterminal) (al.symbolLines .terminal) =
      .ok al := by
  have hIds := h.wellFormed.nodup_ids
  have hLabels := h.wellFormed.nodup_labels
  have hFront : (empty.symbols ++ al.nonterminals).Sublist al.symbols :=
    List.sublist_append_left al.nonterminals al.terminals
  obtain ⟨first, hFirst, hRow, hOther⟩ :=
    insertLines_symbolLines (c := .nonterminal) empty
      (fun s hs => h.symbols s (List.mem_append_left _ hs))
      (hIds.sublist (hFront.map _)) (hLabels.sublist (hFront.map _))
  have hTerminals : first.terminals = [] := hOther .terminal (by simp)
  have hNonterminals : first.nonterminals = al.nonterminals := hRow
  have hSymbols : first.symbols ++ al.terminals = al.symbols := by
    rw [Alphabet.symbols, Alphabet.symbols, hTerminals, hNonterminals,
      List.append_nil]
  obtain ⟨last, hLast, hRow, hOther⟩ :=
    insertLines_symbolLines (c := .terminal) first
      (fun s hs => h.symbols s (List.mem_append_right _ hs))
      (hSymbols ▸ hIds) (hSymbols ▸ hLabels)
  have hEq : last = al := by
    have hNone : empty.Distinct := by
      constructor <;> decide
    have hDistinct := (hNone.insertLines hFirst).insertLines hLast
    refine eq_of_row_eq
      ((nextIsLeast_empty.insertLines hFirst).insertLines hLast)
      h.nextIsLeast hDistinct.lt_nextId h.wellFormed.lt_nextId fun c => ?_
    cases c with
    | nonterminal => exact (hOther .nonterminal (by simp)).trans hNonterminals
    | terminal =>
        rw [hRow, row, row, hTerminals, List.nil_append]
  subst hEq
  have hStart := requireReserved_eq_ok startLabel h.wellFormed.start_mem
  have hEmpty := requireReserved_eq_ok emptyLabel h.wellFormed.empty_mem
  rw [ofLines, symbolLines, symbolLines, row, row, hFirst]
  simp only [bind, Except.bind, hLast, hStart, hEmpty, pure, Except.pure]

end Alphabet

end StochasticGrammar
