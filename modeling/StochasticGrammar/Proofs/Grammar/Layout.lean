import StochasticGrammar.Proofs.Alphabet.Lookup
import StochasticGrammar.Proofs.Grammar.Comments
import StochasticGrammar.Proofs.Grammar.IdFormat

/-!
# What the format with labels says

A text in the format with labels is laid out as two counts, each with the lines
it counts: the definitions of the symbols and the rules.  A definition line
gives the category, the label and perhaps the description, a rule line the
probability and the labels of both sides, with single spaces between the
fields.

The reader makes of such a text what it says: the start symbol and the empty
string symbol have the numbers 0 and 1, the defined symbols the numbers that
follow, in order, and the rules come in the order of their lines.  Comments and
blank lines may be put in.

Main results: `ofLabelLines_layout`.
-/

namespace StochasticGrammar.Grammar

open Text

variable {α : Type} {file : Option String}

/-! ## The layout -/

/-- A symbol as a line defines it. -/
structure Definition where
  /-- The category. -/
  category : Category
  /-- The label. -/
  label : String
  /-- The description. -/
  description : Option String

/-- The field that stands for a category. -/
def categoryField : Category → String
  | .nonterminal => "0"
  | .terminal => "1"

/-- The fields of the line of a definition. -/
def Definition.fields (d : Definition) : List String :=
  categoryField d.category :: d.label :: d.description.toList

/-- A symbol that is defined by the `k`-th line, counted from 0; the first two
numbers belong to the reserved symbols. -/
def Definition.symbol (d : Definition) (k : Nat) : Symbol :=
  ⟨(k + 2 : Nat), d.label, d.description⟩

/-- The symbols of a category among those that are defined. -/
def symbolsOf (c : Category) (defs : List Definition) : List Symbol :=
  (defs.zipIdx.filter (·.1.category = c)).map fun (d, k) => d.symbol k

/-- The alphabet that definitions stand for. -/
def defined (defs : List Definition) : Alphabet where
  nonterminals := ⟨startId, startLabel, some "start symbol"⟩ ::
    symbolsOf .nonterminal defs
  terminals := ⟨emptyId, emptyLabel, some "empty string"⟩ ::
    symbolsOf .terminal defs
  nextId := (defs.length + 2 : Nat)

/-- The label of a symbol. -/
def labelAt (al : Alphabet) (id : SymbolId) : String :=
  ((al.find? id).map (·.label)).getD ""

/-- The fields of the line of a rule. -/
def statementFields [NumberText α] (al : Alphabet) (r : Rule α) :
    List String :=
  numberText r.probability :: labelAt al r.lhs :: r.rhs.map (labelAt al)

/-- The lines of a text in the format with labels. -/
def layout [NumberText α] (defs : List Definition) (rules : List (Rule α)) :
    List String :=
  block (defs.map fun d => " ".intercalate d.fields) ++
    block (rules.map fun r =>
      " ".intercalate (statementFields (defined defs) r))

/-! ## The alphabet of a list of definitions -/

theorem defined_append (defs : List Definition) (d : Definition) :
    defined (defs ++ [d]) =
      (defined defs).push d.category (d.symbol defs.length) := by
  have hNext : max (((defs.length + 2 : Nat) : Int))
      (((defs.length + 2 : Nat) : Int) + 1) =
        (((defs ++ [d]).length + 2 : Nat) : Int) := by
    rw [List.length_append, List.length_singleton]
    omega
  have hRow (c : Category) : symbolsOf c (defs ++ [d]) = symbolsOf c defs ++
      if d.category = c then [d.symbol defs.length] else [] := by
    unfold symbolsOf
    rw [List.zipIdx_append, List.filter_append, List.map_append]
    by_cases hc : d.category = c
    · simp [hc]
    · simp [hc]
  cases hCategory : d.category with
  | nonterminal =>
      simp only [defined, Alphabet.push, hRow, hCategory, Definition.symbol,
        hNext, if_true, reduceCtorEq, if_false, List.append_nil,
        List.cons_append]
  | terminal =>
      simp only [defined, Alphabet.push, hRow, hCategory, Definition.symbol,
        hNext, if_true, reduceCtorEq, if_false, List.append_nil,
        List.cons_append]

/-- The labels that a list of definitions leaves in use. -/
def names (defs : List Definition) : List String :=
  startLabel :: emptyLabel :: defs.map (·.label)

theorem names_append (defs more : List Definition) :
    names (defs ++ more) = names defs ++ more.map (·.label) := by
  simp [names]

theorem perm_labels_defined (defs : List Definition) :
    ((defined defs).symbols.map (·.label)).Perm (names defs) := by
  induction defs using List.reverseRecOn with
  | nil => exact List.Perm.refl _
  | append_singleton defs d ih =>
      have hPush := (Alphabet.perm_symbols_push (defined defs) d.category
        (d.symbol defs.length)).map (·.label)
      rw [defined_append, names_append]
      exact hPush.trans ((ih.cons d.label).trans
        (List.perm_append_singleton d.label (names defs)).symm)

theorem hasLabel_defined_iff {defs : List Definition} {label : String} :
    (defined defs).hasLabel label = true ↔ label ∈ names defs := by
  rw [Alphabet.hasLabel_iff, ← (perm_labels_defined defs).mem_iff,
    List.mem_map]

/-- A definition with a new label adds its symbol. -/
theorem add_definition {defs : List Definition} {d : Definition}
    (hAl : (defined defs).WellFormed) (hLabel : Alphabet.isLabel d.label = true)
    (hNew : d.label ∉ names defs) :
    (defined defs).add d.category d.label d.description =
      .ok ((defined defs).nextId, defined (defs ++ [d])) := by
  have hFree : (defined defs).hasLabel d.label = false := by
    rw [Bool.eq_false_iff, Ne, hasLabel_defined_iff]
    exact hNew
  exact Alphabet.add_eq_ok_iff.2 ⟨hLabel, rfl,
    Alphabet.insert_eq_ok_iff.2 ⟨hFree, hAl.hasId_nextId,
      defined_append defs d⟩⟩

theorem wellFormed_defined {defs : List Definition}
    (hLabel : ∀ d ∈ defs, Alphabet.isLabel d.label = true)
    (hNames : (names defs).Nodup) : (defined defs).WellFormed := by
  induction defs using List.reverseRecOn with
  | nil => exact Alphabet.wellFormed_initial
  | append_singleton defs d ih =>
      rw [names_append, List.nodup_append] at hNames
      obtain ⟨hOld, -, hNew⟩ := hNames
      have hAl := ih (fun x hx => hLabel x (by simp [hx])) hOld
      refine hAl.add (add_definition hAl (hLabel d (by simp)) ?_)
      exact fun hMem => hNew d.label hMem d.label (by simp) rfl

/-! ## Labels -/

/-- A label that a line can hold. -/
structure PlainLabel (label : String) : Prop where
  isLabel : Alphabet.isLabel label = true
  comment_notMem : '#' ∉ label.toList

theorem PlainLabel.isWord {label : String} (h : PlainLabel label) :
    IsWord label.toList :=
  Alphabet.isLabel_iff.1 h.isLabel

theorem plainLabel_of_mem_names {defs : List Definition}
    (h : ∀ d ∈ defs, PlainLabel d.label) {label : String}
    (hMem : label ∈ names defs) : PlainLabel label := by
  simp only [names, List.mem_cons, List.mem_map] at hMem
  rcases hMem with rfl | rfl | ⟨d, hd, rfl⟩
  · exact ⟨by decide, by decide⟩
  · exact ⟨by decide, by decide⟩
  · exact h d hd

section Labels

variable {al : Alphabet} (hAl : al.WellFormed) {id : SymbolId}
  (hId : al.hasId id = true)

include hAl hId

/-- The label of a symbol that exists is found, and leads back to it. -/
theorem exists_labelAt : ∃ s ∈ al.symbols, s.id = id ∧ labelAt al id = s.label := by
  obtain ⟨s, hs, hEq⟩ := (Alphabet.hasId_iff al id).1 hId
  have hFind := hAl.distinct.find?_eq_some_iff.2 ⟨hs, hEq⟩
  exact ⟨s, hs, hEq, by rw [labelAt, hFind]; rfl⟩

theorem idOfLabel_labelAt : al.idOfLabel (labelAt al id) = .ok id := by
  obtain ⟨s, hs, hEq, hLabel⟩ := exists_labelAt hAl hId
  rw [hLabel]
  exact hAl.distinct.idOfLabel_eq_ok_iff.2 ⟨s, hs, rfl, hEq⟩

end Labels

/-! ## Lines -/

/-- What a line with these fields holds. -/
def fieldText (fields : List String) : List Char :=
  [' '].intercalate (fields.map String.toList)

/-- Fields that come through: nothing is trimmed off them and they hold no
comment. -/
def PlainFields (fields : List String) : Prop :=
  fields ≠ [] ∧ ∀ w ∈ fields, Trimmed w.toList ∧ '#' ∉ w.toList

theorem lineContent_fields {fields : List String} (h : PlainFields fields) :
    lineContent (" ".intercalate fields) = fieldText fields ∧
      fieldText fields ≠ [] := by
  have hPlain : '#' ∉ fieldText fields := by
    refine comment_notMem_intercalate fun w hw => ?_
    obtain ⟨field, hField, rfl⟩ := List.mem_map.1 hw
    exact (h.2 field hField).2
  have hTrimmed : Trimmed (fieldText fields) := by
    refine trimmed_intercalate (by simpa using h.1) fun w hw => ?_
    obtain ⟨field, hField, rfl⟩ := List.mem_map.1 hw
    exact (h.2 field hField).1
  refine ⟨?_, hTrimmed.ne_nil⟩
  rw [lineContent, String.toList_intercalate]
  show trim (stripComment (fieldText fields)) = _
  rw [stripComment_of_notMem hPlain, hTrimmed.trim_eq]

/-- The contents of lines with plain fields. -/
theorem text_contents {rows : List (List String)}
    (h : ∀ fields ∈ rows, PlainFields fields) :
    ∀ line, (contents line (rows.map (" ".intercalate ·))).map (·.text) =
      rows.map fieldText := by
  induction rows with
  | nil => exact fun line => rfl
  | cons fields rows ih =>
      intro line
      obtain ⟨hContent, hNe⟩ := lineContent_fields (h fields (by simp))
      have hRest := ih (fun x hx => h x (by simp [hx])) (line + 1)
      rw [List.map_cons, contents, hContent, if_neg (by simpa using hNe)]
      simp only [List.map_cons, hRest]

/-! ## Definitions -/

/-- A definition that a line can hold. -/
structure Definition.Plain (d : Definition) : Prop where
  label : PlainLabel d.label
  description : ∀ t ∈ d.description, Trimmed t.toList ∧ '#' ∉ t.toList

theorem Definition.Plain.fields {d : Definition} (h : d.Plain) :
    PlainFields d.fields := by
  refine ⟨by simp [Definition.fields], fun w hw => ?_⟩
  simp only [Definition.fields, List.mem_cons, Option.mem_toList] at hw
  rcases hw with rfl | rfl | hw
  · have hDigit : IsWord (categoryField d.category).toList ∧
        '#' ∉ (categoryField d.category).toList := by
      cases d.category <;> decide
    exact ⟨hDigit.1.trimmed, hDigit.2⟩
  · exact ⟨h.label.isWord.trimmed, h.label.comment_notMem⟩
  · exact h.description w hw

/-- The fields of a definition are told apart. -/
theorem splitSpaces_definition {d : Definition} (h : d.Plain) :
    splitSpaces 2 (fieldText d.fields) = d.fields.map String.toList := by
  have hCategory : ' ' ∉ (categoryField d.category).toList := by
    cases d.category <;> decide
  have hLabel : ' ' ∉ d.label.toList := h.label.isWord.space_notMem
  unfold fieldText Definition.fields
  cases d.description with
  | none =>
      simp only [Option.toList_none, List.map_cons, List.map_nil,
        List.intercalate_cons_cons, List.intercalate_singleton,
        List.append_assoc, List.singleton_append]
      rw [splitSpaces_append hCategory, splitSpaces_of_notMem hLabel]
  | some t =>
      simp only [Option.toList_some, List.map_cons, List.map_nil,
        List.intercalate_cons_cons, List.intercalate_singleton,
        List.append_assoc, List.singleton_append]
      rw [splitSpaces_append hCategory, splitSpaces_append hLabel]
      rfl

theorem addDefinition_of_text {al extended : Alphabet} {id : SymbolId}
    {c : Content} {d : Definition} (h : d.Plain)
    (hText : c.text = fieldText d.fields)
    (hAdd : al.add d.category d.label d.description = .ok (id, extended)) :
    (addDefinition file al c : Except (GrammarError α) Alphabet) =
      .ok extended := by
  have hCategory : readCategory? (categoryField d.category).toList =
      some d.category := by
    cases d.category <;> rfl
  have hDescription : ((d.description.toList.map String.toList).head?.bind
      fun t => Alphabet.nonempty? (trim t)) = d.description := by
    cases hText : d.description with
    | none => rfl
    | some t =>
        obtain ⟨hTrimmed, -⟩ := h.description t hText
        simp [hTrimmed.trim_eq, Alphabet.nonempty?, hTrimmed.ne_nil]
  have hFields : splitSpaces 2 c.text = (categoryField d.category).toList ::
      d.label.toList :: d.description.toList.map String.toList := by
    rw [hText, splitSpaces_definition h]
    rfl
  simp only [addDefinition, hFields, hCategory, hDescription,
    String.ofList_toList, hAdd]

/-- Lines with definitions add their symbols. -/
theorem addDefinitions_of_texts {defs : List Definition}
    (h : ∀ d ∈ defs, d.Plain) :
    ∀ {before : List Definition} {cs rest : List Content},
      (∀ d ∈ before, d.Plain) → (names (before ++ defs)).Nodup →
      cs.map (·.text) = defs.map (fieldText ·.fields) →
      (addDefinitions file defs.length (defined before) (cs ++ rest) :
        Except (GrammarError α) (Alphabet × List Content)) =
          .ok (defined (before ++ defs), rest) := by
  induction defs with
  | nil =>
      intro before cs rest hBefore hNames hTexts
      rw [List.map_eq_nil_iff.1 hTexts, List.append_nil]
      rfl
  | cons d defs ih =>
      intro before cs rest hBefore hNames hTexts
      obtain ⟨c, more, rfl, hText, hTexts⟩ := List.map_eq_cons_iff.1 hTexts
      have hSplit : before ++ d :: defs = before ++ [d] ++ defs := by simp
      rw [hSplit] at hNames ⊢
      have hFirst := hNames
      rw [names_append, List.nodup_append] at hFirst
      have hOld := hFirst.1
      rw [names_append, List.nodup_append] at hOld
      have hAl := wellFormed_defined
        (fun x hx => (hBefore x hx).label.isLabel) hOld.1
      have hd : d.Plain := h d (by simp)
      have hNew : d.label ∉ names before :=
        fun hMem => hOld.2.2 d.label hMem d.label (by simp) rfl
      have hAdd : (addDefinition file (defined before) c :
          Except (GrammarError α) Alphabet) = .ok (defined (before ++ [d])) :=
        addDefinition_of_text hd hText (add_definition hAl hd.label.isLabel hNew)
      have hPlain : ∀ x ∈ before ++ [d], x.Plain := by
        simp only [List.forall_mem_append, List.forall_mem_singleton]
        exact ⟨hBefore, hd⟩
      show (addDefinition file (defined before) c >>= fun al =>
        addDefinitions file defs.length al (more ++ rest)) = _
      rw [hAdd]
      exact ih (fun x hx => h x (by simp [hx])) hPlain hNames hTexts

/-! ## Rules -/

variable [NumberText α]

/-- A rule that a line can hold, over some alphabet. -/
structure Statable (al : Alphabet) (r : Rule α) : Prop where
  lhs : al.isNonterminal r.lhs = true
  rhs : ∀ id ∈ r.rhs, al.hasId id = true
  probability : StorableNumber r.probability
  comment_notMem : '#' ∉ NumberText.write r.probability

omit [NumberText α] in
theorem hasId_of_isNonterminal {al : Alphabet} {id : SymbolId}
    (h : al.isNonterminal id = true) : al.hasId id = true :=
  (Alphabet.hasId_iff_mem_ids al id).2
    (.inl ((Alphabet.isNonterminal_iff al id).1 h))

section Statements

variable {defs : List Definition} (hDefs : ∀ d ∈ defs, d.Plain)
  (hNames : (names defs).Nodup)

include hDefs hNames

omit [NumberText α] in
theorem plainLabel_labelAt {id : SymbolId}
    (hId : (defined defs).hasId id = true) :
    PlainLabel (labelAt (defined defs) id) := by
  have hAl := wellFormed_defined (fun d hd => (hDefs d hd).label.isLabel) hNames
  obtain ⟨s, hs, -, hLabel⟩ := exists_labelAt hAl hId
  rw [hLabel]
  refine plainLabel_of_mem_names (fun d hd => (hDefs d hd).label) ?_
  exact (perm_labels_defined defs).mem_iff.1 (List.mem_map_of_mem hs)

theorem isWord_statementFields {r : Rule α} (h : Statable (defined defs) r) :
    ∀ w ∈ statementFields (defined defs) r,
      IsWord w.toList ∧ '#' ∉ w.toList := by
  have hLabel {id : SymbolId} (hId : (defined defs).hasId id = true) :
      IsWord (labelAt (defined defs) id).toList ∧
        '#' ∉ (labelAt (defined defs) id).toList := by
    have hPlain := plainLabel_labelAt hDefs hNames hId
    exact ⟨hPlain.isWord, hPlain.comment_notMem⟩
  intro w hw
  simp only [statementFields, List.mem_cons, List.mem_map] at hw
  rcases hw with rfl | rfl | ⟨id, hId, rfl⟩
  · rw [numberText, String.toList_ofList]
    exact ⟨h.probability.isWord, h.comment_notMem⟩
  · exact hLabel (hasId_of_isNonterminal h.lhs)
  · exact hLabel (h.rhs id hId)

theorem plainFields_statement {r : Rule α} (h : Statable (defined defs) r) :
    PlainFields (statementFields (defined defs) r) := by
  refine ⟨by simp [statementFields], fun w hw => ?_⟩
  obtain ⟨hWord, hPlain⟩ := isWord_statementFields hDefs hNames h w hw
  exact ⟨hWord.trimmed, hPlain⟩

omit [NumberText α] in
/-- The labels of a rule lead back to it. -/
theorem namedRule_labelAt {r : Rule α}
    (hLhs : (defined defs).isNonterminal r.lhs = true)
    (hRhs : ∀ id ∈ r.rhs, (defined defs).hasId id = true) :
    namedRule (defined defs) (labelAt (defined defs) r.lhs).toList
      (r.rhs.map fun id => (labelAt (defined defs) id).toList) r.probability =
        .ok r := by
  have hAl := wellFormed_defined (fun d hd => (hDefs d hd).label.isLabel) hNames
  have hSide : ∀ {ids : List SymbolId},
      (∀ id ∈ ids, (defined defs).hasId id = true) →
      (ids.map fun id => (labelAt (defined defs) id).toList).mapM
        (fun w => (defined defs).idOfLabel (String.ofList w)) = .ok ids := by
    intro ids hIds
    induction ids with
    | nil => rfl
    | cons id ids ih =>
        have hRest := ih fun x hx => hIds x (by simp [hx])
        rw [List.map_cons, List.mapM_cons, String.ofList_toList,
          idOfLabel_labelAt hAl (hIds id (by simp)), hRest]
        rfl
  unfold namedRule
  rw [String.ofList_toList, idOfLabel_labelAt hAl (hasId_of_isNonterminal hLhs),
    hSide hRhs]
  rfl

/-- A line with a rule adds it. -/
theorem addStatement_of_text {g : Grammar α} (hg : g.alphabet = defined defs)
    {c : Content} {r : Rule α} (h : Statable (defined defs) r)
    (hText : c.text = fieldText (statementFields (defined defs) r)) :
    addStatement file g c = .ok ⟨g.alphabet, g.rules ++ [r]⟩ := by
  have hAl := wellFormed_defined (fun d hd => (hDefs d hd).label.isLabel) hNames
  have hWords : words c.text = NumberText.write r.probability ::
      (labelAt (defined defs) r.lhs).toList ::
        r.rhs.map fun id => (labelAt (defined defs) id).toList := by
    rw [hText, fieldText, words_intercalate]
    · simp [statementFields, numberText, Function.comp_def]
    · intro w hw
      obtain ⟨field, hField, rfl⟩ := List.mem_map.1 hw
      exact (isWord_statementFields hDefs hNames h field hField).1
  have hFault : ruleFault? g.alphabet r = none := by
    rw [hg]
    exact (ruleFault?_eq_none_iff_isNonterminal hAl).2 ⟨h.lhs, h.rhs⟩
  have hAdd : g.addRule r = .ok ⟨g.alphabet, g.rules ++ [r]⟩ :=
    addRule_eq_ok_iff.2 ⟨hFault, rfl⟩
  have hRule := namedRule_labelAt hDefs hNames h.lhs h.rhs
  unfold addStatement
  rw [hWords]
  simp only [h.probability.read_write, hg, hRule]
  rw [hAdd, hg]
  rfl

/-- Lines with rules add them. -/
theorem addStatements_of_texts {rules : List (Rule α)}
    (h : ∀ r ∈ rules, Statable (defined defs) r) :
    ∀ {g : Grammar α} {cs : List Content}, g.alphabet = defined defs →
      cs.map (·.text) =
        rules.map (fun r => fieldText (statementFields (defined defs) r)) →
      addStatements file rules.length g cs =
        .ok ⟨g.alphabet, g.rules ++ rules⟩ := by
  induction rules with
  | nil =>
      intro g cs hg hTexts
      rw [List.append_nil]
      rfl
  | cons r rules ih =>
      intro g cs hg hTexts
      obtain ⟨c, more, rfl, hText, hTexts⟩ := List.map_eq_cons_iff.1 hTexts
      have hAdd : addStatement file g c = .ok ⟨g.alphabet, g.rules ++ [r]⟩ :=
        addStatement_of_text hDefs hNames hg (h r (by simp)) hText
      show (addStatement file g c >>= fun g =>
        addStatements file rules.length g more) = _
      rw [hAdd]
      have hRest := ih (fun x hx => h x (by simp [hx]))
        (g := ⟨g.alphabet, g.rules ++ [r]⟩) hg hTexts
      rw [List.append_assoc, List.singleton_append] at hRest
      exact hRest

end Statements

/-! ## The whole text -/

omit [NumberText α] in
theorem takeNumber_of_text {n : Nat} (h : isWritable n = true) {c : Content}
    (hText : c.text = writeNat n) (what : String) (rest : List Content) :
    (takeNumber file what (c :: rest) :
      Except (GrammarError α) (Int × List Content)) = .ok (n, rest) := by
  have hRead : readInt? c.text = some (n : Int) := by
    rw [hText]
    exact readInt?_writeInt h
  rw [takeNumber, hRead]

/-- The fields of the lines of a text. -/
def layoutFields (defs : List Definition) (rules : List (Rule α)) :
    List (List String) :=
  [natText defs.length] :: defs.map (·.fields) ++
    [natText rules.length] :: rules.map (statementFields (defined defs))

theorem layout_eq (defs : List Definition) (rules : List (Rule α)) :
    layout defs rules =
      (layoutFields defs rules).map (" ".intercalate ·) := by
  have hOne (s : String) : " ".intercalate [s] = s := rfl
  simp [layout, layoutFields, block, hOne, Function.comp_def]

theorem plainFields_layout {defs : List Definition} {rules : List (Rule α)}
    (hDefs : ∀ d ∈ defs, d.Plain) (hNames : (names defs).Nodup)
    (hRules : ∀ r ∈ rules, Statable (defined defs) r) :
    ∀ fields ∈ layoutFields defs rules, PlainFields fields := by
  have hCount (n : Nat) : PlainFields [natText n] := by
    refine ⟨by simp, List.forall_mem_singleton.2 ?_⟩
    rw [natText, String.toList_ofList]
    refine ⟨(isWord_writeNat n).trimmed, fun hComment => ?_⟩
    exact (Decimal.solid_writeNat n '#' hComment).2 rfl
  simp only [layoutFields, List.cons_append, List.forall_mem_cons,
    List.forall_mem_append, List.forall_mem_map]
  exact ⟨hCount _, fun d hd => (hDefs d hd).fields, hCount _,
    fun r hr => plainFields_statement hDefs hNames (hRules r hr)⟩

/-- Contents with the texts of a layout are read as what the layout says. -/
theorem readContents_of_texts {defs : List Definition} {rules : List (Rule α)}
    (hDefs : ∀ d ∈ defs, d.Plain) (hNames : (names defs).Nodup)
    (hRules : ∀ r ∈ rules, Statable (defined defs) r)
    (hDefCount : isWritable defs.length = true)
    (hRuleCount : isWritable rules.length = true) {cs : List Content}
    (hTexts : cs.map (·.text) = (layoutFields defs rules).map fieldText) :
    readContents file cs = .ok ⟨defined defs, rules⟩ := by
  have hCount (n : Nat) : fieldText [natText n] = writeNat n := by
    simp [fieldText, natText]
  simp only [layoutFields, List.cons_append, List.map_cons, List.map_append,
    List.map_map, hCount] at hTexts
  obtain ⟨c, cs, rfl, hFirst, hTexts⟩ := List.map_eq_cons_iff.1 hTexts
  obtain ⟨ds, cs, rfl, hDefTexts, hTexts⟩ := List.map_eq_append_iff.1 hTexts
  obtain ⟨c', rs, rfl, hSecond, hRuleTexts⟩ := List.map_eq_cons_iff.1 hTexts
  have hSymbols : (addDefinitions file defs.length .initial (ds ++ c' :: rs) :
      Except (GrammarError α) (Alphabet × List Content)) =
        .ok (defined defs, c' :: rs) :=
    @addDefinitions_of_texts α file defs hDefs [] ds (c' :: rs) (by simp) hNames
      hDefTexts
  have hStatements : addStatements file rules.length (empty (defined defs)) rs =
      .ok ⟨defined defs, rules⟩ :=
    addStatements_of_texts hDefs hNames hRules rfl hRuleTexts
  unfold readContents
  rw [takeNumber_of_text hDefCount hFirst]
  show (addDefinitions file defs.length .initial (ds ++ c' :: rs) >>= _) = _
  rw [hSymbols]
  show (takeNumber file "rules" (c' :: rs) >>= _) = _
  rw [takeNumber_of_text hRuleCount hSecond]
  exact hStatements

/-- A text that is laid out as the format says, perhaps with comments and
blanks put in, stands for the symbols and the rules that it gives.  The counts
must have no more digits than can be read, and the probabilities must be read as
they are written. -/
theorem ofLabelLines_layout {defs : List Definition} {rules : List (Rule Float)}
    (hDefs : ∀ d ∈ defs, d.Plain) (hNames : (names defs).Nodup)
    (hRules : ∀ r ∈ rules, (defined defs).isNonterminal r.lhs = true ∧
      ∀ id ∈ r.rhs, (defined defs).hasId id = true)
    (hCounts : isWritable defs.length = true ∧ isWritable rules.length = true)
    (hFloat : ∀ r ∈ rules,
      Decimal.readFloat? (Decimal.floatText r.probability) =
        some r.probability)
    {rows : List String} {move : Nat → Nat}
    (hRows : Edits (layout defs rules) rows move) (file : Option String) :
    ofLabelLines rows file = .ok ⟨defined defs, rules⟩ := by
  have hStatable : ∀ r ∈ rules, Statable (defined defs) r := by
    intro r hr
    exact ⟨(hRules r hr).1, (hRules r hr).2,
      ⟨Decimal.isWord_floatText r.probability, hFloat r hr⟩,
      Decimal.comment_notMem_floatText r.probability⟩
  have hTexts : (contents 1 rows).map (·.text) =
      (layoutFields defs rules).map fieldText := by
    rw [hRows.contents_eq, List.map_map, layout_eq]
    exact text_contents (plainFields_layout hDefs hNames hStatable) 1
  exact readContents_of_texts hDefs hNames hStatable hCounts.1 hCounts.2 hTexts

/-- Two symbols, one of them with a description. -/
def sampleDefinitions : List Definition :=
  [⟨.nonterminal, "A", none⟩, ⟨.terminal, "a", some "letter a"⟩]

/-- The rules `S -> A a e` and `A ->`. -/
def sampleRules : List (Rule Float) :=
  [⟨startId, [2, 3, emptyId], 1⟩, ⟨2, [], 0.5⟩]

/-- A text with two symbols and two rules, one of them without a right side,
with a comment in it. -/
theorem ofLabelLines_layout_sample :
    ofLabelLines ["2", "0 A# no description", "1 a letter a", "2",
        "1.0 S A a e", "0.5 A"] none =
      .ok ⟨⟨[⟨startId, "S", some "start symbol"⟩, ⟨2, "A", none⟩],
        [⟨emptyId, "e", some "empty string"⟩, ⟨3, "a", some "letter a"⟩], 4⟩,
        sampleRules⟩ := by
  have hLayout : layout sampleDefinitions sampleRules =
      ["2", "0 A", "1 a letter a", "2", "1.0 S A a e", "0.5 A"] := by
    decide +kernel
  have hDefs : ∀ d ∈ sampleDefinitions, d.Plain := by
    simp only [sampleDefinitions, List.forall_mem_cons]
    refine ⟨⟨⟨by decide, by decide⟩, by simp⟩, ⟨⟨by decide, by decide⟩, ?_⟩,
      by simp⟩
    intro t ht
    cases ht
    exact ⟨⟨by decide, by decide⟩, by decide⟩
  have hEdits : Edits (layout sampleDefinitions sampleRules)
      ["2", "0 A# no description", "1 a letter a", "2", "1.0 S A a e", "0.5 A"]
        (id ∘ id) := by
    rw [hLayout]
    exact (Edits.refl _).step (.comment ["2"] _ "0 A" " no description")
  exact ofLabelLines_layout hDefs (by decide) (by decide)
    ⟨by decide +kernel, by decide +kernel⟩ (by decide +kernel) hEdits none

end StochasticGrammar.Grammar
