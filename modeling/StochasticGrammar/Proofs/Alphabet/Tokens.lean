import StochasticGrammar.Proofs.Alphabet.FreshLabel
import StochasticGrammar.Proofs.Alphabet.Session

/-!
# Labels as tokens

A text is cut at its blanks and each word is looked up as a label, so a string of
symbols is found again in the text of its labels only if every label is one word.
A symbol that is added has such a label, since this is checked.  A symbol that is
read from a line need not: a line is cut at single spaces, so its label may hold a
blank of another kind, and it is empty where two spaces follow the number.  Such a
label stays in all alphabets that come from the lines.

Main results: `tokenLabels_iff_tokenize`, `exists_add_freshLabel_iff`,
`tokenLabels_of_runCalls`.
-/

namespace StochasticGrammar

open Text

namespace Alphabet

/-- Every label is one word. -/
def TokenLabels (al : Alphabet) : Prop :=
  ∀ s ∈ al.symbols, isLabel s.label = true

/-! ## Strings of symbols as texts -/

/-- Known symbols have labels, from which they are found again. -/
theorem Distinct.exists_labels {al : Alphabet} (h : al.Distinct)
    (hLabels : al.TokenLabels) {ids : List SymbolId}
    (hIds : ∀ id ∈ ids, al.hasId id = true) :
    ∃ labels : List String, ids.mapM al.label = .ok labels ∧
      labels.mapM al.idOfLabel = .ok ids ∧
        ∀ label ∈ labels, isLabel label = true := by
  induction ids with
  | nil => exact ⟨[], rfl, rfl, by simp⟩
  | cons id ids ih =>
      obtain ⟨labels, hTo, hFrom, hWords⟩ := ih fun x hx => hIds x (by simp [hx])
      obtain ⟨s, hs, hId⟩ := (hasId_iff al id).1 (hIds id (by simp))
      have hLabel := h.label_eq_ok_iff.2 ⟨s, hs, hId, rfl⟩
      have hBack := h.idOfLabel_eq_ok_iff.2 ⟨s, hs, rfl, hId⟩
      refine ⟨s.label :: labels, ?_, ?_, ?_⟩
      · rw [List.mapM_cons, hLabel, hTo]
        rfl
      · rw [List.mapM_cons, hBack, hFrom]
        rfl
      · simpa using ⟨hLabels s hs, hWords⟩

/-- The words of a text that is put together from labels. -/
theorem words_intercalate_labels {labels : List String}
    (h : ∀ label ∈ labels, isLabel label = true) :
    words (" ".intercalate labels).toList = labels.map String.toList := by
  rw [String.toList_intercalate]
  refine words_intercalate fun w hw => ?_
  obtain ⟨label, hLabel, rfl⟩ := List.mem_map.1 hw
  exact isLabel_iff.1 (h label hLabel)

/-- A label is one word if it is cut into a word that names its own symbol. -/
theorem Distinct.isLabel_of_tokenize {al : Alphabet} (h : al.Distinct)
    {s : Symbol} (hs : s ∈ al.symbols)
    (hTokenize : al.tokenize s.label = .ok [s.id]) : isLabel s.label = true := by
  unfold tokenize at hTokenize
  cases hWords : words s.label.toList with
  | nil => simp [hWords, pure, Except.pure] at hTokenize
  | cons w ws =>
      rw [hWords, List.mapM_cons] at hTokenize
      obtain ⟨id, hId, hTokenize⟩ := bind_eq_ok.1 hTokenize
      obtain ⟨ids, _, hCons⟩ := bind_eq_ok.1 hTokenize
      cases hCons
      obtain ⟨r, hr, hLabel, hSame⟩ := h.idOfLabel_eq_ok_iff.1 hId
      have hEq : r = s := List.inj_on_of_nodup_map h.nodup_ids hr hs hSame
      have hw : w ∈ words s.label.toList := by simp [hWords]
      rw [isLabel_iff, ← hEq, hLabel, String.toList_ofList]
      exact ⟨ne_nil_of_mem_words hw, fun c hc => isBlank_of_mem_words hw hc⟩

/-- The labels are words exactly if every string of known symbols is found again
in the text of its labels. -/
theorem Distinct.tokenLabels_iff_tokenize {al : Alphabet} (h : al.Distinct) :
    al.TokenLabels ↔ ∀ ids : List SymbolId, (∀ id ∈ ids, al.hasId id = true) →
      ∃ text, al.formatString ids = .ok text ∧ al.tokenize text = .ok ids := by
  constructor
  · intro hLabels ids hIds
    obtain ⟨labels, hTo, hFrom, hWords⟩ := h.exists_labels hLabels hIds
    refine ⟨" ".intercalate labels, ?_, ?_⟩
    · rw [formatString, hTo]
      rfl
    · rw [tokenize, words_intercalate_labels hWords, List.mapM_map]
      simpa [Function.comp_def] using hFrom
  · -- the strings of one symbol are enough
    intro hAll s hs
    obtain ⟨text, hFormat, hTokenize⟩ := hAll [s.id]
      (by simpa using (hasId_iff al s.id).2 ⟨s, hs, rfl⟩)
    have hLabel := h.label_eq_ok_iff.2 ⟨s, hs, rfl, rfl⟩
    have hText : s.label = text := by
      simpa [formatString, hLabel, bind, Except.bind, pure, Except.pure]
        using hFormat
    exact h.isLabel_of_tokenize hs (hText ▸ hTokenize)

/-! ## Fresh labels -/

/-- A symbol is added under a fresh label exactly if the base has no blank in
it. -/
theorem WellFormed.exists_add_freshLabel_iff {al : Alphabet} (h : al.WellFormed)
    (base : String) (c : Category) (description : Option String) :
    (∃ id extended, al.add c (al.freshLabel base) description =
      .ok (id, extended)) ↔ ∀ ch ∈ base.toList, isBlank ch = false := by
  constructor
  · rintro ⟨id, extended, hAdd⟩
    exact (isLabel_freshLabel_iff al).1 (add_eq_ok_iff.1 hAdd).1
  · intro hPlain
    exact ⟨_, _, h.add_freshLabel hPlain c description⟩

/-! ## Where labels come from -/

/-- Every label that is read from some lines is one word. -/
def LineLabels (rows : List String) : Prop :=
  ∀ row ∈ rows, ∀ s, readSymbolLine row = .ok s → isLabel s.label = true

theorem tokenLabels_push {al : Alphabet} {c : Category} {s : Symbol} :
    (al.push c s).TokenLabels ↔ isLabel s.label = true ∧ al.TokenLabels := by
  simp only [TokenLabels, mem_symbols_push, forall_eq_or_imp]

theorem tokenLabels_insertLines {c : Category} {rows : List String} :
    ∀ {al extended : Alphabet}, al.insertLines c rows = .ok extended →
      (extended.TokenLabels ↔ al.TokenLabels ∧ LineLabels rows) := by
  induction rows with
  | nil =>
      intro al extended h
      cases h
      simp [LineLabels]
  | cons row rows ih =>
      intro al extended h
      rw [insertLines, List.foldlM_cons] at h
      obtain ⟨mid, hMid, h⟩ := bind_eq_ok.1 h
      obtain ⟨s, hRead, hInsert⟩ := bind_eq_ok.1 hMid
      obtain ⟨_, _, rfl⟩ := insert_eq_ok_iff.1 hInsert
      rw [ih h, tokenLabels_push, LineLabels, LineLabels, List.forall_mem_cons,
        hRead]
      simp only [Except.ok.injEq, forall_eq', and_assoc, and_left_comm]

/-- The labels of an alphabet that is read are words exactly if those of the
lines are. -/
theorem tokenLabels_ofLines {nonterminals terminals : List String}
    {al : Alphabet} (h : ofLines nonterminals terminals = .ok al) :
    al.TokenLabels ↔ LineLabels nonterminals ∧ LineLabels terminals := by
  obtain ⟨first, hFirst, h⟩ := bind_eq_ok.1 h
  obtain ⟨last, hLast, h⟩ := bind_eq_ok.1 h
  obtain ⟨_, _, h⟩ := bind_eq_ok.1 h
  obtain ⟨_, _, h⟩ := bind_eq_ok.1 h
  cases h
  rw [tokenLabels_insertLines hLast, tokenLabels_insertLines hFirst]
  simp [TokenLabels, empty, symbols]

/-- Additions do not change whether all labels are words, since they check their
own. -/
theorem tokenLabels_adder (al : Alphabet) (c : Category) (label : String)
    (description : Option String) :
    (Alphabet.adder c label description al).2.TokenLabels ↔ al.TokenLabels := by
  unfold Alphabet.adder
  split
  · rename_i hAdd
    obtain ⟨hLabel, _, hInsert⟩ := add_eq_ok_iff.1 hAdd
    obtain ⟨_, _, rfl⟩ := insert_eq_ok_iff.1 hInsert
    rw [tokenLabels_push, and_iff_right hLabel]
  · rfl

end Alphabet

/-! ## Runs -/

/-- Whether all labels that a program starts from are words. -/
def Origin.TokenLabels : Origin → Prop
  | .reserved => True
  | .lines nonterminals terminals =>
    Alphabet.LineLabels nonterminals ∧ Alphabet.LineLabels terminals

theorem Origin.tokenLabels_iff {origin : Origin} {al : Alphabet}
    (h : origin.alphabet = .ok al) : al.TokenLabels ↔ origin.TokenLabels := by
  cases origin with
  | reserved =>
      cases h
      show (∀ s ∈ Alphabet.initial.symbols, Alphabet.isLabel s.label = true) ↔ True
      decide
  | lines nonterminals terminals => exact Alphabet.tokenLabels_ofLines h

/-- In every run, successful or not, the labels are words, and strings of symbols
are found again in their texts, exactly if this holds of the labels that the
program started from.  A fresh label of any symbol is accepted exactly if the
label of the symbol has no blank in it. -/
theorem tokenLabels_of_runCalls (origin : Origin) {start : Alphabet}
    (h : origin.alphabet = .ok start) (calls : List Call) :
    ∀ al ∈ (runCalls Alphabet.adder [start] calls).2,
      (al.TokenLabels ↔ origin.TokenLabels) ∧
      ((∀ ids : List SymbolId, (∀ id ∈ ids, al.hasId id = true) →
        ∃ text, al.formatString ids = .ok text ∧ al.tokenize text = .ok ids) ↔
          origin.TokenLabels) ∧
      ∀ s ∈ al.symbols, ∀ c description,
        (∃ id extended, al.add c (al.freshLabel s.label) description =
          .ok (id, extended)) ↔ ∀ ch ∈ s.label.toList, isBlank ch = false := by
  have hStart : ∀ al ∈ [start],
      al.WellFormed ∧ (al.TokenLabels ↔ origin.TokenLabels) := by
    simpa using ⟨Origin.wellFormed h, Origin.tokenLabels_iff h⟩
  have hEnd : ∀ al ∈ (runCalls Alphabet.adder [start] calls).2,
      al.WellFormed ∧ (al.TokenLabels ↔ origin.TokenLabels) := by
    refine runCalls_preserves (fun hal c label description => ?_) hStart calls
    exact ⟨hal.1.adder c label description,
      (Alphabet.tokenLabels_adder _ c label description).trans hal.2⟩
  intro al hal
  obtain ⟨hWellFormed, hLabels⟩ := hEnd al hal
  refine ⟨hLabels, ?_, fun s _ c description =>
    hWellFormed.exists_add_freshLabel_iff s.label c description⟩
  rw [← hWellFormed.distinct.tokenLabels_iff_tokenize, hLabels]

/-- Lines of which one has a label with a tab in it. -/
def tabbedLines : Origin := .lines ["0 S", "2 a\tb"] ["1 e"]

/-- The alphabet that is read from these lines. -/
def tabbed : Alphabet :=
  ⟨[⟨startId, "S", none⟩, ⟨2, "a\tb", none⟩], [⟨emptyId, "e", none⟩], 3⟩

theorem alphabet_tabbedLines : tabbedLines.alphabet = .ok tabbed := by
  decide

theorem words_tabbed : words "a\tb".toList = [['a'], ['b']] := by
  have hFirst : IsWord ['a'] :=
    Alphabet.isLabel_iff.1 (show Alphabet.isLabel "a" = true from rfl)
  have hSecond : IsWord ['b'] :=
    Alphabet.isLabel_iff.1 (show Alphabet.isLabel "b" = true from rfl)
  have hTab : isBlank '\t' = true := rfl
  calc words "a\tb".toList = words (['a'] ++ ['\t', 'b']) := rfl
    _ = ['a'] :: words ['\t', 'b'] := words_append hFirst (by simp [hTab])
    _ = ['a'] :: words ['b'] := by rw [words_cons_of_isBlank hTab]
    _ = ['a'] :: words (['b'] ++ []) := rfl
    _ = [['a'], ['b']] := by rw [words_append hSecond (by simp), words_nil]

theorem freshLabel_tabbed : tabbed.freshLabel "a\tb" = "a\tb_1" := by
  have hOne : natText 1 = "1" := by
    rw [natText, writeNat, natDigits]
    rfl
  have hNumbered : Alphabet.numbered "a\tb" 1 = "a\tb_1" := by
    rw [Alphabet.numbered, hOne]
    decide
  show Alphabet.freshFrom tabbed "a\tb" 1 3 = _
  rw [Alphabet.freshFrom, hNumbered]
  rfl

/-- The label is two words, neither of which is a label, and no fresh label can be
made from it. -/
theorem not_tokenLabels_tabbed :
    tabbedLines.alphabet = .ok tabbed ∧
      tabbed ∈ (runCalls Alphabet.adder [tabbed] []).2 ∧
      ¬ tabbed.TokenLabels ∧
      tabbed.formatString [2] = .ok "a\tb" ∧
      tabbed.tokenize "a\tb" = .error (.unknownLabel "a") ∧
      tabbed.add .nonterminal (tabbed.freshLabel "a\tb") none =
        .error (.invalidLabel "a\tb_1") := by
  refine ⟨by decide, by decide, fun h => ?_, by decide, ?_, ?_⟩
  · exact absurd (h ⟨2, "a\tb", none⟩ (by decide)) (by decide)
  · rw [Alphabet.tokenize, words_tabbed]
    rfl
  · rw [freshLabel_tabbed]
    decide

/-- The tab stays in the alphabet and its copy when a symbol is added. -/
theorem tokenLabels_of_runCalls_tabbed :
    ¬ tabbedLines.TokenLabels ∧
      ∀ al ∈ (runCalls Alphabet.adder [tabbed]
          [.add 0 .terminal "b" none, .clone 0]).2,
        (al.TokenLabels ↔ tabbedLines.TokenLabels) ∧
        ((∀ ids : List SymbolId, (∀ id ∈ ids, al.hasId id = true) →
          ∃ text, al.formatString ids = .ok text ∧
            al.tokenize text = .ok ids) ↔ tabbedLines.TokenLabels) ∧
        ∀ s ∈ al.symbols, ∀ c description,
          (∃ id extended, al.add c (al.freshLabel s.label) description =
            .ok (id, extended)) ↔ ∀ ch ∈ s.label.toList, isBlank ch = false := by
  refine ⟨fun h => ?_,
    tokenLabels_of_runCalls tabbedLines alphabet_tabbedLines _⟩
  have hLabel := h.1 "2 a\tb" (by decide) ⟨2, "a\tb", none⟩ (by decide)
  exact absurd hLabel (by decide)

end StochasticGrammar
