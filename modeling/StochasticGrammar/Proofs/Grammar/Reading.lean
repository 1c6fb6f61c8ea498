import StochasticGrammar.Grammar.File
import StochasticGrammar.Proofs.Except
import StochasticGrammar.Proofs.Grammar.Built
import StochasticGrammar.Proofs.Text.Cutting

/-!
# Grammars that are read

Whatever a reader accepts is a well-formed grammar.  The symbols come first, by
insertions into an alphabet that is empty or initial, and then the rules, one
accepted rule after another.

Main results: `Grammar.wellFormed_ofIdText`, `Grammar.built_ofLabelLines`.
-/

namespace StochasticGrammar

/-! ## Alphabets -/

namespace Alphabet

theorem Distinct.insertLines {al extended : Alphabet} {c : Category}
    {rows : List String} (h : al.Distinct)
    (hInsert : al.insertLines c rows = .ok extended) : extended.Distinct := by
  refine foldlM_preserves (p := Distinct) (fun hal hStep => ?_) h hInsert
  obtain ⟨s, _, hStep⟩ := bind_eq_ok.1 hStep
  exact hal.insert hStep

theorem mem_ids_of_requireReserved {al : Alphabet} {c : Category}
    {id : SymbolId} {label : String}
    (h : al.requireReserved c id label = .ok ()) : id ∈ al.ids c := by
  unfold requireReserved at h
  split at h
  · rename_i hAny
    obtain ⟨s, hs, hEq⟩ := List.any_eq_true.1 hAny
    exact List.mem_map.2 ⟨s, hs, eq_of_beq hEq⟩
  · cases h

/-- An alphabet that is read holds the reserved symbols, since this is
checked. -/
theorem wellFormed_ofLines {nonterminals terminals : List String}
    {al : Alphabet} (h : ofLines nonterminals terminals = .ok al) :
    al.WellFormed := by
  obtain ⟨first, hFirst, h⟩ := bind_eq_ok.1 h
  obtain ⟨last, hLast, h⟩ := bind_eq_ok.1 h
  obtain ⟨_, hStart, h⟩ := bind_eq_ok.1 h
  obtain ⟨_, hEmpty, h⟩ := bind_eq_ok.1 h
  cases h
  have hNone : Alphabet.empty.Distinct := by
    constructor <;> decide
  have hDistinct := (hNone.insertLines hFirst).insertLines hLast
  exact ⟨hDistinct.nodup_ids, hDistinct.nodup_labels, hDistinct.lt_nextId,
    mem_ids_of_requireReserved hStart, mem_ids_of_requireReserved hEmpty⟩

end Alphabet

namespace Grammar

variable {α : Type} [NumberText α] {file : Option String}

/-! ## The format with symbol numbers -/

theorem WellFormed.addRuleLines {rows : List String} :
    ∀ {g h : Grammar α} {line : Nat}, g.WellFormed →
      Grammar.addRuleLines file g line rows = .ok h → h.WellFormed := by
  induction rows with
  | nil =>
      intro g h line hg hRead
      cases hRead
      exact hg
  | cons row rows ih =>
      intro g h line hg hRead
      rw [Grammar.addRuleLines] at hRead
      cases hRule : (readRule? row : Option (Rule α)) with
      | none => simp [hRule] at hRead
      | some r =>
          rw [hRule] at hRead
          cases hAdd : g.addRule r with
          | error e => simp [hAdd] at hRead
          | ok extended =>
              simp only [hAdd] at hRead
              exact ih (hg.addRule hAdd) hRead

theorem wellFormed_ofIdLines {rows : List String} {g : Grammar α}
    (h : ofIdLines rows file = .ok g) : g.WellFormed := by
  obtain ⟨⟨nonterminals, rd⟩, _, h⟩ := bind_eq_ok.1 h
  obtain ⟨⟨terminals, rd⟩, _, h⟩ := bind_eq_ok.1 h
  cases hSymbols : Alphabet.ofLines nonterminals terminals with
  | error e => simp [hSymbols] at h
  | ok al =>
      simp only [hSymbols] at h
      obtain ⟨⟨rules, _⟩, _, h⟩ := bind_eq_ok.1 h
      exact (wellFormed_empty (Alphabet.wellFormed_ofLines hSymbols)
        ).addRuleLines h

/-- A text that is accepted in the format with symbol numbers stands for a
well-formed grammar. -/
theorem wellFormed_ofIdText {text : String} {g : Grammar α}
    (h : ofIdText text file = .ok g) : g.WellFormed :=
  wellFormed_ofIdLines h

/-! ## The format with labels -/

omit [NumberText α] in
/-- A definition that is accepted adds a symbol, and trims its description. -/
theorem addDefinition_cases {al extended : Alphabet} {c : Content}
    (h : (addDefinition file al c : Except (GrammarError α) Alphabet) =
      .ok extended) :
    ∃ category label description id,
      al.add category label description = .ok (id, extended) ∧
        ∀ d ∈ description, Text.Trimmed d.toList := by
  unfold addDefinition at h
  split at h
  · split at h
    · cases h
    · dsimp only at h
      split at h
      · rename_i hSymbol
        cases h
        refine ⟨_, _, _, _, hSymbol, fun d hd => ?_⟩
        obtain ⟨text, _, hText⟩ := Option.bind_eq_some_iff.1 hd
        unfold Alphabet.nonempty? at hText
        split at hText
        · cases hText
        · rename_i hNe
          cases hText
          rw [String.toList_ofList]
          exact Text.trimmed_trim (by simpa using hNe)
      · cases h
  · cases h

omit [NumberText α] in
/-- What symbols with trimmed descriptions keep holds of the alphabet that is
read. -/
theorem addDefinitions_preserves {p : Alphabet → Prop}
    (hStep : ∀ {al extended : Alphabet} {category : Category} {label : String}
      {description : Option String} {id : SymbolId}, p al →
        al.add category label description = .ok (id, extended) →
          (∀ d ∈ description, Text.Trimmed d.toList) → p extended) {n : Nat} :
    ∀ {al extended : Alphabet} {cs rest : List Content}, p al →
      (addDefinitions file n al cs :
        Except (GrammarError α) (Alphabet × List Content)) =
          .ok (extended, rest) → p extended := by
  induction n with
  | zero =>
      intro al extended cs rest hal h
      cases h
      exact hal
  | succ n ih =>
      intro al extended cs rest hal h
      obtain ⟨mid, hMid, h⟩ := bind_eq_ok.1 h
      obtain ⟨_, _, _, _, hAdd, hTrimmed⟩ := addDefinition_cases hMid
      exact ih (hStep hal hAdd hTrimmed) h

/-- A statement that is accepted adds a rule. -/
theorem addStatement_cases {g h : Grammar α} {c : Content}
    (hAdd : addStatement file g c = .ok h) : ∃ r, g.addRule r = .ok h := by
  unfold addStatement at hAdd
  split at hAdd
  · split at hAdd
    · cases hAdd
    · split at hAdd
      · cases hAdd
      · exact ⟨_, mapError_eq_ok.1 hAdd⟩
  · cases hAdd

/-- What rules keep holds of the grammar that is read. -/
theorem addStatements_preserves {p : Grammar α → Prop}
    (hStep : ∀ {g h : Grammar α} {r : Rule α}, p g → g.addRule r = .ok h → p h)
    {n : Nat} :
    ∀ {g h : Grammar α} {cs : List Content}, p g →
      addStatements file n g cs = .ok h → p h := by
  induction n with
  | zero =>
      intro g h cs hg hAdd
      cases hAdd
      exact hg
  | succ n ih =>
      intro g h cs hg hAdd
      obtain ⟨mid, hMid, hAdd⟩ := bind_eq_ok.1 hAdd
      obtain ⟨r, hRule⟩ := addStatement_cases hMid
      exact ih (hStep hg hRule) hAdd

/-- Lines that are accepted in the format with labels stand for a grammar that
is put together from symbols with trimmed descriptions and rules. -/
theorem built_ofLabelLines {rows : List String} {g : Grammar α}
    (h : ofLabelLines rows file = .ok g) :
    g.Built ∧ ∀ s ∈ g.alphabet.symbols, ∀ d ∈ s.description,
      Text.Trimmed d.toList := by
  let p (g : Grammar α) : Prop :=
    g.Built ∧ ∀ s ∈ g.alphabet.symbols, ∀ d ∈ s.description,
      Text.Trimmed d.toList
  obtain ⟨⟨symbols, rest⟩, _, h⟩ := bind_eq_ok.1 h
  obtain ⟨⟨al, rest⟩, hSymbols, h⟩ := bind_eq_ok.1 h
  obtain ⟨⟨rules, rest⟩, _, h⟩ := bind_eq_ok.1 h
  have hInitial : p (empty .initial) := by
    refine ⟨.initial, ?_⟩
    simp only [empty, Alphabet.symbols, Alphabet.initial, List.cons_append,
      List.nil_append, List.mem_cons, List.not_mem_nil, or_false]
    rintro s (rfl | rfl) d hd <;> cases hd <;> constructor <;> decide
  have hAl : p (empty al) := by
    refine addDefinitions_preserves (p := fun al => p (empty al)) ?_ hInitial
      hSymbols
    rintro al extended category label description id ⟨hBuilt, hOld⟩ hAdd hNew
    refine ⟨hBuilt.symbol hAdd, fun s hs => ?_⟩
    obtain ⟨_, _, hInsert⟩ := Alphabet.add_eq_ok_iff.1 hAdd
    obtain ⟨_, _, rfl⟩ := Alphabet.insert_eq_ok_iff.1 hInsert
    rcases Alphabet.mem_symbols_push.1 hs with rfl | hs
    · exact hNew
    · exact hOld s hs
  refine addStatements_preserves (p := p) ?_ hAl h
  rintro g h r ⟨hBuilt, hTrimmed⟩ hAdd
  exact ⟨hBuilt.rule hAdd, by rwa [alphabet_of_addRule hAdd]⟩

/-- Lines that are accepted in the format with labels stand for a well-formed
grammar. -/
theorem wellFormed_ofLabelLines {rows : List String} {g : Grammar α}
    (h : ofLabelLines rows file = .ok g) : g.WellFormed :=
  (built_ofLabelLines h).1.wellFormed

/-! ## Files -/

omit [NumberText α] in
/-- If the texts that are accepted stand for well-formed grammars, then so do
the files. -/
theorem wellFormed_ofFile
    {read : List Char → Option String → Except (GrammarError α) (Grammar α)}
    (hRead : ∀ {text : List Char} {file : Option String} {g : Grammar α},
      read text file = .ok g → g.WellFormed)
    {name : String} {bytes : Option ByteArray} {g : Grammar α}
    (h : ofFile read name bytes = .ok g) : g.WellFormed := by
  unfold ofFile at h
  split at h
  · cases h
  · split at h
    · cases h
    · split at h
      · cases h
      · exact hRead (mapError_eq_ok.1 h)

theorem wellFormed_ofLabelFile {name : String} {bytes : Option ByteArray}
    {g : Grammar α} (h : ofLabelFile name bytes = .ok g) : g.WellFormed :=
  wellFormed_ofFile wellFormed_ofLabelLines h

end Grammar

end StochasticGrammar
