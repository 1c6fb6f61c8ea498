import StochasticGrammar.Proofs.Alphabet.Listing
import StochasticGrammar.Proofs.Decimal.Shortest

/-!
# The format with symbol numbers loses nothing

The writer puts single spaces between fields and line feeds between lines.  The
reader cuts a text at every line break of Unicode, a symbol line at its first
two spaces and a rule line at blanks, and trusts the three counts.  What was
written is read as it was if every symbol survives its line, every number the
text holds is read as it is written, and the text of a probability is one word:
`Grammar.Storable`.

A grammar that was read is of this kind, but for the probabilities, for its
lines have no line breaks in them and its numbers have been read before.

Main results: `ofIdText_toIdText_of_storable`, `storable_of_ofIdText`.
-/

namespace StochasticGrammar.Grammar

open Text

variable {α : Type} [NumberText α] {file : Option String}

/-- The integers in the text of a grammar: the counts of its blocks and the
numbers of its symbols. -/
def integers (g : Grammar α) : List Int :=
  [(g.alphabet.nonterminals.length : Int), g.alphabet.terminals.length,
    g.rules.length] ++ g.alphabet.symbols.map (·.id)

/-- A probability that survives being written and read. -/
structure StorableNumber (x : α) : Prop where
  isWord : IsWord (NumberText.write x)
  read_write : NumberText.read? (NumberText.write x) = some x

/-- A grammar that survives being written and read. -/
structure Storable (g : Grammar α) : Prop where
  alphabet : g.alphabet.Storable
  rules : ∀ r ∈ g.rules, ruleFault? g.alphabet r = none
  integers : ∀ i ∈ g.integers, readInt? (writeInt i) = some i
  probabilities : ∀ r ∈ g.rules, StorableNumber r.probability

/-! ## Rules -/

/-- The fields of a rule line. -/
def ruleFields (r : Rule α) : List (List Char) :=
  NumberText.write r.probability :: writeInt r.lhs :: r.rhs.map writeInt

theorem toList_ruleLine (r : Rule α) :
    (ruleLine r).toList = [' '].intercalate (ruleFields r) := by
  rw [ruleLine, String.toList_intercalate]
  simp [ruleFields, numberText, intText, Function.comp_def]

theorem isWord_of_mem_ruleFields {r : Rule α}
    (h : StorableNumber r.probability) : ∀ w ∈ ruleFields r, IsWord w := by
  intro w hw
  simp only [ruleFields, List.mem_cons, List.mem_map] at hw
  rcases hw with rfl | rfl | ⟨i, _, rfl⟩
  · exact h.isWord
  · exact isWord_writeInt r.lhs
  · exact isWord_writeInt i

theorem mapM_readInt? {is : List Int}
    (h : ∀ i ∈ is, readInt? (writeInt i) = some i) :
    (is.map writeInt).mapM readInt? = some is := by
  induction is with
  | nil => rfl
  | cons i is ih =>
      have hRest := ih fun j hj => h j (by simp [hj])
      rw [List.map_cons, List.mapM_cons, h i (by simp), hRest]
      rfl

/-- A rule is read from its line as it was. -/
theorem readRule?_ruleLine {r : Rule α} (hNumber : StorableNumber r.probability)
    (hIds : ∀ i ∈ r.lhs :: r.rhs, readInt? (writeInt i) = some i) :
    readRule? (ruleLine r) = some r := by
  obtain ⟨hLhs, hRhs⟩ := List.forall_mem_cons.1 hIds
  have hSides := mapM_readInt? hRhs
  rw [readRule?, toList_ruleLine,
    words_intercalate (isWord_of_mem_ruleFields hNumber), ruleFields]
  simp [hLhs, hSides, hNumber.read_write]

theorem oneLine_ruleLine {r : Rule α} (h : StorableNumber r.probability) :
    OneLine (ruleLine r).toList := by
  rw [toList_ruleLine]
  exact oneLine_intercalate (by decide) fun w hw =>
    (isWord_of_mem_ruleFields h w hw).oneLine

/-- The lines of rules that are accepted add these rules. -/
theorem addRuleLines_ruleLines {g : Grammar α} {rs : List (Rule α)}
    (h : ∀ r ∈ rs, ruleFault? g.alphabet r = none ∧
      readRule? (ruleLine r) = some r) (line : Nat) :
    addRuleLines file g line (rs.map ruleLine) =
      .ok ⟨g.alphabet, g.rules ++ rs⟩ := by
  induction rs generalizing g line with
  | nil => simp [addRuleLines]
  | cons r rs ih =>
      obtain ⟨hFault, hRead⟩ := h r (by simp)
      have hAdd : g.addRule r = .ok ⟨g.alphabet, g.rules ++ [r]⟩ :=
        addRule_eq_ok_iff.2 ⟨hFault, rfl⟩
      rw [List.map_cons, addRuleLines, hRead]
      simp only [hAdd]
      have hRest := ih (g := ⟨g.alphabet, g.rules ++ [r]⟩)
        (fun s hs => h s (by simp [hs])) (line + 1)
      rw [hRest, List.append_assoc, List.singleton_append]

/-! ## Blocks -/

omit [NumberText α] in
/-- A block is taken off the front of the lines as it was put there. -/
theorem takeBlock_block {rows rest : List String} {consumed : Nat}
    (h : readInt? (writeInt rows.length) = some (rows.length : Int)) :
    (takeBlock file ⟨block rows ++ rest, consumed⟩ :
      Except (GrammarError α) (List String × Reader)) =
        .ok (rows, ⟨rest, consumed + 1 + rows.length⟩) := by
  have hCount : readInt? (trim (natText rows.length).toList) =
      some (rows.length : Int) := by
    rw [natText, String.toList_ofList, trim_of_isWord (isWord_writeNat _)]
    exact h
  simp only [takeBlock, block, List.cons_append, hCount]
  have hBound : ¬((rows.length : Int) < 0 ∨
      ((rows ++ rest).length : Int) < rows.length) := by
    rw [List.length_append]
    omega
  rw [if_neg hBound, Int.toNat_natCast, List.take_left, List.drop_left]

theorem oneLine_block {rows : List String}
    (h : ∀ row ∈ rows, OneLine row.toList) :
    ∀ row ∈ block rows, OneLine row.toList := by
  refine List.forall_mem_cons.2 ⟨?_, h⟩
  rw [natText, String.toList_ofList]
  exact (isWord_writeNat rows.length).oneLine

/-! ## The whole text -/

namespace Storable

variable {g : Grammar α}

theorem readInt?_count (h : g.Storable) (c : Category) :
    readInt? (writeInt (g.alphabet.symbolLines c).length) =
      some ((g.alphabet.symbolLines c).length : Int) := by
  rw [Alphabet.symbolLines, List.length_map]
  apply h.integers
  cases c <;> simp [Grammar.integers, Alphabet.row]

theorem readInt?_of_hasId (h : g.Storable) {id : SymbolId}
    (hId : g.alphabet.hasId id = true) : readInt? (writeInt id) = some id := by
  obtain ⟨s, hs, rfl⟩ := (Alphabet.hasId_iff g.alphabet id).1 hId
  exact (h.alphabet.symbols s hs).id

theorem readRule? (h : g.Storable) {r : Rule α} (hr : r ∈ g.rules) :
    Grammar.readRule? (ruleLine r) = some r := by
  have hIds := (ruleFault?_eq_none_iff.1 (h.rules r hr)).1
  exact readRule?_ruleLine (h.probabilities r hr) fun i hi =>
    h.readInt?_of_hasId (hIds i hi)

/-- No line of the text is broken. -/
theorem oneLine (h : g.Storable) : ∀ row ∈ g.idLines, OneLine row.toList := by
  have hSymbols : ∀ c, ∀ row ∈ block (g.alphabet.symbolLines c),
      OneLine row.toList := by
    intro c
    refine oneLine_block fun row hRow => ?_
    obtain ⟨s, hs, rfl⟩ := List.mem_map.1 hRow
    exact Alphabet.oneLine_symbolLine
      (h.alphabet.symbols s (Alphabet.mem_symbols_of_mem_row hs))
  have hRules : ∀ row ∈ block (g.rules.map ruleLine), OneLine row.toList := by
    refine oneLine_block fun row hRow => ?_
    obtain ⟨r, hr, rfl⟩ := List.mem_map.1 hRow
    exact oneLine_ruleLine (h.probabilities r hr)
  intro row hRow
  rcases List.mem_append.1 hRow with hRow | hRow
  · rcases List.mem_append.1 hRow with hRow | hRow
    · exact hSymbols .nonterminal row hRow
    · exact hSymbols .terminal row hRow
  · exact hRules row hRow

theorem ofIdLines_idLines (h : g.Storable) :
    ofIdLines g.idLines file = .ok g := by
  have hRules : readInt? (writeInt (g.rules.map ruleLine).length) =
      some ((g.rules.map ruleLine).length : Int) := by
    rw [List.length_map]
    exact h.integers _ (by simp [Grammar.integers])
  rw [ofIdLines, idLines, List.append_assoc,
    takeBlock_block (h.readInt?_count .nonterminal)]
  simp only [bind, Except.bind]
  rw [takeBlock_block (h.readInt?_count .terminal)]
  dsimp only
  rw [Alphabet.ofLines_symbolLines h.alphabet, ← List.append_nil (block _),
    takeBlock_block hRules]
  exact addRuleLines_ruleLines (g := .empty g.alphabet)
    (fun r hr => ⟨h.rules r hr, h.readRule? hr⟩) _

/-- A text that was written is cut into the lines it was made of. -/
theorem lines_toIdText (h : g.Storable) :
    (lines g.toIdText.toList).map String.ofList = g.idLines := by
  have hNe : g.idLines.map String.toList ≠ [] := by
    simp [idLines, block]
  have hLines := lines_intercalate hNe (List.forall_mem_map.2 h.oneLine)
  rw [toIdText, String.toList_append, String.toList_intercalate]
  show (lines (['\n'].intercalate (g.idLines.map String.toList) ++ ['\n'])).map
    String.ofList = g.idLines
  rw [hLines, List.map_map]
  simp [Function.comp_def]

end Storable

/-- A grammar is read from its text as it was. -/
theorem ofIdText_toIdText_of_storable {g : Grammar α} (h : g.Storable) :
    ofIdText g.toIdText file = .ok g := by
  rw [ofIdText, h.lines_toIdText]
  exact h.ofIdLines_idLines

/-! ## Texts that are accepted -/

omit [NumberText α] in
/-- The lines of a block are among those that were left, and there are as many
as a number that was read. -/
theorem takeBlock_cases {rd rd' : Reader} {rows : List String}
    (h : (takeBlock file rd : Except (GrammarError α) (List String × Reader)) =
      .ok (rows, rd')) :
    rows ⊆ rd.rest ∧ rd'.rest ⊆ rd.rest ∧
      readInt? (writeInt rows.length) = some (rows.length : Int) := by
  unfold takeBlock at h
  split at h
  · cases h
  · rename_i line rest hRest
    split at h
    · cases h
    · rename_i count hCount
      split at h
      · cases h
      · rename_i hBound
        cases h
        have hLength : ((rest.take count.toNat).length : Int) = count := by
          rw [List.length_take]
          omega
        rw [hRest, hLength]
        exact ⟨List.subset_cons_of_subset _ (List.take_subset _ _),
          List.subset_cons_of_subset _ (List.drop_subset _ _),
          readInt?_writeInt (isWritable_of_readInt? hCount)⟩

/-- Every line of a block of rules adds one rule. -/
theorem length_of_addRuleLines {rows : List String} :
    ∀ {g h : Grammar α} {line : Nat}, addRuleLines file g line rows = .ok h →
      h.alphabet = g.alphabet ∧
        h.rules.length = g.rules.length + rows.length := by
  induction rows with
  | nil =>
      intro g h line hRead
      cases hRead
      exact ⟨rfl, rfl⟩
  | cons row rows ih =>
      intro g h line hRead
      rw [addRuleLines] at hRead
      split at hRead
      · cases hRead
      · split at hRead
        · cases hRead
        · rename_i hAdd
          obtain ⟨_, rfl⟩ := addRule_eq_ok_iff.1 hAdd
          obtain ⟨hAlphabet, hLength⟩ := ih hRead
          refine ⟨hAlphabet, ?_⟩
          rw [hLength, List.length_append, List.length_singleton,
            List.length_cons]
          omega

/-- A grammar that was read can be written, but for its probabilities. -/
theorem storable_of_ofIdText {text : String} {g : Grammar α}
    (h : ofIdText text file = .ok g)
    (hNumbers : ∀ r ∈ g.rules, StorableNumber r.probability) : g.Storable := by
  have hWellFormed := wellFormed_ofIdText h
  have hLines : ∀ row ∈ (lines text.toList).map String.ofList,
      OneLine row.toList := by
    refine List.forall_mem_map.2 fun row hRow => ?_
    rw [String.toList_ofList]
    exact fun c hc => isLineBreak_of_mem_lines hRow hc
  obtain ⟨⟨nonterminals, rd⟩, hFirst, h⟩ := bind_eq_ok.1 h
  obtain ⟨⟨terminals, rd'⟩, hSecond, h⟩ := bind_eq_ok.1 h
  obtain ⟨hRows, hRest, hNonterminals⟩ := takeBlock_cases hFirst
  obtain ⟨hRows', hRest', hTerminals⟩ := takeBlock_cases hSecond
  cases hSymbols : Alphabet.ofLines nonterminals terminals with
  | error e => simp [hSymbols] at h
  | ok al =>
      simp only [hSymbols] at h
      obtain ⟨⟨rules, rd''⟩, hThird, h⟩ := bind_eq_ok.1 h
      obtain ⟨_, _, hRules⟩ := takeBlock_cases hThird
      obtain ⟨rfl, hLength⟩ := length_of_addRuleLines h
      have hAlphabet := Alphabet.storable_of_ofLines
        (fun row hRow => hLines row (hRows hRow))
        (fun row hRow => hLines row (hRest (hRows' hRow))) hSymbols
      obtain ⟨hCount, hCount'⟩ := Alphabet.length_of_ofLines hSymbols
      refine ⟨hAlphabet, hWellFormed.rules, fun i hi => ?_, hNumbers⟩
      rcases List.mem_append.1 hi with hi | hi
      · rw [hCount, hCount', hLength] at hi
        simp only [empty, List.length_nil, Nat.zero_add, List.mem_cons,
          List.not_mem_nil, or_false] at hi
        rcases hi with rfl | rfl | rfl <;> assumption
      · obtain ⟨s, hs, rfl⟩ := List.mem_map.1 hi
        exact (hAlphabet.symbols s hs).id

/-! ## Round trips -/

/-- A grammar that was put together can be written, if its descriptions can. -/
theorem Built.storable {g : Grammar α} (h : g.Built)
    (hIntegers : ∀ i ∈ g.integers, readInt? (writeInt i) = some i)
    (hDescriptions : ∀ s ∈ g.alphabet.symbols, ∀ d ∈ s.description,
      Trimmed d.toList ∧ OneLine d.toList)
    (hNumbers : ∀ r ∈ g.rules, StorableNumber r.probability) :
    g.Storable where
  alphabet := {
    wellFormed := h.wellFormed.alphabet
    nextIsLeast := h.nextIsLeast
    symbols := by
      intro s hs
      have hWord := Alphabet.isLabel_iff.1 (h.isLabel s hs)
      have hLast := List.getLast?_eq_some_getLast hWord.ne_nil
      exact {
        id := hIntegers s.id (List.mem_append_right _ (List.mem_map_of_mem hs))
        space_notMem := hWord.space_notMem
        oneLine := hWord.oneLine
        label_end := fun _ => ⟨_, hLast,
          hWord.not_blank _ (List.mem_of_mem_getLast? hLast)⟩
        description := hDescriptions s hs } }
  rules := h.wellFormed.rules
  integers := hIntegers
  probabilities := hNumbers

/-- A grammar that was read from a text, or put together from symbols whose
descriptions are trimmed and within one line, is read from its own text as it
was. -/
theorem ofIdText_toIdText {g : Grammar Float}
    (hg : (∃ text file, ofIdText text file = .ok g) ∨
      g.Built ∧ (∀ i ∈ g.integers, readInt? (writeInt i) = some i) ∧
        ∀ s ∈ g.alphabet.symbols, ∀ d ∈ s.description,
          Trimmed d.toList ∧ OneLine d.toList)
    (hFloat : ∀ r ∈ g.rules,
      Decimal.readFloat? (Decimal.floatText r.probability) =
        some r.probability) :
    ofIdText g.toIdText file = .ok g := by
  have hNumbers : ∀ r ∈ g.rules, StorableNumber r.probability :=
    fun r hr => ⟨Decimal.isWord_floatText r.probability, hFloat r hr⟩
  rcases hg with ⟨text, file, hRead⟩ | ⟨hBuilt, hIntegers, hDescriptions⟩
  · exact ofIdText_toIdText_of_storable (storable_of_ofIdText hRead hNumbers)
  · exact ofIdText_toIdText_of_storable
      (hBuilt.storable hIntegers hDescriptions hNumbers)

omit [NumberText α] in
/-- A procedure gives a grammar if it gives its parts, which can be
compared. -/
theorem eq_ok_of_parts {ε : Type} {x : Except ε (Grammar α)} {g : Grammar α}
    (h : (x.toOption.map fun h => (h.alphabet, h.rules)) =
      some (g.alphabet, g.rules)) : x = .ok g := by
  cases x with
  | error e => cases h
  | ok k =>
      obtain ⟨al, rules⟩ := k
      obtain ⟨bl, more⟩ := g
      cases h
      rfl

/-- A text with an empty label, a label that begins with a tab, a negative
number and a probability that is no number. -/
def raggedText : String :=
  "1\n0 S\n3\n1 e x\n2  d\n-5 \tb \n2\n.5 0 2 -5\nnan 0\nrest\n"

/-- The grammar that the ragged text stands for. -/
def ragged : Grammar Float where
  alphabet := ⟨[⟨startId, startLabel, none⟩], [⟨emptyId, emptyLabel, some "x"⟩,
    ⟨2, "", some "d"⟩, ⟨-5, "\tb", none⟩], 3⟩
  rules := [⟨startId, [2, -5], Float.ofBits 0x3fe0000000000000⟩,
    ⟨startId, [], Decimal.Binary64.notANumber⟩]

/-- One letter by way of a symbol with a description: `S -> A`, `A -> a`. -/
def halves : Grammar Float where
  alphabet := described
  rules := [⟨startId, [2], Float.ofBits 0x3fe0000000000000⟩,
    ⟨2, [3], Float.ofBits 0x3fe0000000000000⟩]

theorem built_halves : halves.Built := by
  refine built_described.addRules fun r hr => ?_
  simp only [List.mem_cons, List.not_mem_nil, or_false] at hr
  rcases hr with rfl | rfl <;> rfl

/-- Both kinds of grammars come back. -/
theorem ofIdText_toIdText_ragged :
    ofIdText ragged.toIdText none = .ok ragged ∧
      ofIdText halves.toIdText none = .ok halves := by
  constructor
  · refine ofIdText_toIdText (.inl ⟨raggedText, none, ?_⟩) (by decide +kernel)
    exact eq_ok_of_parts (by decide +kernel)
  · refine ofIdText_toIdText (.inr ⟨built_halves, by decide +kernel, ?_⟩)
      (by decide +kernel)
    intro s hs d hd
    simp only [halves, described, Alphabet.symbols, List.cons_append,
      List.nil_append, List.mem_cons, List.not_mem_nil, or_false] at hs
    rcases hs with rfl | rfl | rfl | rfl <;> cases hd <;>
      exact ⟨⟨by decide, by decide⟩, by decide⟩

end StochasticGrammar.Grammar
