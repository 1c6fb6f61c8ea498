import StochasticGrammar.Proofs.Grammar.IdFormat

/-!
# From the format with labels to the format with symbol numbers

The format with labels is read line by line, where a line ends at a line feed
and nowhere else.  The description of a symbol is all that follows its label,
so it may hold the other characters that end a line: a form feed, a vertical
tab, the separators, the next line character.  The writer of the format with
symbol numbers puts the description into the line of the symbol as it is, and
the reader ends a line at each of these characters.

So a grammar read with labels comes back from its own text exactly if no
description holds one of them.

Main results: `ofIdText_toIdText_iff`, `not_isOk_formFeed`.
-/

namespace StochasticGrammar.Grammar

open Text

/-- A grammar that was read with labels comes back from its own text if and only
if every description is within one line. -/
theorem ofIdText_toIdText_iff {rows : List String} {file : Option String}
    {g : Grammar Float} (h : ofLabelLines rows file = .ok g)
    (hIntegers : ∀ i ∈ g.integers, readInt? (writeInt i) = some i)
    (hFloat : ∀ r ∈ g.rules,
      Decimal.readFloat? (Decimal.floatText r.probability) =
        some r.probability) (target : Option String) :
    ofIdText g.toIdText target = .ok g ↔
      ∀ s ∈ g.alphabet.symbols, ∀ d ∈ s.description, OneLine d.toList := by
  obtain ⟨hBuilt, hTrimmed⟩ := built_ofLabelLines h
  have hNumbers : ∀ r ∈ g.rules, StorableNumber r.probability :=
    fun r hr => ⟨Decimal.isWord_floatText r.probability, hFloat r hr⟩
  constructor
  · intro hRead s hs d hd
    have hStorable := storable_of_ofIdText hRead hNumbers
    exact ((hStorable.alphabet.symbols s hs).description d hd).2
  · intro hLine
    exact ofIdText_toIdText_of_storable (hBuilt.storable hIntegers
      (fun s hs d hd => ⟨hTrimmed s hs d hd, hLine s hs d hd⟩) hNumbers)

/-- The lines of a text with one symbol and one rule, whose description is
within one line. -/
def plainRows : List String :=
  ["1\n", "1 a a letter # no. 2\n", "1\n", "0.5 S a a"]

/-- The grammar with the rule `S -> a a`. -/
def plain : Grammar Float where
  alphabet := ⟨[⟨startId, startLabel, some "start symbol"⟩],
    [⟨emptyId, emptyLabel, some "empty string"⟩, ⟨2, "a", some "a letter"⟩], 3⟩
  rules := [⟨startId, [2, 2], Float.ofBits 0x3fe0000000000000⟩]

/-- Descriptions of several words come back. -/
theorem ofIdText_toIdText_iff_plain :
    ofLabelLines plainRows none = .ok plain ∧
      ofIdText plain.toIdText none = .ok plain := by
  have hRead : ofLabelLines plainRows none = .ok plain :=
    eq_ok_of_parts (by decide +kernel)
  have hLines : ∀ s ∈ plain.alphabet.symbols, ∀ d ∈ s.description,
      OneLine d.toList := by
    decide
  exact ⟨hRead, (ofIdText_toIdText_iff hRead (by decide +kernel)
    (by decide +kernel) none).2 hLines⟩

/-- The lines of a text with one symbol, whose description has a form feed
inside. -/
def formFeedRows : List String :=
  (linesKept "1\n0 A a\x0cb\n0\n".toList).map String.ofList

/-- The grammar without rules whose symbol has a form feed in its
description. -/
def formFeed : Grammar Float where
  alphabet := ⟨[⟨startId, startLabel, some "start symbol"⟩,
    ⟨2, "A", some "a\x0cb"⟩], [⟨emptyId, emptyLabel, some "empty string"⟩], 3⟩
  rules := []

/-- A form feed inside a description is read with labels, and the text that is
written then is no grammar. -/
theorem not_isOk_formFeed :
    ofLabelLines formFeedRows none = .ok formFeed ∧
      (ofIdText formFeed.toIdText none :
        Except (GrammarError Float) (Grammar Float)).isOk = false :=
  ⟨eq_ok_of_parts (by decide +kernel), by decide +kernel⟩

end StochasticGrammar.Grammar
