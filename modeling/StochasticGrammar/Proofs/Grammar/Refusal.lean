import StochasticGrammar.Proofs.Grammar.Steps

/-!
# Texts that are refused

A reader ends in one of two ways: it refuses the text with an error of the
grammar, or it returns a grammar whose rules stand between symbols that exist,
with nonterminals on the left.  No lapse of one of its steps gets out.

In the format with symbol numbers the rules come last.  Where the blocks before
them and the count are in order, the text is refused exactly if a line of the
rule block is at fault, and the error is that of the first such line, with the
number that this line has in the text.

Main results: `Grammar.readers_end_well`.
-/

namespace StochasticGrammar.Grammar

open Text

variable {α : Type} [NumberText α] {file : Option String}

/-! ## Lines of the rule block -/

/-- What is wrong with a line of the rule block, if anything is. -/
def lineFault? (al : Alphabet) (row : String) :
    Option (GrammarError.Cause α) :=
  match (readRule? row : Option (Rule α)) with
  | none => some (.invalidRule row)
  | some r => ruleFault? al r

/-- The first line that is at fault, its place among the lines, and what is
wrong with it. -/
structure FirstFault (al : Alphabet) (rows : List String) (ix : Nat)
    (cause : GrammarError.Cause α) : Prop where
  before : ∀ j < ix, ∀ row, rows[j]? = some row →
    (lineFault? al row : Option (GrammarError.Cause α)) = none
  fault : ∃ row, rows[ix]? = some row ∧ lineFault? al row = some cause

theorem firstFault_zero {al : Alphabet} {row : String} {rows : List String}
    {cause : GrammarError.Cause α} :
    FirstFault al (row :: rows) 0 cause ↔ lineFault? al row = some cause := by
  constructor
  · rintro ⟨-, row', hGet, hFault⟩
    cases hGet
    exact hFault
  · intro hFault
    exact ⟨fun j hj => absurd hj (Nat.not_lt_zero j), row, rfl, hFault⟩

theorem firstFault_succ {al : Alphabet} {row : String} {rows : List String}
    {ix : Nat} {cause : GrammarError.Cause α} :
    FirstFault al (row :: rows) (ix + 1) cause ↔
      (lineFault? al row : Option (GrammarError.Cause α)) = none ∧
        FirstFault al rows ix cause := by
  constructor
  · rintro ⟨hBefore, hFault⟩
    refine ⟨hBefore 0 (Nat.succ_pos ix) row rfl, fun j hj r hr => ?_, hFault⟩
    exact hBefore (j + 1) (Nat.succ_lt_succ hj) r hr
  · rintro ⟨hFirst, hBefore, hFault⟩
    refine ⟨fun j hj r hr => ?_, hFault⟩
    cases j with
    | zero =>
        cases hr
        exact hFirst
    | succ j => exact hBefore j (Nat.lt_of_succ_lt_succ hj) r hr

/-- A first line that is at fault is the first one at fault. -/
theorem firstFault_cons_of_eq_some {al : Alphabet} {row : String}
    {rows : List String} {ix : Nat} {cause other : GrammarError.Cause α}
    (h : lineFault? al row = some cause) :
    FirstFault al (row :: rows) ix other ↔ ix = 0 ∧ other = cause := by
  cases ix with
  | zero => simp [firstFault_zero, h, eq_comm]
  | succ ix => simp [firstFault_succ, h]

/-- After a line that is in order, the first one at fault comes later. -/
theorem firstFault_cons_of_eq_none {al : Alphabet} {row : String}
    {rows : List String} {ix : Nat} {cause : GrammarError.Cause α}
    (h : (lineFault? al row : Option (GrammarError.Cause α)) = none) :
    FirstFault al (row :: rows) ix cause ↔
      ∃ jx, ix = jx + 1 ∧ FirstFault al rows jx cause := by
  cases ix with
  | zero => simp [firstFault_zero, h]
  | succ ix => simp [firstFault_succ, h]

/-- One line is added or refused, with its own number. -/
theorem addRuleLines_cons (g : Grammar α) (line : Nat) (row : String)
    (rows : List String) :
    (∃ cause, lineFault? g.alphabet row = some cause ∧
      addRuleLines file g line (row :: rows) = .error ⟨cause, file, line⟩) ∨
    ∃ extended : Grammar α, extended.alphabet = g.alphabet ∧
      (lineFault? g.alphabet row : Option (GrammarError.Cause α)) = none ∧
      addRuleLines file g line (row :: rows) =
        addRuleLines file extended (line + 1) rows := by
  rw [addRuleLines, lineFault?]
  cases hRead : (readRule? row : Option (Rule α)) with
  | none => exact .inl ⟨_, rfl, rfl⟩
  | some r =>
      dsimp only
      cases hFault : ruleFault? g.alphabet r with
      | some cause =>
          have hAdd := addRule_eq_error_iff.2 ⟨cause, hFault, rfl⟩
          rw [hAdd]
          exact .inl ⟨cause, rfl, rfl⟩
      | none =>
          have hAdd := addRule_eq_ok_iff.2 ⟨hFault, rfl⟩
          rw [hAdd]
          exact .inr ⟨⟨g.alphabet, g.rules ++ [r]⟩, rfl, rfl, rfl⟩

/-- A list of rule lines is refused at the first line that is at fault. -/
theorem addRuleLines_eq_error_iff {rows : List String} {e : GrammarError α} :
    ∀ {g : Grammar α} {line : Nat},
      addRuleLines file g line rows = .error e ↔
        ∃ ix cause, FirstFault g.alphabet rows ix cause ∧
          e = ⟨cause, file, line + ix⟩ := by
  induction rows with
  | nil =>
      intro g line
      constructor
      · intro h
        cases h
      · rintro ⟨ix, cause, ⟨-, row, hGet, -⟩, -⟩
        cases hGet
  | cons row rows ih =>
      intro g line
      rcases addRuleLines_cons g line row rows with
        ⟨cause, hFault, hRun⟩ | ⟨extended, hAl, hNone, hRun⟩
      · rw [hRun, Except.error.injEq]
        simp only [firstFault_cons_of_eq_some hFault]
        constructor
        · rintro rfl
          exact ⟨0, cause, ⟨rfl, rfl⟩, rfl⟩
        · rintro ⟨_, _, ⟨rfl, rfl⟩, rfl⟩
          rfl
      · rw [hRun, ih, hAl]
        simp only [firstFault_cons_of_eq_none hNone]
        constructor
        · rintro ⟨ix, cause, hFirst, rfl⟩
          exact ⟨ix + 1, cause, ⟨ix, rfl, hFirst⟩,
            by rw [Nat.add_assoc, Nat.add_comm 1 ix]⟩
        · rintro ⟨_, cause, ⟨ix, rfl, hFirst⟩, rfl⟩
          exact ⟨ix, cause, hFirst, by rw [Nat.add_assoc, Nat.add_comm 1 ix]⟩

/-! ## The rule block -/

/-- The lines of a text. -/
def textLines (text : String) : List String :=
  (Text.lines text.toList).map String.ofList

/-- The alphabet of a text, how many lines stand before its rules, and the lines
of its rules. -/
def ruleBlock (file : Option String) (lines : List String) :
    Except (GrammarError α) (Alphabet × Nat × List String) := do
  let (nonterminals, rd) ← takeBlock file ⟨lines, 0⟩
  let (terminals, rd) ← takeBlock file rd
  match Alphabet.ofLines nonterminals terminals with
  | .error e => .error ⟨.symbol e, file, 0⟩
  | .ok al =>
    let (rules, _) ← takeBlock file rd
    return (al, rd.consumed + 1, rules)

/-- The reader deals with the rules when it has dealt with the rest. -/
theorem ofIdLines_eq (lines : List String) :
    (ofIdLines lines file : Except (GrammarError α) (Grammar α)) =
      ruleBlock file lines >>= fun (al, before, rows) =>
        addRuleLines file (empty al) (before + 1) rows := by
  unfold ofIdLines ruleBlock
  rw [bind_assoc]
  refine congrArg _ (funext fun (nonterminals, rd) => ?_)
  dsimp only
  rw [bind_assoc]
  refine congrArg _ (funext fun (terminals, rd) => ?_)
  dsimp only
  cases Alphabet.ofLines nonterminals terminals with
  | error e => rfl
  | ok al =>
      dsimp only
      rw [bind_assoc]
      rfl

/-- A reader that has read the lines in front of a place and has those behind it
left. -/
def Reader.At (rd : Reader) (lines : List String) : Prop :=
  rd.rest = lines.drop rd.consumed

omit [NumberText α] in
/-- A block that is taken stands behind its count. -/
theorem Reader.At.takeBlock {rd rd' : Reader} {lines rows : List String}
    (hAt : rd.At lines) (h : (Grammar.takeBlock file rd :
      Except (GrammarError α) (List String × Reader)) = .ok (rows, rd')) :
    rd'.At lines ∧ ∀ ix < rows.length,
      lines[rd.consumed + 1 + ix]? = rows[ix]? := by
  unfold Grammar.takeBlock at h
  split at h
  · cases h
  · rename_i line rest hRest
    have hDrop : lines.drop (rd.consumed + 1) = rest := by
      rw [← List.tail_drop, ← hAt, hRest]
      rfl
    split at h
    · cases h
    · split at h
      · cases h
      · cases h
        constructor
        · rw [Reader.At, ← hDrop, List.drop_drop]
        · intro ix hix
          rw [List.length_take] at hix
          rw [← List.getElem?_drop, hDrop, List.getElem?_take, if_pos (by omega)]

omit [NumberText α] in
/-- The lines of the rule block are lines of the text. -/
theorem getElem?_of_ruleBlock {lines rows : List String} {al : Alphabet}
    {before : Nat}
    (h : (ruleBlock file lines : Except (GrammarError α) _) =
      .ok (al, before, rows)) :
    ∀ ix < rows.length, lines[before + ix]? = rows[ix]? := by
  obtain ⟨⟨nonterminals, rd⟩, hFirst, h⟩ := bind_eq_ok.1 h
  obtain ⟨⟨terminals, rd'⟩, hSecond, h⟩ := bind_eq_ok.1 h
  cases hAl : Alphabet.ofLines nonterminals terminals with
  | error e => simp [hAl] at h
  | ok read =>
      simp only [hAl] at h
      obtain ⟨⟨rules, rd''⟩, hThird, h⟩ := bind_eq_ok.1 h
      cases h
      have hStart : (⟨lines, 0⟩ : Reader).At lines := rfl
      have hNext := (hStart.takeBlock hFirst).1
      exact ((hNext.takeBlock hSecond).1.takeBlock hThird).2

/-! ## How readers end -/

/-- A grammar whose rules stand between symbols that exist, with nonterminals on
the left. -/
def Referring (g : Grammar α) : Prop :=
  ∀ r ∈ g.rules, g.alphabet.isNonterminal r.lhs = true ∧
    ∀ id ∈ r.rhs, g.alphabet.hasId id = true

omit [NumberText α] in
theorem WellFormed.referring {g : Grammar α} (h : g.WellFormed) :
    g.Referring :=
  fun r hr => (ruleFault?_eq_none_iff_isNonterminal h.alphabet).1 (h.rules r hr)

/-- How a reader ends, seen from its steps and as it runs: with a grammar in
order, or with an error of the grammar. -/
def EndsWell (steps : Except (Lapse α) (Grammar α))
    (run : Except (GrammarError α) (Grammar α)) : Prop :=
  (∃ g, steps = .ok g ∧ run = .ok g ∧ g.Referring) ∨
    ∃ e, steps = .error (.grammar e) ∧ run = .error e

omit [NumberText α] in
theorem endsWell_of_eq {steps : Except (Lapse α) (Grammar α)}
    {run : Except (GrammarError α) (Grammar α)}
    (hSteps : steps = run.mapError .grammar)
    (hRun : ∀ g, run = .ok g → g.WellFormed) : EndsWell steps run := by
  cases run with
  | error e => exact .inr ⟨e, hSteps, rfl⟩
  | ok g => exact .inl ⟨g, hSteps, rfl, (hRun g rfl).referring⟩

/-- Whatever a text holds, the readers of both formats refuse it with an error
of the grammar or return a grammar in order, and none of their steps fails in
another way.  A text in the format with symbol numbers that is in order up to
its rules is refused exactly if a rule line is at fault, with the number that
the first of these lines has in the text. -/
theorem readers_end_well :
    (∀ (text : String) (file : Option String),
      EndsWell (Steps.idLines file (textLines text))
        (ofIdText text file : Except (GrammarError α) (Grammar α))) ∧
    (∀ (rows : List String) (file : Option String),
      EndsWell (Steps.labelLines file rows)
        (ofLabelLines rows file : Except (GrammarError α) (Grammar α))) ∧
    ∀ (text : String) (file : Option String) (al : Alphabet) (before : Nat)
      (rows : List String),
      (ruleBlock file (textLines text) : Except (GrammarError α) _) =
        .ok (al, before, rows) →
      (∀ ix < rows.length, (textLines text)[before + ix]? = rows[ix]?) ∧
      ∀ e : GrammarError α, ofIdText text file = .error e ↔
        ∃ ix cause, FirstFault al rows ix cause ∧
          e = ⟨cause, file, before + ix + 1⟩ := by
  refine ⟨fun text file => ?_, fun rows file => ?_, ?_⟩
  · exact endsWell_of_eq (Steps.idLines_eq file (textLines text))
      fun g hRun => wellFormed_ofIdText hRun
  · exact endsWell_of_eq (Steps.labelLines_eq file rows)
      fun g hRun => wellFormed_ofLabelLines hRun
  · intro text file al before rows hBlock
    refine ⟨getElem?_of_ruleBlock hBlock, fun e => ?_⟩
    have hRun : (ofIdText text file : Except (GrammarError α) (Grammar α)) =
        addRuleLines file (empty al) (before + 1) rows := by
      show ofIdLines (textLines text) file = _
      rw [ofIdLines_eq, hBlock]
      rfl
    rw [hRun, addRuleLines_eq_error_iff]
    refine exists_congr fun ix => exists_congr fun cause => ?_
    rw [Nat.add_right_comm before 1 ix]
    rfl

/-- A text with two rule lines, the second of which begins with no number. -/
def misreadText : String := "1\n0 S\n1\n1 e\n2\n1.0 0 1\nfoo 0 1\n"

/-- The seventh line is blamed for its form. -/
theorem readers_end_well_misread :
    (ofIdText misreadText (some "g.txt") :
      Except (GrammarError Float) (Grammar Float)) =
        .error ⟨.invalidRule "foo 0 1", some "g.txt", 7⟩ := by
  have hParts : (ruleBlock (some "g.txt") (textLines misreadText) :
      Except (GrammarError Float) _).toOption =
        some (⟨[⟨0, "S", none⟩], [⟨1, "e", none⟩], 2⟩, 5,
          ["1.0 0 1", "foo 0 1"]) := by
    decide +kernel
  have hBlock : (ruleBlock (some "g.txt") (textLines misreadText) :
      Except (GrammarError Float) _) =
        .ok (⟨[⟨0, "S", none⟩], [⟨1, "e", none⟩], 2⟩, 5,
          ["1.0 0 1", "foo 0 1"]) := by
    cases hResult : (ruleBlock (some "g.txt") (textLines misreadText) :
        Except (GrammarError Float) _) with
    | error e => rw [hResult] at hParts; cases hParts
    | ok block => rw [hResult] at hParts; cases hParts; rfl
  refine ((readers_end_well.2.2 misreadText _ _ _ _ hBlock).2 _).2
    ⟨1, _, ⟨?_, "foo 0 1", rfl, ?_⟩, rfl⟩
  · intro j hj row hGet
    obtain rfl : j = 0 := by omega
    cases hGet
    have hNone : (lineFault? ⟨[⟨0, "S", none⟩], [⟨1, "e", none⟩], 2⟩ "1.0 0 1" :
        Option (GrammarError.Cause Float)).isNone = true := by
      decide +kernel
    exact Option.isNone_iff_eq_none.1 hNone
  · have hRead : (readRule? "foo 0 1" : Option (Rule Float)) = none := by
      decide +kernel
    rw [lineFault?, hRead]

end StochasticGrammar.Grammar
