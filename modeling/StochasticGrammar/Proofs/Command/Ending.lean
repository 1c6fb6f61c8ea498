import StochasticGrammar.Command.Report
import StochasticGrammar.Proofs.Grammar.Reading
import StochasticGrammar.Proofs.NormalForm.Failure
import StochasticGrammar.Proofs.Parse.Showable

/-!
# How a run ends

A run goes through its steps one after another, and each of them either leads to
a value for the next one or ends the run (`Running.Leads`).  A step that refuses
what it is given ends it with the code 1.  Once the configuration is read, what
is found later can always be shown, so a run that draws nothing ends abnormally
for two reasons only: the bytes of the grammar file are not UTF-8
(`Undecodable`), or the conversion comes to a system of unit rules whose
condition number cannot be found (`UndefinedChains`).

Which condition numbers can be found is up to the procedures of linear algebra.
If they find none for a matrix with an entry that is not a number, then a grammar
whose unit rules lead to such an entry ends its run abnormally.

Main results: `leads_steps`, `ending_report`.
-/

namespace StochasticGrammar.Command

/-! ## Steps -/

namespace Running

variable {β γ : Type} {p : β → Prop} {q : Ending → Prop}

/-- Whatever was reported before, a step leads to a value with one property or
ends the run in a way with another. -/
def Leads (x : Running β) (p : β → Prop) (q : Ending → Prop) : Prop :=
  ∀ before : Progress,
    match (x.run.run before).1 with
    | .ok b => p b
    | .error ending => q ending

theorem leads_pure {b : β} (h : p b) : Leads (pure b) p q := fun _ => h

theorem leads_throw {ending : Ending} (h : q ending) :
    Leads (throw ending) p q := fun _ => h

theorem Leads.bind {x : Running γ} {f : γ → Running β} {r : γ → Prop}
    (hx : x.Leads r q) (hf : ∀ c, r c → (f c).Leads p q) :
    (x >>= f).Leads p q := by
  intro before
  have hFirst := hx before
  have hRun : (x >>= f).run.run before =
      match x.run.run before with
      | (.ok c, after) => (f c).run.run after
      | (.error ending, after) => (.error ending, after) := by
    show StateT.run (ExceptT.run (x >>= f)) before = _
    rw [ExceptT.run_bind, StateT.run_bind]
    cases x.run.run before with
    | mk result after => cases result <;> rfl
  rw [hRun]
  cases hStep : x.run.run before with
  | mk result after =>
      rw [hStep] at hFirst
      cases result with
      | ok c => exact hf c hFirst after
      | error ending => exact hFirst

/-- A step that only reports leads on. -/
theorem leads_modify (f : Progress → Progress) :
    Leads (modify f) (fun _ => True) q := fun _ => trivial

theorem leads_print (text : String) :
    (print text).Leads (fun _ => True) q := leads_modify _

theorem leads_say (line : String) : (say line).Leads (fun _ => True) q :=
  leads_print _

theorem leads_record (records : List LogRecord) :
    (record records).Leads (fun _ => True) q := leads_modify _

/-- A refusal ends the run with the code 1. -/
theorem leads_refuse (message : String) (h : q (.code 1)) :
    Leads (refuse message) p q :=
  (leads_record _).bind fun _ _ => leads_throw h

theorem leads_crash {cause : Crash} (h : q (.crash cause)) :
    Leads (crash cause) p q := leads_throw h

/-- What succeeds is no reason to end the run. -/
theorem leads_orCrash {ε : Type} {cause : ε → Crash} {x : Except ε β}
    (h : ∃ b, x = .ok b) : (orCrash cause x).Leads (fun _ => True) q := by
  obtain ⟨b, rfl⟩ := h
  exact leads_pure trivial

/-- Drawing that does not fail leads to what it yields. -/
theorem leads_draw {x : Drawing β} (h : x.Yields p) : (draw x).Leads p q := by
  intro before
  obtain ⟨b, fresh, hRun, hb⟩ := h before.fresh
  have hDraw : (draw x).run.run before =
      (orCrash .build (x.run.run before.fresh).1 : Running β).run.run
        { before with fresh := (x.run.run before.fresh).2 } := rfl
  rw [hRun] at hDraw
  rw [hDraw]
  exact hb

theorem leads_foldlM {f : β → γ → Running β} {cs : List γ}
    (h : ∀ b, ∀ c ∈ cs, (f b c).Leads (fun _ => True) q) (b : β) :
    (cs.foldlM f b).Leads (fun _ => True) q := by
  induction cs generalizing b with
  | nil => exact leads_pure trivial
  | cons c cs ih =>
      rw [List.foldlM_cons]
      exact (h b c (by simp)).bind fun b _ =>
        ih (fun b d hd => h b d (by simp [hd])) b

end Running

open Running

/-! ## Reading -/

section Steps

variable {l : LinearAlgebra} {initial s : Settings} {a : Arguments}
  {config : Configuration} {file : Option ByteArray} {g : Grammar Float}
  {q : Ending → Prop}

theorem leads_setNamedLevel : (setNamedLevel s).Leads (fun _ => True) q :=
  (leads_record _).bind fun _ _ => leads_modify _

/-- A configuration that can be read leads to its settings. -/
theorem leads_configure (hRead : initial.read config = (s, none)) :
    (configure initial a config).Leads (· = s) q := by
  have hLevel : Leads (do
      if a.verbose || s.debug then setLevel Severity.debug.level
      else setNamedLevel s
      return s : Running Settings) (· = s) q := by
    dsimp only
    split
    · exact (leads_modify _).bind fun _ _ => leads_pure rfl
    · exact leads_setNamedLevel.bind fun _ _ => leads_pure rfl
  unfold configure
  rw [hRead]
  dsimp only at hLevel ⊢
  by_cases hVerbose : a.verbose = true
  · rw [if_pos hVerbose]
    exact hLevel
  · rw [if_neg hVerbose]
    exact (leads_record _).bind fun _ _ => hLevel

/-- A grammar that can be read leads on. -/
theorem leads_readGrammar (hGrammar : Grammar.ofLabelFile a.grammar file = .ok g) :
    (readGrammar a file).Leads (· = g) q := by
  have hg := Grammar.wellFormed_ofLabelFile hGrammar
  unfold readGrammar
  rw [hGrammar]
  dsimp only
  split
  · refine (leads_say _).bind fun _ _ => (leads_say _).bind fun _ _ => ?_
    refine (leads_orCrash hg.exists_rulesText).bind fun _ _ => ?_
    exact (leads_say _).bind fun _ _ => leads_pure rfl
  · exact leads_pure rfl

/-- How a run ends whose grammar file cannot be read. -/
def Ending.ofFileError : FileError Float → Ending
  | .grammar _ => .code 1
  | .encoding => .crash .encoding
  | .invalidName => .crash .invalidName

/-- A grammar that cannot be read ends the run. -/
theorem leads_readGrammar_of_error {e : FileError Float}
    (hGrammar : Grammar.ofLabelFile a.grammar file = .error e) :
    (readGrammar a file).Leads (fun _ => False) (· = .ofFileError e) := by
  unfold readGrammar
  rw [hGrammar]
  cases e with
  | grammar e => exact leads_refuse _ rfl
  | encoding => exact leads_crash rfl
  | invalidName => exact leads_crash rfl

/-! ## Converting -/

/-- A conversion whose chains are not undefined leads to a well-formed grammar,
or is refused. -/
theorem leads_convert (hg : g.WellFormed)
    (hDefined : (a.cnf || a.parser = .cyk) = true →
      NormalForm.result (s.options l) g ≠ .error (.chains .undefined)) :
    (convert l (.of l) a s g).Leads (fun h => h.WellFormed)
      (· = .code 1) := by
  unfold convert
  split
  · rename_i hConvert
    refine (leads_record _).bind fun _ _ => ?_
    split
    · rename_i hResult
      exact absurd hResult (hDefined hConvert)
    · exact leads_refuse _ rfl
    · rename_i c hResult
      obtain ⟨t, chains, hConverted⟩ := NormalForm.exists_converted hResult
      have hc := hConverted.wellFormed_result hg
      dsimp only
      split
      · refine (leads_say _).bind fun _ _ => ?_
        refine (leads_orCrash hc.exists_rulesText).bind fun _ _ => ?_
        exact (leads_say _).bind fun _ _ => leads_pure hc
      · exact leads_pure hc
  · exact leads_pure hg

/-- A conversion whose chains are undefined ends the run. -/
theorem leads_convert_of_undefined
    (hConvert : (a.cnf || a.parser = .cyk) = true)
    (hResult :
      NormalForm.result (s.options l) g = .error (.chains .undefined)) :
    (convert l (.of l) a s g).Leads (fun _ => False)
      (· = .crash .undefinedCondition) := by
  have hForm : (Conversion.of l).normalForm s g =
      .error (.chains .undefined) := hResult
  unfold convert
  rw [if_pos hConvert, hForm]
  exact (leads_record _).bind fun _ _ => leads_crash rfl

/-! ## Parsing and showing -/

/-- What a parser finds can be shown. -/
theorem showable_of_parseWith {kind : ParserKind} {g : Grammar Float}
    {input : List SymbolId} {found : Findings} {records : List LogRecord}
    (hg : g.WellFormed) (h : parseWith kind g input = .ok (found, records)) :
    found.derivations.Showable ∧
      ∀ states ∈ found.states?, ∃ text, states = .ok text := by
  cases kind with
  | cyk =>
      unfold parseWith at h
      cases hMake : Cyk.Parse.make g input with
      | error e =>
          rw [hMake] at h
          cases h
      | ok p =>
          rw [hMake] at h
          cases h
          exact ⟨Cyk.Parse.showable_derivations hg hMake, by simp⟩
  | earley =>
      unfold parseWith Earley.Parse.make at h
      cases hFault : Parse.inputFault? g.alphabet 0 input with
      | some e =>
          rw [hFault] at h
          cases h
      | none =>
          rw [hFault] at h
          cases h
          have hp := Earley.Task.proper_make hg input
          have hInput := (Parse.inputFault?_eq_none_iff _ 0 input).1 hFault
          refine ⟨Earley.Parse.showable_derivations hp
            fun id hId => (hInput id hId).2, ?_⟩
          rintro states ⟨⟩
          exact Earley.Parse.exists_statesText hp false

theorem leads_parse (hg : g.WellFormed) :
    (parse a g).Leads
      (fun found => found.derivations.Showable ∧
        ∀ states ∈ found.states?, ∃ text, states = .ok text)
      (· = .code 1) := by
  unfold parse
  split
  · exact leads_refuse _ rfl
  · split
    · exact leads_refuse _ rfl
    · rename_i hParse
      refine (leads_record _).bind fun _ _ => ?_
      exact (leads_modify _).bind fun _ _ =>
        leads_pure (showable_of_parseWith hg hParse)

section Showable

variable {d : Derivations Float} (hd : d.Showable)

include hd

theorem leads_showTree {ix : Nat} (hIx : ix < d.count) (total : Float) :
    (showTree a d total ix).Leads (fun _ => True) q := by
  refine (leads_draw (hd.build ix hIx)).bind fun t ht => ?_
  refine (leads_orCrash ht.exists_labelText).bind fun _ _ => ?_
  refine (leads_say _).bind fun _ _ => ?_
  dsimp only
  split
  · refine (leads_orCrash (ht.exists_outline _ _)).bind fun _ _ => ?_
    exact (leads_print _).bind fun _ _ => leads_pure trivial
  · exact leads_pure trivial

theorem leads_showDerivations :
    (showDerivations a d).Leads (fun _ => True) q := by
  have hTrees : ∀ total, ∀ ix ∈ List.range d.count,
      (showTree a d total ix).Leads (fun _ => True) q :=
    fun total _ hIx => leads_showTree hd (List.mem_range.1 hIx) total
  refine (leads_say _).bind fun _ _ => ?_
  refine (leads_orCrash (Alphabet.exists_formatString hd.input)).bind
    fun _ _ => ?_
  refine (leads_say _).bind fun _ _ => (leads_say _).bind fun _ _ => ?_
  refine (leads_say _).bind fun _ _ => ?_
  exact (leads_foldlM hTrees 0).bind fun _ _ => leads_say _

end Showable

theorem leads_drawTrees {d : Derivations Float} (hDot : a.dot = none) :
    (drawTrees a d).Leads (fun _ => True) q := by
  unfold drawTrees
  rw [hDot]
  exact leads_pure trivial

theorem leads_showStates {found : Findings}
    (hStates : ∀ states ∈ found.states?, ∃ text, states = .ok text) :
    (showStates a found).Leads (fun _ => True) q := by
  unfold showStates
  split
  · split
    · rename_i states hSome
      exact (leads_orCrash (hStates states hSome)).bind fun _ _ => leads_say _
    · exact leads_record _
  · exact leads_pure trivial

/-! ## Whole runs -/

/-- There is a grammar file, and its bytes are not UTF-8. -/
def Undecodable (file : Option ByteArray) : Prop :=
  ∃ bytes ∈ file, decodeText? bytes = none

/-- A grammar is read and has to be converted, and the conversion comes to a
system of unit rules that has a property. -/
def ReachesSystem (l : LinearAlgebra) (s : Settings) (a : Arguments)
    (file : Option ByteArray) (p : (n : Nat) → Mat Float n n → Prop) : Prop :=
  (a.cnf || a.parser = .cyk) = true ∧
    ∃ g e, Grammar.ofLabelFile a.grammar file = .ok g ∧
      NormalForm.emptied (s.options l) g = .ok e ∧
      p _ (NormalForm.unitMatrix e.rules (e.alphabet.ids .nonterminal)
        (e.alphabet.ids .nonterminal)).subOne

/-- The conversion comes to a system whose condition number cannot be found. -/
def UndefinedChains (l : LinearAlgebra) (s : Settings) (a : Arguments)
    (file : Option ByteArray) : Prop :=
  ReachesSystem l s a file fun n m => l.condition? n m = none

/-- The conversion comes to a system in which an entry is not a number. -/
def NotNumberChains (l : LinearAlgebra) (s : Settings) (a : Arguments)
    (file : Option ByteArray) : Prop :=
  ReachesSystem l s a file fun _ m =>
    NormalForm.anyEntry Float.isNaN m = true

theorem NotNumberChains.undefined (hCondition : l.RefusesNotNumbers)
    (h : NotNumberChains l s a file) : UndefinedChains l s a file := by
  obtain ⟨hConvert, g, e, hGrammar, hEmptied, hEntry⟩ := h
  exact ⟨hConvert, g, e, hGrammar, hEmptied, hCondition _ _ hEntry⟩

theorem ofLabelFile_eq_encoding_iff {name : String}
    (hName : Text.isFileName name.toList = true) :
    (Grammar.ofLabelFile name file : Except (FileError Float) _) =
      .error .encoding ↔ Undecodable file := by
  unfold Grammar.ofLabelFile Grammar.ofFile Undecodable
  rw [if_neg (by simp [hName])]
  cases file with
  | none => simp
  | some bytes =>
      cases hText : decodeText? bytes with
      | none => simp [hText]
      | some text => simp [hText, mapError_eq_error]

theorem ofLabelFile_ne_invalidName {name : String}
    (hName : Text.isFileName name.toList = true) :
    (Grammar.ofLabelFile name file : Except (FileError Float) _) ≠
      .error .invalidName := by
  unfold Grammar.ofLabelFile Grammar.ofFile
  rw [if_neg (by simp [hName])]
  cases file with
  | none => simp
  | some bytes =>
      cases hText : decodeText? bytes with
      | none => simp [hText]
      | some text => simp [hText, mapError_eq_error]

/-- A conversion fails because of undefined chains exactly if the condition
number of the system of unit rules cannot be found. -/
theorem undefinedChains_iff
    (hGrammar : Grammar.ofLabelFile a.grammar file = .ok g) :
    UndefinedChains l s a file ↔ (a.cnf || a.parser = .cyk) = true ∧
      NormalForm.result (s.options l) g = .error (.chains .undefined) := by
  have hg := Grammar.wellFormed_ofLabelFile hGrammar
  -- There is a start symbol, so the system is not the one without equations.
  have hRows : ∀ e, NormalForm.emptied (s.options l) g = .ok e →
      (e.alphabet.ids .nonterminal).length ≠ 0 := by
    intro e hEmptied hLength
    have hStart := (NormalForm.wellFormed_emptied hg hEmptied).start_mem
    rw [List.length_eq_zero_iff.1 hLength] at hStart
    cases hStart
  simp only [UndefinedChains, ReachesSystem, hGrammar, Except.ok.injEq,
    NormalForm.result_eq_chains_iff, NormalForm.solve_eq_undefined_iff]
  constructor
  · rintro ⟨hConvert, _, e, rfl, hEmptied, hCondition⟩
    refine ⟨hConvert, e, hEmptied, ?_⟩
    exact (LinearAlgebra.verdict_eq_undefined_iff (hRows e hEmptied)).2
      hCondition
  · rintro ⟨hConvert, e, hEmptied, hVerdict⟩
    refine ⟨hConvert, g, e, rfl, hEmptied, ?_⟩
    exact (LinearAlgebra.verdict_eq_undefined_iff (hRows e hEmptied)).1
      hVerdict

/-- The steps of a run whose grammar can be read and converted lead to its end,
unless something is refused. -/
theorem leads_steps (hRead : initial.read config = (s, none))
    (hDot : a.dot = none)
    (hGrammar : Grammar.ofLabelFile a.grammar file = .ok g)
    (hDefined : ¬UndefinedChains l s a file) :
    (steps l (.of l) initial a config file).Leads (fun _ => True)
      (· = .code 1) := by
  rw [undefinedChains_iff hGrammar, not_and] at hDefined
  refine (leads_configure hRead).bind fun _ hs => ?_
  refine (leads_readGrammar hGrammar).bind fun _ hg => ?_
  subst hs hg
  have hWellFormed := Grammar.wellFormed_ofLabelFile hGrammar
  refine (leads_convert hWellFormed hDefined).bind fun h hh => ?_
  refine (leads_parse hh).bind fun found hFound => ?_
  refine (leads_showDerivations hFound.1).bind fun _ _ => ?_
  refine (leads_showStates hFound.2).bind fun _ _ => ?_
  exact (leads_drawTrees hDot).bind fun _ _ => leads_pure trivial

/-- A run whose steps lead to its end has the code 0. -/
theorem ending_of_leads {c : Conversion} {p : Prop}
    (h : (steps l c initial a config file).Leads (fun _ => p) q) :
    (report l c initial a config file).ending = .code 0 ∧ p ∨
      q (report l c initial a config file).ending := by
  have hStart := h .start
  unfold report
  cases hRun : (steps l c initial a config file).run.run .start with
  | mk result after =>
      rw [hRun] at hStart
      cases result with
      | ok value => exact .inl ⟨rfl, hStart⟩
      | error ending => exact .inr hStart

/-- A run whose grammar cannot be read ends for that reason. -/
theorem ending_of_ofLabelFile_error {c : Conversion} {e : FileError Float}
    (hRead : initial.read config = (s, none))
    (hGrammar : Grammar.ofLabelFile a.grammar file = .error e) :
    (report l c initial a config file).ending = .ofFileError e := by
  have hSteps : (steps l c initial a config file).Leads (fun _ => False)
      (· = .ofFileError e) := by
    refine (leads_configure hRead).bind fun _ _ => ?_
    exact (leads_readGrammar_of_error hGrammar).bind fun _ hNone => hNone.elim
  exact (ending_of_leads hSteps).resolve_left fun h => h.2

theorem ending_of_undefinedChains (hRead : initial.read config = (s, none))
    (hUndefined : UndefinedChains l s a file) :
    (report l (.of l) initial a config file).ending =
      .crash .undefinedCondition := by
  obtain ⟨_, g, _, hGrammar, _⟩ := id hUndefined
  obtain ⟨hConvert, hResult⟩ := (undefinedChains_iff hGrammar).1 hUndefined
  have hSteps : (steps l (.of l) initial a config file).Leads (fun _ => False)
      (· = .crash .undefinedCondition) := by
    refine (leads_configure hRead).bind fun _ hs => ?_
    refine (leads_readGrammar hGrammar).bind fun _ hg => ?_
    subst hs hg
    exact (leads_convert_of_undefined hConvert hResult).bind
      fun _ hNone => hNone.elim
  exact (ending_of_leads hSteps).resolve_left fun h => h.2

/-- Once the configuration is read, a run that draws nothing ends with the code 0
or 1 exactly if the grammar file is missing or in UTF-8, and a conversion finds
the condition number of its system of unit rules.  Otherwise it ends abnormally
for the one of these two reasons that applies; an entry of the system that is not
a number is a case of the second. -/
theorem ending_report (l : LinearAlgebra) (hCondition : l.RefusesNotNumbers)
    {initial s : Settings} {a : Arguments} {config : Configuration}
    (file : Option ByteArray) (hRead : initial.read config = (s, none))
    (hName : Text.isFileName a.grammar.toList = true) (hDot : a.dot = none) :
    let ending := (report l (.of l) initial a config file).ending
    (ending = .code 0 ∨ ending = .code 1 ↔
      ¬Undecodable file ∧ ¬UndefinedChains l s a file) ∧
    (ending = .crash .encoding ↔ Undecodable file) ∧
    (ending = .crash .undefinedCondition ↔ UndefinedChains l s a file) ∧
    (NotNumberChains l s a file → ending = .crash .undefinedCondition) := by
  intro ending
  have hNotNumber (h : NotNumberChains l s a file) :
      ending = .crash .undefinedCondition :=
    ending_of_undefinedChains hRead (h.undefined hCondition)
  rw [← and_assoc, ← and_assoc]
  refine ⟨?_, hNotNumber⟩
  cases hFile : (Grammar.ofLabelFile a.grammar file :
      Except (FileError Float) (Grammar Float)) with
  | error e =>
      have hEnding : ending = .ofFileError e :=
        ending_of_ofLabelFile_error hRead hFile
      have hChains : ¬UndefinedChains l s a file := by
        rintro ⟨_, g, _, hGrammar, _⟩
        rw [hFile] at hGrammar
        cases hGrammar
      have hBytes : _ ↔ Undecodable file := ofLabelFile_eq_encoding_iff hName
      rw [hFile] at hBytes
      cases e with
      | grammar e => simp [hEnding, Ending.ofFileError, ← hBytes, hChains]
      | encoding => simp [hEnding, Ending.ofFileError, ← hBytes, hChains]
      | invalidName => exact absurd hFile (ofLabelFile_ne_invalidName hName)
  | ok g =>
      have hBytes : ¬Undecodable file := by
        rw [← ofLabelFile_eq_encoding_iff hName, hFile]
        simp
      by_cases hChains : UndefinedChains l s a file
      · have hEnding : ending = .crash .undefinedCondition :=
          ending_of_undefinedChains hRead hChains
        simp [hEnding, hBytes, hChains]
      · have hSteps := leads_steps hRead hDot hFile hChains
        rcases ending_of_leads hSteps with ⟨hEnding, _⟩ | hEnding
        · have hEnding : ending = .code 0 := hEnding
          simp [hEnding, hBytes, hChains]
        · have hEnding : ending = .code 1 := hEnding
          simp [hEnding, hBytes, hChains]

end Steps

/-! ## Abnormal ends -/

/-- The request to convert a grammar and to parse one letter. -/
def converting : Arguments where
  grammar := "grammar.txt"
  input := "a"
  cnf := true

/-- The file of a grammar that can be read, with a unit rule whose probability
is not a number: `S -> A` and `A -> a`. -/
def notNumberFile : ByteArray := "2\n1 a\n0 A\n2\nnan S A\n1 A a\n".toUTF8

/-- The file of one byte that begins no character. -/
def loneByteFile : ByteArray := ⟨#[0xff]⟩

/-- Whatever the procedures of linear algebra are, the probability gets into the
system of unit rules, since nothing in that grammar is erasable. -/
theorem notNumberChains_notNumberFile (l : LinearAlgebra) (s : Settings) :
    NotNumberChains l s converting (some notNumberFile) := by
  have hRun : ((Grammar.ofLabelFile converting.grammar (some notNumberFile) :
      Except (FileError Float) _).toOption.any fun g =>
        (NormalForm.split g).toOption.any fun t =>
          (NormalForm.erasables t.rules).isEmpty &&
            NormalForm.anyEntry Float.isNaN
              (NormalForm.unitMatrix
                (NormalForm.withShortened .nothing t.rules)
                (t.alphabet.ids .nonterminal)
                (t.alphabet.ids .nonterminal)).subOne) = true := by
    decide +kernel
  simp only [Option.any_eq_true, toOption_eq_some_iff, Bool.and_eq_true,
    List.isEmpty_iff] at hRun
  obtain ⟨g, hGrammar, t, hSplit, hNone, hEntry⟩ := hRun
  exact ⟨rfl, g, _, hGrammar,
    NormalForm.emptied_of_erasables_nil hSplit hNone, hEntry⟩

/-- The run that converts the grammar with this probability ends abnormally, and
so does the one at bytes that are not UTF-8.  The run that does not convert the
grammar ends with the code 0 or 1. -/
theorem ending_report_notNumber :
    let ending (a : Arguments) (bytes : ByteArray) :=
      (report .standard (.of .standard) {} a ⟨[], none⟩ (some bytes)).ending
    ending converting notNumberFile = .crash .undefinedCondition ∧
      ending converting loneByteFile = .crash .encoding ∧
      (ending { converting with cnf := false } notNumberFile = .code 0 ∨
        ending { converting with cnf := false } notNumberFile = .code 1) := by
  have hRead : ({} : Settings).read ⟨[], none⟩ =
      ({ loaded := true }, none) := rfl
  have hEnding (a : Arguments) (bytes : ByteArray)
      (hName : Text.isFileName a.grammar.toList = true) (hDot : a.dot = none) :=
    ending_report .standard LinearAlgebra.refusesNotNumbers_standard
      (some bytes) hRead hName hDot
  refine ⟨?_, ?_, ?_⟩
  · exact (hEnding converting notNumberFile (by decide) rfl).2.2.2
      (notNumberChains_notNumberFile _ _)
  · exact (hEnding converting loneByteFile (by decide) rfl).2.1.2
      ⟨loneByteFile, rfl, by decide +kernel⟩
  · refine (hEnding { converting with cnf := false } notNumberFile (by decide)
      rfl).1.2 ⟨?_, ?_⟩
    · rintro ⟨bytes, hBytes, hNone⟩
      cases hBytes
      revert hNone
      decide +kernel
    · rintro ⟨hConvert, _⟩
      cases hConvert

/-- Both abnormal ends come about, with the default settings, a configuration
that says nothing, and any procedures that find no condition number for a matrix
with an entry that is not a number. -/
theorem exists_abnormal_ending :
    ∃ (initial s : Settings) (a : Arguments) (config : Configuration)
      (undecodable notNumber : ByteArray),
      initial.read config = (s, none) ∧ a.dot = none ∧
      Text.isFileName a.grammar.toList = true ∧
      ∀ l : LinearAlgebra, l.RefusesNotNumbers →
        (report l (.of l) initial a config (some undecodable)).ending =
          .crash .encoding ∧
        (report l (.of l) initial a config (some notNumber)).ending =
          .crash .undefinedCondition := by
  refine ⟨{}, { loaded := true }, converting, ⟨[], none⟩, loneByteFile,
    notNumberFile, rfl, rfl, by decide, fun l hCondition => ⟨?_, ?_⟩⟩
  · have hFile : (Grammar.ofLabelFile converting.grammar (some loneByteFile) :
        Except (FileError Float) (Grammar Float)) = .error .encoding :=
      (ofLabelFile_eq_encoding_iff (by decide)).2
        ⟨loneByteFile, rfl, by decide +kernel⟩
    exact ending_of_ofLabelFile_error (s := { loaded := true }) rfl hFile
  · exact ending_of_undefinedChains rfl
      ((notNumberChains_notNumberFile l { loaded := true }).undefined
        hCondition)

end StochasticGrammar.Command
