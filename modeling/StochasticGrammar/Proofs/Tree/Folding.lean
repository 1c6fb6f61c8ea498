import Mathlib.Algebra.Group.Defs
import Mathlib.Logic.Equiv.Basic
import Mathlib.Tactic.Choose
import StochasticGrammar.Proofs.Tree.Derivation

/-!
# Folding derivation trees

The rules of one grammar may be cut into the rules of another one: a rule hands
a part of its right side over to a symbol that is there for nothing else.  A
tree of the finer grammar is folded by dissolving the nodes of such hidden
symbols, whose children go to the node above, and by renaming what is left.

A folding is valid if each rule of a visible symbol stands for one rule of the
other grammar, and each of these is stood for once.  Then the trees of the two
grammars correspond to each other, and so do their yields and the products of
their probabilities.

Main results: `Folding.Valid.sameTrees`.
-/

namespace StochasticGrammar

variable {α : Type}

/-! ## Products of rows -/

namespace ParseTree

/-- The product over the rules of a row of trees. -/
def rowProduct? [One α] [Mul α] (g : Grammar α) (ts : List ParseTree) :
    Option α :=
  reduceList? g (· * ·) 1 1 ts

section Product

variable [Monoid α] {g : Grammar α}

/-- What comes before a row is a factor. -/
theorem reduceList?_mul (x : α) (ts : List ParseTree) :
    reduceList? g (· * ·) 1 x ts = (rowProduct? g ts).map (x * ·) := by
  induction ts generalizing x with
  | nil => simp [rowProduct?, reduceList?]
  | cons t ts ih =>
      rw [rowProduct?, reduceList?, reduceList?]
      cases reduce? g (· * ·) 1 t with
      | none => rfl
      | some y =>
          show reduceList? g (· * ·) 1 (x * y) ts =
            (reduceList? g (· * ·) 1 (1 * y) ts).map (x * ·)
          rw [ih, ih, Option.map_map, one_mul]
          exact congrArg (Option.map · _) (funext fun z => mul_assoc x y z)

theorem rowProduct?_cons (t : ParseTree) (ts : List ParseTree) :
    rowProduct? g (t :: ts) = (t.product? g).bind fun y =>
      (rowProduct? g ts).map (y * ·) := by
  rw [rowProduct?, reduceList?, product?]
  cases reduce? g (· * ·) 1 t with
  | none => rfl
  | some y =>
      show reduceList? g (· * ·) 1 (1 * y) ts = (rowProduct? g ts).map (y * ·)
      rw [reduceList?_mul, one_mul]

theorem rowProduct?_singleton (t : ParseTree) :
    rowProduct? g [t] = t.product? g := by
  rw [rowProduct?_cons]
  cases t.product? g <;> simp [rowProduct?, reduceList?]

theorem rowProduct?_append (ts us : List ParseTree) :
    rowProduct? g (ts ++ us) = (rowProduct? g ts).bind fun y =>
      (rowProduct? g us).map (y * ·) := by
  induction ts with
  | nil =>
      show rowProduct? g us = (some 1).bind _
      simp
  | cons t ts ih =>
      rw [List.cons_append, rowProduct?_cons, rowProduct?_cons, ih]
      cases t.product? g with
      | none => rfl
      | some y =>
          cases rowProduct? g ts with
          | none => rfl
          | some z =>
              show ((rowProduct? g us).map (z * ·)).map (y * ·) =
                (rowProduct? g us).map (y * z * ·)
              rw [Option.map_map]
              exact congrArg (Option.map · _)
                (funext fun v => (mul_assoc y z v).symm)

theorem product?_branch {ix : ℕ} {r : Rule α} (hRule : g.rules[ix]? = some r)
    (s : SymbolId) (ts : List ParseTree) :
    (branch ix s ts).product? g =
      (rowProduct? g ts).map (r.probability * ·) := by
  rw [← reduceList?_mul]
  simp [product?, branch, reduce?, entryProbability?, Grammar.rule?, hRule]

end Product

end ParseTree

/-! ## Corresponding trees -/

/-- The derivation trees of two symbols correspond to each other, for every
word, with the same products of probabilities. -/
def Grammar.SameTrees [One α] [Mul α] (g h : Grammar α) (x y : SymbolId) :
    Prop :=
  ∀ w, ∃ e : {t : ParseTree // g.DerivesWord x w t} ≃
      {t : ParseTree // h.DerivesWord y w t},
    ∀ t, (e t).1.product? h = t.1.product? g

namespace Grammar.SameTrees

variable [One α] [Mul α] {g h k : Grammar α} {x y z : SymbolId}

theorem refl (g : Grammar α) (x : SymbolId) : g.SameTrees g x x :=
  fun _ => ⟨Equiv.refl _, fun _ => rfl⟩

theorem symm (hSame : g.SameTrees h x y) : h.SameTrees g y x := by
  intro w
  obtain ⟨e, hProduct⟩ := hSame w
  refine ⟨e.symm, fun t => ?_⟩
  rw [← hProduct, e.apply_symm_apply]

theorem trans (hFirst : g.SameTrees h x y) (hSecond : h.SameTrees k y z) :
    g.SameTrees k x z := by
  intro w
  obtain ⟨d, hd⟩ := hFirst w
  obtain ⟨e, he⟩ := hSecond w
  exact ⟨d.trans e, fun t => (he (d t)).trans (hd t)⟩

end Grammar.SameTrees

/-! ## Foldings -/

/-- How the symbols and the rules of a grammar stand for those of another
one. -/
structure Folding where
  /-- Which symbols are there only to hand right sides over. -/
  hidden : SymbolId → Bool
  /-- The right side that a hidden symbol was handed. -/
  body : SymbolId → List SymbolId
  /-- What a visible symbol stands for. -/
  symbol : SymbolId → SymbolId
  /-- What a rule of a visible symbol stands for. -/
  rule : ℕ → ℕ

namespace Folding

/-- The row of symbols that a symbol stands for. -/
def spell (f : Folding) (x : SymbolId) : List SymbolId :=
  if f.hidden x then f.body x else [f.symbol x]

/-- The trees of the one grammar fold onto those of the other one. -/
structure Valid [One α] (f : Folding) (g h : Grammar α) : Prop where
  terminal : ∀ {x}, g.alphabet.isTerminal x = true →
    f.hidden x = false ∧ f.symbol x = x
  isTerminal_symbol : ∀ {x}, f.hidden x = false →
    h.alphabet.isTerminal (f.symbol x) = g.alphabet.isTerminal x
  rule_of_visible : ∀ {ix : ℕ} {r : Rule α}, g.rules[ix]? = some r →
    f.hidden r.lhs = false → h.rules[f.rule ix]? =
      some ⟨f.symbol r.lhs, r.rhs.flatMap f.spell, r.probability⟩
  rule_of_hidden : ∀ {ix : ℕ} {r : Rule α}, g.rules[ix]? = some r →
    f.hidden r.lhs = true →
      r.rhs.flatMap f.spell = f.body r.lhs ∧ r.probability = 1
  unique : ∀ {ix jx : ℕ} {r s : Rule α}, g.rules[ix]? = some r →
    g.rules[jx]? = some s → r.lhs = s.lhs →
      (f.hidden r.lhs = false → f.rule ix = f.rule jx) → ix = jx
  exists_visible : ∀ {x : SymbolId} {ix : ℕ} {r : Rule α},
    f.hidden x = false → h.rules[ix]? = some r → r.lhs = f.symbol x →
      ∃ jx s, g.rules[jx]? = some s ∧ s.lhs = x ∧ f.rule jx = ix
  exists_hidden : ∀ {x : SymbolId}, f.hidden x = true →
    ∃ (jx : ℕ) (s : Rule α), g.rules[jx]? = some s ∧ s.lhs = x ∧
      ∀ y ∈ s.rhs, f.hidden y = false

end Folding

namespace ParseTree

mutual

/-- The row of trees that a tree is folded to: one tree, or the children of a
node that is dissolved. -/
def fold (f : Folding) : ParseTree → List ParseTree
  | node e ts =>
    if f.hidden e.symbol then foldList f ts
    else [node ⟨e.kind, e.id, e.rule.map fun ix => (f.rule ix.toNat : ℤ),
      f.symbol e.symbol⟩ (foldList f ts)]

/-- The row of trees that a row of trees is folded to. -/
def foldList (f : Folding) : List ParseTree → List ParseTree
  | [] => []
  | t :: ts => fold f t ++ foldList f ts

end

variable {f : Folding}

@[simp] theorem foldList_nil : foldList f [] = [] := by simp [foldList]

@[simp] theorem foldList_cons (t : ParseTree) (ts : List ParseTree) :
    foldList f (t :: ts) = fold f t ++ foldList f ts := by simp [foldList]

theorem fold_branch_of_hidden {s : SymbolId} (hs : f.hidden s = true) (ix : ℕ)
    (ts : List ParseTree) : fold f (branch ix s ts) = foldList f ts := by
  simp [branch, fold, hs]

theorem fold_branch_of_visible {s : SymbolId} (hs : f.hidden s = false)
    (ix : ℕ) (ts : List ParseTree) : fold f (branch ix s ts) =
      [branch (f.rule ix) (f.symbol s) (foldList f ts)] := by
  simp [branch, fold, hs]

end ParseTree

/-! ## What folding keeps -/

/-- A row of trees has the symbols, the yield and the product of another one. -/
structure Mirrors [One α] [Mul α] (f : Folding) (g h : Grammar α)
    (us ts : List ParseTree) : Prop where
  symbols : us.map ParseTree.symbol = (ts.map ParseTree.symbol).flatMap f.spell
  isDerivation : ∀ u ∈ us, u.IsDerivation h
  yield : ParseTree.yieldList us = ParseTree.yieldList ts
  product : ParseTree.rowProduct? h us = ParseTree.rowProduct? g ts

theorem Mirrors.append [Monoid α] {f : Folding} {g h : Grammar α}
    {us ts us' ts' : List ParseTree} (hFirst : Mirrors f g h us ts)
    (hSecond : Mirrors f g h us' ts') :
    Mirrors f g h (us ++ us') (ts ++ ts') where
  symbols := by
    rw [List.map_append, List.map_append, List.flatMap_append, hFirst.symbols,
      hSecond.symbols]
  isDerivation u hu :=
    (List.mem_append.1 hu).elim (hFirst.isDerivation u) (hSecond.isDerivation u)
  yield := by
    rw [ParseTree.yieldList_append, ParseTree.yieldList_append, hFirst.yield,
      hSecond.yield]
  product := by
    rw [ParseTree.rowProduct?_append, ParseTree.rowProduct?_append,
      hFirst.product, hSecond.product]

theorem Mirrors.foldList [Monoid α] {f : Folding} {g h : Grammar α}
    {ts : List ParseTree} (hAll : ∀ t ∈ ts, Mirrors f g h (t.fold f) [t]) :
    Mirrors f g h (ParseTree.foldList f ts) ts := by
  induction ts with
  | nil => exact ⟨by simp, by simp, by simp, by simp [ParseTree.rowProduct?,
      ParseTree.reduceList?]⟩
  | cons t ts ih =>
      rw [ParseTree.foldList_cons]
      exact (hAll t (by simp)).append (ih fun u hu => hAll u (by simp [hu]))

/-- A row of trees is folded from a derivation tree of a symbol. -/
def IsFold (f : Folding) (g : Grammar α) (x : SymbolId) (us : List ParseTree) :
    Prop :=
  ∃ t : ParseTree, t.IsDerivation g ∧ t.symbol = x ∧ t.fold f = us

/-- A row of trees is folded from a row of given symbols, if the part for each
of the symbols is. -/
theorem exists_foldList {f : Folding} {g : Grammar α} {rhs : List SymbolId} :
    ∀ {us : List ParseTree},
      (∀ y ∈ rhs, ∀ part : List ParseTree, part ⊆ us →
        part.map ParseTree.symbol = f.spell y → IsFold f g y part) →
      us.map ParseTree.symbol = rhs.flatMap f.spell →
      ∃ ts : List ParseTree, (∀ t ∈ ts, t.IsDerivation g) ∧
        ts.map ParseTree.symbol = rhs ∧ ParseTree.foldList f ts = us := by
  induction rhs with
  | nil =>
      intro us _ hSymbols
      obtain rfl : us = [] := by simpa using hSymbols
      exact ⟨[], by simp, rfl, by simp⟩
  | cons y rhs ih =>
      intro us hParts hSymbols
      rw [List.flatMap_cons, List.map_eq_append_iff] at hSymbols
      obtain ⟨part, rest, rfl, hPart, hRest⟩ := hSymbols
      obtain ⟨t, ht, rfl, rfl⟩ :=
        hParts y (by simp) part (List.subset_append_left _ _) hPart
      obtain ⟨ts, hts, rfl, rfl⟩ := ih (fun z hz part hSub =>
        hParts z (by simp [hz]) part (List.subset_append_of_subset_right _ hSub))
        hRest
      exact ⟨t :: ts, List.forall_mem_cons.2 ⟨ht, hts⟩, rfl, by simp⟩

namespace Folding.Valid

open ParseTree

variable [Monoid α] {f : Folding} {g h : Grammar α} (hf : f.Valid g h)

include hf

theorem fold_terminal {s : SymbolId} (hs : g.alphabet.isTerminal s = true) :
    fold f (ParseTree.terminal s) = [ParseTree.terminal s] := by
  obtain ⟨hVisible, hSymbol⟩ := hf.terminal hs
  simp [ParseTree.terminal, fold, hVisible, hSymbol]

theorem isTerminal_of_isTerminal {s : SymbolId}
    (hs : g.alphabet.isTerminal s = true) : h.alphabet.isTerminal s = true := by
  obtain ⟨hVisible, hSymbol⟩ := hf.terminal hs
  rw [← hSymbol, hf.isTerminal_symbol hVisible, hs]

theorem spell_terminal {s : SymbolId} (hs : g.alphabet.isTerminal s = true) :
    f.spell s = [s] := by
  obtain ⟨hVisible, hSymbol⟩ := hf.terminal hs
  simp [spell, hVisible, hSymbol]

/-- A tree is folded to derivation trees of the symbols it stands for, with its
yield and its product. -/
theorem mirrors_fold {t : ParseTree} (ht : t.IsDerivation g) :
    Mirrors f g h (t.fold f) [t] := by
  induction ht with
  | @terminal s hs =>
      rw [hf.fold_terminal hs]
      refine ⟨by simp [hf.spell_terminal hs], ?_, rfl, ?_⟩
      · intro u hu
        rw [List.mem_singleton.1 hu]
        exact .terminal (hf.isTerminal_of_isTerminal hs)
      · simp [rowProduct?, reduceList?, reduce?, ParseTree.terminal,
          entryProbability?]
  | @branch ix r ts hRule hSymbols hBelow ih =>
      have hRow := Mirrors.foldList ih
      have hSpelled : (foldList f ts).map ParseTree.symbol =
          r.rhs.flatMap f.spell := by
        rw [hRow.symbols, hSymbols]
      cases hHidden : f.hidden r.lhs with
      | true =>
          obtain ⟨hBody, hOne⟩ := hf.rule_of_hidden hRule hHidden
          rw [fold_branch_of_hidden hHidden]
          refine ⟨?_, hRow.isDerivation, ?_, ?_⟩
          · simp [hSpelled, hBody, spell, hHidden]
          · simpa using hRow.yield
          · rw [rowProduct?_singleton, product?_branch hRule, hOne,
              hRow.product]
            simp
      | false =>
          have hFolded := hf.rule_of_visible hRule hHidden
          rw [fold_branch_of_visible hHidden]
          refine ⟨by simp [spell, hHidden], ?_, ?_, ?_⟩
          · intro u hu
            rw [List.mem_singleton.1 hu]
            exact isDerivation_branch_iff.2
              ⟨_, hFolded, rfl, hSpelled, hRow.isDerivation⟩
          · simpa using hRow.yield
          · rw [rowProduct?_singleton, rowProduct?_singleton,
              product?_branch hRule, product?_branch hFolded, hRow.product]

theorem map_symbol_fold {t : ParseTree} (ht : t.IsDerivation g) :
    (t.fold f).map ParseTree.symbol = f.spell t.symbol := by
  simpa using (hf.mirrors_fold ht).symbols

/-! ## Different trees -/

/-- Rows of trees that are folded alike are equal if their trees are. -/
theorem foldList_injective {ts : List ParseTree} :
    ∀ {us : List ParseTree},
      (∀ t ∈ ts, ∀ {u : ParseTree}, u.IsDerivation g → u.symbol = t.symbol →
        u.fold f = t.fold f → u = t) →
      (∀ t ∈ ts, t.IsDerivation g) → (∀ u ∈ us, u.IsDerivation g) →
      us.map ParseTree.symbol = ts.map ParseTree.symbol →
      foldList f us = foldList f ts → us = ts := by
  induction ts with
  | nil =>
      intro us _ _ _ hSymbols _
      simpa using hSymbols
  | cons t ts ih =>
      intro us hAlike hts hus hSymbols hFold
      cases us with
      | nil => simp at hSymbols
      | cons u us =>
          simp only [List.map_cons, List.cons.injEq] at hSymbols
          obtain ⟨hHead, hTail⟩ := hSymbols
          have ht := hts t (by simp)
          have hu := hus u (by simp)
          have hLength : (u.fold f).length = (t.fold f).length := by
            have hSpell := congrArg List.length
              ((hf.map_symbol_fold hu).trans
                (hHead ▸ (hf.map_symbol_fold ht).symm))
            simpa using hSpell
          rw [foldList_cons, foldList_cons] at hFold
          obtain ⟨hFirst, hRest⟩ := List.append_inj hFold hLength
          rw [hAlike t (by simp) hu hHead hFirst,
            ih (fun v hv => hAlike v (by simp [hv]))
              (fun v hv => hts v (by simp [hv]))
              (fun v hv => hus v (by simp [hv])) hTail hRest]

/-- Trees of one symbol that are folded alike are equal. -/
theorem fold_injective {t : ParseTree} (ht : t.IsDerivation g) :
    ∀ {u : ParseTree}, u.IsDerivation g → u.symbol = t.symbol →
      u.fold f = t.fold f → u = t := by
  have hLeaf : ∀ {ix : ℕ} {s : SymbolId} {ts : List ParseTree},
      g.alphabet.isTerminal s = true →
        fold f (branch ix s ts) ≠ fold f (ParseTree.terminal s) := by
    intro ix s ts hs hFold
    rw [hf.fold_terminal hs, fold_branch_of_visible (hf.terminal hs).1] at hFold
    simp [branch, ParseTree.terminal] at hFold
  induction ht with
  | @terminal s hs =>
      intro u hu hSymbol hFold
      cases hu with
      | terminal _ => rw [symbol_terminal, symbol_terminal] at hSymbol; rw [hSymbol]
      | branch _ _ _ =>
          rw [symbol_branch, symbol_terminal] at hSymbol
          rw [hSymbol] at hFold
          exact absurd hFold (hLeaf hs)
  | @branch ix r ts hRule hSymbols hBelow ih =>
      intro u hu hSymbol hFold
      cases hu with
      | terminal hs =>
          rw [symbol_branch, symbol_terminal] at hSymbol
          rw [hSymbol] at hs hFold
          exact absurd hFold.symm (hLeaf hs)
      | @branch jx s us hRule' hSymbols' hBelow' =>
          rw [symbol_branch, symbol_branch] at hSymbol
          have hBoth : (f.hidden s.lhs = false → f.rule jx = f.rule ix) ∧
              foldList f us = foldList f ts := by
            cases hHidden : f.hidden s.lhs with
            | true =>
                rw [fold_branch_of_hidden hHidden,
                  fold_branch_of_hidden (hSymbol ▸ hHidden)] at hFold
                exact ⟨fun hNot => absurd hNot (by simp), hFold⟩
            | false =>
                rw [fold_branch_of_visible hHidden,
                  fold_branch_of_visible (hSymbol ▸ hHidden)] at hFold
                simp only [branch, List.cons.injEq, node.injEq, Entry.mk.injEq,
                  Option.some.injEq, Int.natCast_inj, true_and, and_true]
                  at hFold
                exact ⟨fun _ => hFold.1.1, hFold.2⟩
          obtain rfl := hf.unique hRule' hRule hSymbol hBoth.1
          cases hRule'.symm.trans hRule
          rw [hf.foldList_injective ih hBelow hBelow'
            (hSymbols'.trans hSymbols.symm) hBoth.2]

/-! ## All trees -/

/-- A row of trees of the symbols that a symbol stands for is folded from a tree
of the symbol, if its trees are folded from trees of visible symbols. -/
theorem exists_part {us : List ParseTree}
    (hVisible : ∀ u ∈ us, ∀ x, f.hidden x = false →
      f.symbol x = u.symbol → IsFold f g x [u])
    {y : SymbolId} (hSymbols : us.map ParseTree.symbol = f.spell y) :
    IsFold f g y us := by
  have hOne : ∀ z, f.hidden z = false → ∀ part : List ParseTree, part ⊆ us →
      part.map ParseTree.symbol = f.spell z → IsFold f g z part := by
    intro z hz part hSub hPart
    simp only [spell, hz, Bool.false_eq_true, if_false] at hPart
    obtain ⟨u, rfl, hu⟩ := List.map_eq_singleton_iff.1 hPart
    exact hVisible u (hSub (by simp)) z hz hu.symm
  cases hy : f.hidden y with
  | false => exact hOne y hy us (List.Subset.refl _) hSymbols
  | true =>
      obtain ⟨ix, r, hRule, rfl, hRhs⟩ := hf.exists_hidden hy
      have hBody : f.spell r.lhs = r.rhs.flatMap f.spell := by
        rw [(hf.rule_of_hidden hRule hy).1, spell, if_pos hy]
      obtain ⟨ts, hts, hRow, rfl⟩ := exists_foldList
        (fun z hz => hOne z (hRhs z hz)) (hSymbols.trans hBody)
      exact ⟨branch ix r.lhs ts, .branch hRule hRow hts, rfl,
        fold_branch_of_hidden hy _ _⟩

/-- Every tree is folded from a tree of any visible symbol that stands for its
symbol. -/
theorem exists_fold {u : ParseTree} (hu : u.IsDerivation h) :
    ∀ x, f.hidden x = false → f.symbol x = u.symbol → IsFold f g x [u] := by
  induction hu with
  | @terminal s hs =>
      intro x hx hSymbol
      rw [symbol_terminal] at hSymbol
      have hTerminal : g.alphabet.isTerminal x = true := by
        rw [← hf.isTerminal_symbol hx, hSymbol, hs]
      have hSame : x = s := (hf.terminal hTerminal).2.symm.trans hSymbol
      subst hSame
      exact ⟨ParseTree.terminal x, .terminal hTerminal, rfl,
        hf.fold_terminal hTerminal⟩
  | @branch ix r us hRule hSymbols _ ih =>
      intro x hx hSymbol
      rw [symbol_branch] at hSymbol
      obtain ⟨jx, s, hCut, rfl, rfl⟩ := hf.exists_visible hx hRule hSymbol.symm
      have hWhole := hf.rule_of_visible hCut hx
      cases hWhole.symm.trans hRule
      obtain ⟨ts, hts, hRow, rfl⟩ := exists_foldList (fun y _ part hSub hPart =>
        hf.exists_part (fun u hu => ih u (hSub hu)) hPart) hSymbols
      exact ⟨branch jx s.lhs ts, .branch hCut hRow hts, rfl,
        fold_branch_of_visible hx _ _⟩

/-- The trees of a visible symbol correspond to those of the symbol that it
stands for. -/
theorem sameTrees {x : SymbolId} (hx : f.hidden x = false) :
    g.SameTrees h x (f.symbol x) := by
  intro w
  have hFold : ∀ t : {t : ParseTree // g.DerivesWord x w t},
      ∃ u : {u : ParseTree // h.DerivesWord (f.symbol x) w u},
        t.1.fold f = [u.1] := by
    rintro ⟨t, ht⟩
    have hMirrors := hf.mirrors_fold ht.isDerivation
    have hSymbols := hf.map_symbol_fold ht.isDerivation
    rw [ht.symbol_eq, spell, if_neg (by simp [hx])] at hSymbols
    obtain ⟨u, hOne, hSymbol⟩ := List.map_eq_singleton_iff.1 hSymbols
    rw [hOne] at hMirrors
    have hYield : u.yield = t.yield := by simpa using hMirrors.yield
    refine ⟨⟨u, hMirrors.isDerivation u (by simp), hSymbol, ?_⟩, hOne⟩
    rw [word, hYield]
    exact ht.word_eq
  choose e he using hFold
  have hBijective : Function.Bijective e := by
    constructor
    · intro t u hEq
      have hSame : t.1.fold f = u.1.fold f := by rw [he, he, hEq]
      exact Subtype.ext (hf.fold_injective u.2.isDerivation t.2.isDerivation
        (t.2.symbol_eq.trans u.2.symbol_eq.symm) hSame)
    · rintro ⟨u, hu⟩
      obtain ⟨t, ht, hSymbol, hOne⟩ :=
        hf.exists_fold hu.isDerivation x hx hu.symbol_eq.symm
      have hYield : u.yield = t.yield := by
        simpa [hOne] using (hf.mirrors_fold ht).yield
      have hWord : t.word = w := by
        rw [word, ← hYield]
        exact hu.word_eq
      refine ⟨⟨t, ht, hSymbol, hWord⟩, Subtype.ext ?_⟩
      have hSame := (he ⟨t, ht, hSymbol, hWord⟩).symm.trans hOne
      exact (List.cons.inj hSame).1
  refine ⟨Equiv.ofBijective e hBijective, fun t => ?_⟩
  have hProduct := (hf.mirrors_fold t.2.isDerivation).product
  rw [he, rowProduct?_singleton, rowProduct?_singleton] at hProduct
  exact hProduct

end Folding.Valid

/-! ## The order of the rules -/

/-- A correspondence of places, with one more place before them. -/
def afterFirst (e : ℕ ≃ ℕ) : ℕ ≃ ℕ where
  toFun
    | 0 => 0
    | i + 1 => e i + 1
  invFun
    | 0 => 0
    | i + 1 => e.symm i + 1
  left_inv := by rintro (_ | i) <;> simp
  right_inv := by rintro (_ | i) <;> simp

/-- Two lists with the same items have them at corresponding places. -/
theorem exists_equiv_of_perm {β : Type} {xs ys : List β} (h : xs.Perm ys) :
    ∃ e : ℕ ≃ ℕ, ∀ i, xs[i]? = ys[e i]? := by
  induction h with
  | nil => exact ⟨Equiv.refl ℕ, fun _ => rfl⟩
  | cons x _ ih =>
      obtain ⟨e, he⟩ := ih
      refine ⟨afterFirst e, fun i => ?_⟩
      cases i with
      | zero => rfl
      | succ i => simpa [afterFirst] using he i
  | swap x y _ =>
      refine ⟨Equiv.swap 0 1, fun i => ?_⟩
      match i with
      | 0 => simp
      | 1 => simp
      | i + 2 =>
          rw [Equiv.swap_apply_of_ne_of_ne (by omega) (by omega)]
          rfl
  | trans _ _ ih ih' =>
      obtain ⟨d, hd⟩ := ih
      obtain ⟨e, he⟩ := ih'
      exact ⟨d.trans e, fun i => (hd i).trans (he (d i))⟩

/-- A folding that changes the places of rules only. -/
def Folding.reorder (place : ℕ → ℕ) : Folding where
  hidden _ := false
  body _ := []
  symbol x := x
  rule := place

/-- The order of the rules does not matter, nor does the alphabet but for the
terminals. -/
theorem Grammar.SameTrees.of_perm [Monoid α] {al al' : Alphabet}
    {rules rules' : List (Rule α)} (hTerminal : al'.isTerminal = al.isTerminal)
    (hPerm : rules.Perm rules') (x : SymbolId) :
    (⟨al, rules⟩ : Grammar α).SameTrees ⟨al', rules'⟩ x x := by
  obtain ⟨e, he⟩ := exists_equiv_of_perm hPerm
  have hSpell : (Folding.reorder e).spell = fun y => [y] := rfl
  refine Folding.Valid.sameTrees (f := .reorder e) ⟨fun _ => ⟨rfl, rfl⟩,
    fun _ => congrFun hTerminal _, fun {ix r} hRule _ => ?_,
    fun _ hHidden => Bool.noConfusion hHidden,
    fun _ _ _ hSame => e.injective (hSame rfl),
    fun {y ix r} _ hRule hLhs => ?_,
    fun hHidden => Bool.noConfusion hHidden⟩ rfl
  · have hRule : rules[ix]? = some r := hRule
    show rules'[e ix]? = _
    rw [← he, hRule, hSpell, List.flatMap_singleton']
    rfl
  · refine ⟨e.symm ix, r, ?_, hLhs, e.apply_symm_apply ix⟩
    show rules[e.symm ix]? = some r
    rw [he, e.apply_symm_apply]
    exact hRule

end StochasticGrammar
