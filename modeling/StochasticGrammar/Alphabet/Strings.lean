/-!
# All strings of a length

The strings of a given length over some terminals, in the order in which the
first position varies slowest and each position runs through the terminals as
they are given.

Main results: these are exactly the strings of that length
(`mem_stringsOfLength_iff`).
-/

namespace StochasticGrammar

variable {α : Type}

/-- All strings of a length over a list of terminals. -/
def stringsOfLength (terminals : List α) : Nat → List (List α)
  | 0 => [[]]
  | n + 1 =>
    (stringsOfLength terminals n).flatMap fun s =>
      terminals.map fun t => s ++ [t]

/-- The strings of a length are those that have it and hold nothing but the
given terminals. -/
theorem mem_stringsOfLength_iff {terminals : List α} {n : Nat} {s : List α} :
    s ∈ stringsOfLength terminals n ↔
      s.length = n ∧ ∀ t ∈ s, t ∈ terminals := by
  induction n generalizing s with
  | zero =>
    simp only [stringsOfLength, List.mem_singleton, List.length_eq_zero_iff]
    constructor
    · rintro rfl
      simp
    · exact And.left
  | succ n ih =>
    simp only [stringsOfLength, List.mem_flatMap, List.mem_map]
    constructor
    · rintro ⟨r, hr, t, ht, rfl⟩
      obtain ⟨hLength, hMem⟩ := ih.1 hr
      refine ⟨by simp [hLength], ?_⟩
      intro u hu
      rcases List.mem_append.1 hu with hu | hu
      · exact hMem u hu
      · rwa [List.mem_singleton.1 hu]
    · rintro ⟨hLength, hMem⟩
      obtain ⟨r, t, rfl⟩ : ∃ r t, s = r ++ [t] := by
        have hNe : s ≠ [] := by
          intro h
          simp [h] at hLength
        exact ⟨s.dropLast, s.getLast hNe,
          (List.dropLast_concat_getLast hNe).symm⟩
      refine ⟨r, ih.2 ⟨by simpa using hLength, fun u hu => ?_⟩, t, ?_, rfl⟩
      · exact hMem u (by simp [hu])
      · exact hMem t (by simp)

end StochasticGrammar
