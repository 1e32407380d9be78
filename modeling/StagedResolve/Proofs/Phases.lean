/-
The order of the phases, as the markers use it.

# What is shared

Phases are ordered by position, so a comparison of phases is a
comparison of numbers: the lemmas here say what `max`, `raise` and
`satisfied` do to positions, and after that `omega` decides.

# The core of a phase

Extension phases are never run. What a request for a phase can be held
to is the last phase at or before it that is run, its `core`.

# The steps of a request

A request that the markers do not answer ends with the core of its phase
(`stepsTo_eq_append_core`). What is run before a step was a step as well,
or the markers had passed it from the beginning (`mem_or_le_of_stepsTo`).
-/
import StagedResolve.Phase

namespace StagedResolve

namespace Phase

-- ============================================================ the order

/-- The higher of two phases is the one with the higher position. -/
theorem position_max (a b : Phase) :
    (max a b).position = max a.position b.position := by
  show (if a ≤ b then b else a).position = _
  split
  case isTrue h =>
    rw [le_def] at h
    omega
  case isFalse h =>
    rw [le_def] at h
    omega

/-- Every phase is at or before itself. -/
theorem le_refl (a : Phase) : a ≤ a := Nat.le_refl a.position

/-- Phases are ordered transitively. -/
theorem le_trans {a b c : Phase} (h₁ : a ≤ b) (h₂ : b ≤ c) : a ≤ c :=
  Nat.le_trans h₁ h₂

/-- A phase that is not before another is at or after it. -/
theorem le_of_not_lt {a b : Phase} (h : ¬ a < b) : b ≤ a := by
  rw [lt_def] at h
  rw [le_def]
  omega

/-- A phase that is not at or before another is after it. -/
theorem lt_of_not_le {a b : Phase} (h : ¬ a ≤ b) : b < a := by
  rw [le_def] at h
  rw [lt_def]
  omega

/-- A phase before another is not at or after it. -/
theorem not_le_of_lt {a b : Phase} (h : a < b) : ¬ b ≤ a := by
  rw [lt_def] at h
  rw [le_def]
  omega

/-- The lowest phase is at or before every phase. -/
theorem raw_le (a : Phase) : raw ≤ a := Nat.zero_le _

/-- No phase is after the last one. -/
theorem le_bodies (a : Phase) : a ≤ bodies := by
  cases a <;> decide

/-- A phase is known by the phases that are at or before it. -/
theorem eq_of_le_iff {a b : Phase} (h : ∀ p : Phase, p ≤ a ↔ p ≤ b) :
    a = b :=
  position_inj (Nat.le_antisymm ((h a).mp (le_refl a)) ((h b).mpr (le_refl b)))

/-- Raising a marker never lowers it. -/
theorem le_raise (marker goal : Phase) : marker ≤ marker.raise goal := by
  rw [le_def, raise, position_max]
  omega

/-- A raised marker has reached its goal. -/
theorem goal_le_raise (marker goal : Phase) : goal ≤ marker.raise goal := by
  rw [le_def, raise, position_max]
  omega

/-- A raised marker has reached what it had reached before or what it
was raised to, and nothing more. -/
theorem le_raise_iff {marker goal p : Phase} :
    p ≤ marker.raise goal ↔ p ≤ marker ∨ p ≤ goal := by
  simp only [le_def, raise, position_max]
  omega

/-- The higher of two phases has reached what one of them has. -/
theorem le_max_iff {a b p : Phase} : p ≤ max a b ↔ p ≤ a ∨ p ≤ b := by
  simp only [le_def, position_max]
  omega

/-- The higher of two phases is before what both are before. -/
theorem max_lt_iff {a b p : Phase} : max a b < p ↔ a < p ∧ b < p := by
  simp only [lt_def, position_max]
  omega

-- ============================================== extension phases count

/-- What is satisfied together with a phase is not below it. -/
theorem le_satisfied (p : Phase) : p ≤ p.satisfied := by
  cases p <;> decide

/-- The last phase at or before `p` that is not reserved for
extensions. -/
def core : Phase → Phase
  | extensionAnnotations => imports
  | extensionStatus => types
  | newMembers => contracts
  | p => p

/-- The core of a phase is the greatest phase at or before it that is
run. -/
theorem le_core_iff {p q : Phase} (hq : q.isExtension = false) :
    q ≤ p.core ↔ q ≤ p := by
  revert hq
  cases q <;> cases p <;> decide

/-- What is satisfied already is not satisfied further by a phase that was
passed. -/
theorem satisfied_max_of_le {p q : Phase} (h : p ≤ q.satisfied) :
    (max q.satisfied p).satisfied = q.satisfied := by
  revert h
  cases p <;> cases q <;> decide

/-- What is satisfied together with a phase is what has its core there. -/
theorem le_satisfied_iff {p q : Phase} : p ≤ q.satisfied ↔ p.core ≤ q := by
  cases p <;> cases q <;> decide

/-- Beyond the supertype phase the core is beyond it as well. -/
theorem supertypes_lt_core {p : Phase} (hp : supertypes < p) :
    supertypes < p.core := by
  revert hp
  cases p <;> decide

/-- The core of a phase is at or before it. -/
theorem core_le (p : Phase) : p.core ≤ p := by
  cases p <;> decide

/-- The steps to a lazy phase that the markers do not answer end with
the core of that phase. -/
theorem stepsTo_eq_append_core {p x : Phase}
    (hp : extensionAnnotations < p) (hx : x.satisfied < p) :
    ∃ l, (max x.satisfied lastFileWide).stepsTo p = l ++ [p.core] := by
  rw [← List.getLast?_eq_some_iff]
  revert hp hx
  cases p <;> cases x <;> decide

/-- Every phase is listed. -/
theorem mem_all (p : Phase) : p ∈ all := by
  cases p <;> decide

/-- The steps are the phases in between that are run. -/
theorem mem_stepsTo_iff {x p q : Phase} :
    q ∈ x.stepsTo p ↔ (x < q ∧ q ≤ p) ∧ q.isExtension = false := by
  simp [stepsTo, rangeTo, mem_all, and_comm]

/-- No step leads beyond the phase that is asked for. -/
theorem le_of_mem_stepsTo {p q x : Phase} (h : q ∈ x.stepsTo p) : q ≤ p :=
  (mem_stepsTo_iff.mp h).1.2

/-- There are no steps to a phase that was passed. -/
theorem stepsTo_eq_nil {p x : Phase} (h : p ≤ x) :
    (max x lastFileWide).stepsTo p = [] := by
  revert h
  cases p <;> cases x <;> decide

/-- The steps to a phase may be taken in two stages, the second of which
begins with what is satisfied after the first. -/
theorem stepsTo_append {p q : Phase} (x : Phase) (hpq : p ≤ q) :
    (max x.satisfied lastFileWide).stepsTo q =
      (max x.satisfied lastFileWide).stepsTo p ++
        (max (max x.satisfied p).satisfied lastFileWide).stepsTo q := by
  have hall : ∀ x ∈ all, ∀ p ∈ all, ∀ q ∈ all, p ≤ q →
      (max x.satisfied lastFileWide).stepsTo q =
        (max x.satisfied lastFileWide).stepsTo p ++
          (max (max x.satisfied p).satisfied lastFileWide).stepsTo q := by
    decide +kernel
  exact hall x (mem_all x) p (mem_all p) q (mem_all q) hpq

/-- Wherever one stops among the steps, they were the steps to some phase. -/
theorem exists_stepsTo_eq {x p q : Phase} {before after : List Phase}
    (h : (max x lastFileWide).stepsTo p = before ++ q :: after) :
    ∃ r, r ≤ p ∧ (max x lastFileWide).stepsTo r = before := by
  have hall : ∀ x ∈ all, ∀ p ∈ all,
      ∀ n ∈ List.range ((max x lastFileWide).stepsTo p).length, ∃ r ∈ all,
        r ≤ p ∧ (max x lastFileWide).stepsTo r =
          ((max x lastFileWide).stepsTo p).take n := by
    decide +kernel
  have hn : before.length < ((max x lastFileWide).stepsTo p).length := by
    rw [h, List.length_append, List.length_cons]
    omega
  obtain ⟨r, -, hr⟩ := hall x (mem_all x) p (mem_all p) before.length
    (List.mem_range.mpr hn)
  rw [h, List.take_left] at hr
  exact ⟨r, hr⟩

/-- The steps from before the supertype phase begin with it, if there are
any. -/
theorem stepsTo_eq_nil_or_cons {p x : Phase} (hx : x < supertypes) :
    (max x lastFileWide).stepsTo p = [] ∨
      ∃ rest, (max x lastFileWide).stepsTo p = supertypes :: rest := by
  revert hx
  cases p <;> cases x <;> intro hx <;>
    first
    | exact absurd hx (by decide)
    | exact Or.inl rfl
    | exact Or.inr ⟨_, rfl⟩

/-- Steps lead upwards. -/
theorem stepsTo_pairwise (x p : Phase) : (x.stepsTo p).Pairwise (· < ·) := by
  have hall : all.Pairwise (· < ·) := by decide
  exact (hall.filter _).filter _

/-- Whatever is run and comes before a step was taken before it, or was
passed from the beginning. -/
theorem mem_or_le_of_stepsTo {x p q a : Phase} {before after : List Phase}
    (h : (max x lastFileWide).stepsTo p = before ++ a :: after)
    (hq : lastFileWide < q) (hrun : q.isExtension = false) (hqa : q < a) :
    q ∈ before ∨ q ≤ x := by
  have hmem : ∀ r, r ∈ before ++ a :: after ↔
      (max x lastFileWide < r ∧ r ≤ p) ∧ r.isExtension = false := fun r => by
    rw [← h]
    exact mem_stepsTo_iff
  have hup := stepsTo_pairwise (max x lastFileWide) p
  rw [h] at hup
  refine Classical.or_iff_not_imp_right.mpr fun hx => ?_
  have hap := ((hmem a).mp (by simp)).1.2
  have hq : q ∈ before ++ a :: after := by
    exact (hmem q).mpr ⟨⟨max_lt_iff.mpr ⟨lt_of_not_le hx, hq⟩,
      le_trans (Nat.le_of_lt hqa) hap⟩, hrun⟩
  rcases List.mem_append.mp hq with hq | hq
  · exact hq
  · -- the steps after this one are above it
    rcases List.mem_cons.mp hq with rfl | hq
    · exact absurd hqa (Nat.lt_irrefl _)
    · have hlt := (List.pairwise_cons.mp (List.pairwise_append.mp hup).2.1).1 q hq
      exact absurd hqa (Nat.lt_asymm hlt)

end Phase

end StagedResolve
