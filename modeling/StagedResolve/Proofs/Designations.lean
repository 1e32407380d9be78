/-
Designations: what a target stands on, and what its markers answer.

# The chain

The path of a designation is what is around its target, the file apart
(`CompilationUnit.mem_path_iff`). A chain is ordinary if a walk that
takes one of its declarations as a whole comes by the next one as well:
nothing on it is in executable code or exempt from the phases, and it
does not go through a type parameter, whose members no header visit
looks at.

# Answers from the markers

What a declaration is known to satisfy is read off several markers at
once, and `satisfied` carries the result over extension phases. Beyond
the phases that a file vouches for, the answer comes down to one marker
that has reached the core of the phase (`World.le_reached_iff`).
-/
import StagedResolve.Designation
import StagedResolve.Proofs.Phases
import StagedResolve.Proofs.Trees

namespace StagedResolve

-- ============================================================= the chain

/-- The file is the one declaration with its number. -/
theorem DeclId.eq_root {d : DeclId} (hd : d.isRoot = true) : d = .root := by
  have hzero : d.index = 0 := eq_of_beq hd
  rcases d with ⟨i⟩
  exact congrArg DeclId.mk hzero

namespace CompilationUnit

/-- The designation for a declaration. -/
theorem designateWith_eq_ok {u : CompilationUnit} {allowLocal : Bool}
    {d : DeclId} {goal : Designation}
    (h : u.designateWith allowLocal d = .ok goal) :
    ∃ target, u.resolvableTarget d = .ok target ∧
      (allowLocal = false → u.isLocal d = false) ∧
      goal = ⟨u, ((u.ancestors target).filter fun a => !a.isRoot).reverse,
        target, u.isLocal d⟩ := by
  unfold designateWith at h
  split at h
  · cases h
  · next x hx =>
    have hlocal : u.isLocal d = x.isLocal := by rw [isLocal, hx]; rfl
    split at h
    · cases h
    · next hallow =>
      split at h
      · cases h
      · next target htarget =>
        cases h
        rw [hlocal]
        refine ⟨target, htarget, fun hfalse => ?_, rfl⟩
        rw [hfalse] at hallow
        simpa using hallow

/-- The path of a designation is what is around its target, below the
file. -/
theorem mem_path_iff {u : CompilationUnit} {allowLocal : Bool} {d : DeclId}
    {goal : Designation} (h : u.designateWith allowLocal d = .ok goal)
    {a : DeclId} :
    a ∈ goal.path ↔ a ∈ u.ancestors goal.target ∧ a.isRoot = false := by
  obtain ⟨target, -, -, rfl⟩ := designateWith_eq_ok h
  simp

/-- A designation is one of the unit that was asked. -/
theorem unit_of_designateWith {u : CompilationUnit} {allowLocal : Bool}
    {d : DeclId} {goal : Designation}
    (h : u.designateWith allowLocal d = .ok goal) : goal.unit = u := by
  obtain ⟨target, -, -, rfl⟩ := designateWith_eq_ok h
  rfl

/-- The target of a designation other than the file is there. -/
theorem target_isSome_of_designateWith {u : CompilationUnit}
    {allowLocal : Bool} {d : DeclId} {goal : Designation} (hu : u.WellFormed)
    (h : u.designateWith allowLocal d = .ok goal) (hfile : goal.isFile = false) :
    (u.decl? goal.target).isSome := by
  obtain ⟨target, htarget, -, rfl⟩ := designateWith_eq_ok h
  unfold resolvableTarget at htarget
  split at htarget
  · cases htarget
    cases hfile
  · split at htarget
    · cases htarget
    · dsimp only at htarget
      split at htarget
      · next hfound =>
        cases htarget
        obtain ⟨n, -, hn⟩ := List.exists_of_findSome?_eq_some hfound
        split at hn
        · obtain ⟨x, hx, rfl⟩ := Option.map_eq_some_iff.mp hn
          obtain ⟨i, hi, hget⟩ := List.mem_iff_getElem.mp
            (List.mem_of_find?_eq_some hx)
          have hdecl : u.decl? ⟨i⟩ = some x := by
            rw [decl?, List.getElem?_eq_getElem hi, hget]
          rw [hu.numbered ⟨i⟩ x hdecl, hdecl]
          rfl
        · cases hn
      · cases htarget

end CompilationUnit

/-- A walk that takes one declaration of the chain as a whole comes by
the rest of it. -/
structure Designation.Ordinary (goal : Designation) : Prop where
  eligible : ∀ a ∈ goal.chain, goal.unit.isEligible a = true
  nonlocal : ∀ a ∈ goal.chain, goal.unit.isLocal a = false
  parameter : ∀ a ∈ goal.path, goal.unit.kind? a ≠ some .typeParameter

namespace Designation.Ordinary

variable {goal : Designation}

/-- The file is on the chain. -/
theorem root (h : goal.Ordinary) : goal.unit.isEligible .root = true :=
  h.eligible .root (List.mem_cons_self ..)

/-- So is the target, which may be the file. -/
theorem target_mem (goal : Designation) : goal.target ∈ goal.chain := by
  by_cases hfile : goal.isFile = true
  · rw [DeclId.eq_root hfile]
    exact List.mem_cons_self ..
  · simp [chain, hfile]

/-- And so is what is on the path. -/
theorem path_mem {a : DeclId} (ha : a ∈ goal.path) : a ∈ goal.chain := by
  simp [chain, ha]

end Designation.Ordinary

-- ==================================================== what markers answer

/-- The highest of several phases has reached what one of them has. -/
theorem Phase.le_highest_iff {p : Phase} (hp : .raw < p) (l : List Phase) :
    p ≤ highest l ↔ ∃ q ∈ l, p ≤ q := by
  induction l with
  | nil =>
      simp only [highest, List.not_mem_nil, false_and, exists_false, iff_false]
      exact not_le_of_lt hp
  | cons q rest ih =>
      rw [highest, le_max_iff, ih]
      simp

/-- Beyond what a file vouches for, a declaration satisfies a phase if the
core of the phase was reached by something around it as a whole, or by
itself if it is a leaf. -/
theorem World.le_reached_iff {w : World} {u : CompilationUnit} {d : DeclId}
    {p : Phase} (hd : d.isRoot = false) (hp : .extensionAnnotations < p) :
    p ≤ w.reached u d ↔
      (∃ a ∈ d :: u.ancestors d, p.core ≤ w.below u a) ∨
        (u.hasMembers d = false ∧ p.core ≤ w.own u d) := by
  have hraw : .raw < p.core := by revert hp; cases p <;> decide
  have hfile : ∀ q : Phase, ¬ p.core ≤ min q .lastFileWide := by
    intro q
    revert hp
    cases p <;> cases q <;> decide
  have hleaf : p.core ≤ (if u.hasMembers d then .raw else w.own u d) ↔
      u.hasMembers d = false ∧ p.core ≤ w.own u d := by
    cases u.hasMembers d with
    | true => simpa using Phase.not_le_of_lt hraw
    | false => simp
  unfold reached
  rw [if_neg (by rw [hd]; exact Bool.false_ne_true), Phase.le_satisfied_iff,
    Phase.le_max_iff, Phase.le_max_iff, Phase.le_highest_iff hraw, hleaf]
  simp only [hfile, or_false]
  refine or_congr_left ⟨?_, ?_⟩
  · rintro ⟨q, hq, hle⟩
    obtain ⟨a, ha, rfl⟩ := List.mem_map.mp hq
    exact ⟨a, ha, hle⟩
  · rintro ⟨a, ha, hle⟩
    exact ⟨_, List.mem_map_of_mem ha, hle⟩

/-- Only markers below the file, and those of wholes, count. -/
theorem World.reached_congr {v w : World} {u : CompilationUnit} {d : DeclId}
    {p : Phase} (hd : d.isRoot = false) (hp : .extensionAnnotations < p)
    (hown : ∀ e, e.isRoot = false → w.own u e = v.own u e)
    (hbelow : ∀ e, w.below u e = v.below u e) :
    p ≤ w.reached u d ↔ p ≤ v.reached u d := by
  rw [le_reached_iff hd hp, le_reached_iff hd hp, hown d hd]
  simp only [hbelow]

/-- What a declaration satisfies is what some marker carries with it. -/
theorem World.exists_reached_eq (w : World) (u : CompilationUnit)
    (d : DeclId) : ∃ q : Phase, w.reached u d = q.satisfied := by
  unfold reached
  split
  · exact ⟨_, rfl⟩
  · exact ⟨_, rfl⟩

end StagedResolve
