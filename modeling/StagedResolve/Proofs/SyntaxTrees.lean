/-
Syntax trees: what hangs on what.

# Growing

Nodes are made after their parents, and a new node changes nothing about
the ones that were there (`SourceTree.Earlier`). So what is above a node
is settled when it is made, and with it whether the node is in executable
code.

# What hangs where

A declaration in executable code hangs on a block, which hangs on what
the code belongs to; any other hangs on its owner (`SourceTree.HangsOn`).
What stands on its own hangs on the file, on a class that can be named
from it, or on a constructor of such a class.
-/
import StagedResolve.Designation
import StagedResolve.Proofs.Trees

namespace StagedResolve

-- =========================================================== syntax trees

namespace SourceTree

variable {t : SourceTree} {n p : NodeId} {kind : NodeKind} {anchor : NodeId}
  {span : Span}

/-- Nodes were made after their parents. -/
def Earlier (t : SourceTree) : Prop :=
  ∀ n p, t.parent? n = some p → p.index < n.index

/-- A node with a kind is in the tree. -/
theorem index_lt_of_kind? {k : NodeKind} (h : t.kind? n = some k) :
    n.index < t.size := by
  obtain ⟨x, hx, -⟩ := Option.map_eq_some_iff.mp h
  exact (List.getElem?_eq_some_iff.mp hx).1

/-- So is one with a parent. -/
theorem index_lt_of_parent? (h : t.parent? n = some p) :
    n.index < t.size := by
  obtain ⟨x, hx, -⟩ := Option.bind_eq_some_iff.mp h
  exact (List.getElem?_eq_some_iff.mp hx).1

/-- A new node comes after all others. -/
theorem node?_push (t : SourceTree) (kind : NodeKind) (anchor : NodeId)
    (span : Span) (n : NodeId) : (t.push kind anchor span).node? n =
      if n = t.nextId then some ⟨kind, some anchor, span⟩ else t.node? n := by
  have hnext : n = t.nextId ↔ n.index = t.nodes.length := by
    constructor
    · rintro rfl
      rfl
    · intro h
      rcases n with ⟨i⟩
      exact congrArg NodeId.mk h
  simp only [hnext, node?, push]
  rcases Nat.lt_trichotomy n.index t.nodes.length with hlt | heq | hgt
  · rw [if_neg (Nat.ne_of_lt hlt), List.getElem?_append_left hlt]
  · rw [if_pos heq, heq, List.getElem?_concat_length]
  · have hlen : (t.nodes ++ [(⟨kind, some anchor, span⟩ : SourceNode)]).length
        ≤ n.index := by
      rw [List.length_append]
      exact hgt
    rw [if_neg (Nat.ne_of_gt hgt), List.getElem?_eq_none hlen,
      List.getElem?_eq_none (Nat.le_of_lt hgt)]

/-- The nodes that were there keep their kinds. -/
theorem kind?_push_of_lt (h : n.index < t.size) :
    (t.push kind anchor span).kind? n = t.kind? n := by
  have hne : n ≠ t.nextId := fun heq => Nat.lt_irrefl _ (heq ▸ h)
  rw [kind?, kind?, node?_push, if_neg hne]

/-- And their parents. -/
theorem parent?_push_of_lt (h : n.index < t.size) :
    (t.push kind anchor span).parent? n = t.parent? n := by
  have hne : n ≠ t.nextId := fun heq => Nat.lt_irrefl _ (heq ▸ h)
  rw [parent?, parent?, node?_push, if_neg hne]

/-- The new node has the kind that was asked for. -/
theorem kind?_push_nextId :
    (t.push kind anchor span).kind? t.nextId = some kind := by
  rw [kind?, node?_push, if_pos rfl]
  rfl

/-- And the parent. -/
theorem parent?_push_nextId :
    (t.push kind anchor span).parent? t.nextId = some anchor := by
  rw [parent?, node?_push, if_pos rfl]
  rfl

/-- A new node below one that was there. -/
theorem Earlier.push (ht : t.Earlier) (h : anchor.index < t.size) :
    (t.push kind anchor span).Earlier := by
  intro n p hp
  by_cases hn : n = t.nextId
  · subst hn
    rw [parent?_push_nextId] at hp
    cases hp
    exact h
  · rw [parent?, node?_push, if_neg hn] at hp
    exact ht n p hp

/-- What is above a node with a parent. -/
theorem Earlier.ancestors_of_parent (ht : t.Earlier)
    (h : t.parent? n = some p) : t.ancestors n = p :: t.ancestors p := by
  have hn := index_lt_of_parent? h
  have hlt := ht n p h
  obtain ⟨m, hm⟩ : ∃ m, t.size = m + 1 := ⟨t.size - 1, by omega⟩
  have hclimb : t.ancestors n = p :: climb t.parent? m p := by
    rw [ancestors, hm]
    simp only [climb, h]
  rw [hclimb, ancestors]
  exact congrArg _ (climb_eq NodeId.index ht (fun _ _ => rfl) (by omega)
    (by omega))

/-- What is above a node without one. -/
theorem ancestors_of_no_parent (h : t.parent? n = none) :
    t.ancestors n = [] := by
  unfold ancestors
  cases t.size <;> simp only [climb, h]

/-- What is above a node was made before it. -/
theorem Earlier.index_lt (ht : t.Earlier) (h : p ∈ t.ancestors n) :
    p.index < n.index := by
  obtain ⟨i, hi⟩ : ∃ i, n.index = i := ⟨n.index, rfl⟩
  induction i using Nat.strongRecOn generalizing n with
  | ind i ih =>
      cases hq : t.parent? n with
      | none =>
          rw [ancestors_of_no_parent hq] at h
          cases h
      | some q =>
          have hlt := ht n q hq
          rw [ht.ancestors_of_parent hq] at h
          rcases List.mem_cons.mp h with rfl | h
          · exact hlt
          · exact Nat.lt_trans (ih q.index (by omega) h rfl) hlt

/-- New nodes change nothing about what is above the others. -/
theorem Earlier.ancestors_push (ht : t.Earlier) (h : n.index < t.size) :
    (t.push kind anchor span).ancestors n = t.ancestors n := by
  refine (climb_eq NodeId.index ht (fun c hc => ?_) (Nat.le_of_lt h) ?_).symm
  · exact parent?_push_of_lt (Nat.lt_of_le_of_lt hc h)
  · have hsize : (t.push kind anchor span).size = t.size + 1 :=
      List.length_append
    omega

/-- A node below another one is in executable code if that is, or if that
is a block. -/
theorem Earlier.isLocal_of_parent (ht : t.Earlier)
    (h : t.parent? n = some p) :
    t.isLocal n = (t.kind? p == some .block || t.isLocal p) := by
  unfold isLocal
  rw [ht.ancestors_of_parent h, List.any_cons]

/-- A node without a parent is not in executable code. -/
theorem isLocal_of_no_parent (h : t.parent? n = none) :
    t.isLocal n = false := by
  unfold isLocal
  rw [ancestors_of_no_parent h]
  rfl

/-- New nodes put nothing into executable code that was not. -/
theorem Earlier.isLocal_push (ht : t.Earlier) (h : n.index < t.size) :
    (t.push kind anchor span).isLocal n = t.isLocal n := by
  unfold isLocal
  rw [ht.ancestors_push h, Bool.eq_iff_iff, List.any_eq_true,
    List.any_eq_true]
  refine exists_congr fun m => and_congr_right fun hm => ?_
  rw [kind?_push_of_lt (Nat.lt_trans (ht.index_lt hm) h)]

/-- The node is the file, or a class that can be named from it. -/
def IsHost (t : SourceTree) (n : NodeId) : Prop :=
  t.kind? n = some .file ∨ t.isNamedFromFile n = true

/-- A class that can be named from the file is one, and hangs on the file
or on another such class. -/
theorem Earlier.parent_of_isNamedFromFile (ht : t.Earlier)
    (h : t.isNamedFromFile n = true) :
    t.kind? n = some .classDecl ∧ ∃ p, t.parent? n = some p ∧ t.IsHost p := by
  unfold isNamedFromFile at h
  rw [Bool.and_eq_true, beq_iff_eq] at h
  obtain ⟨hkind, habove⟩ := h
  refine ⟨hkind, ?_⟩
  cases hp : t.parent? n with
  | none =>
      rw [ancestors_of_no_parent hp] at habove
      cases habove
  | some p =>
      refine ⟨p, rfl, ?_⟩
      rw [ht.ancestors_of_parent hp, List.dropWhile_cons] at habove
      by_cases hclass : (t.kind? p == some .classDecl) = true
      · right
        rw [if_pos hclass] at habove
        unfold isNamedFromFile
        rw [hclass, Bool.true_and]
        exact habove
      · rw [if_neg hclass] at habove
        exact Or.inl (eq_of_beq habove)

/-- So neither is a block. -/
theorem Earlier.not_block_of_isHost (ht : t.Earlier) (hn : t.IsHost n) :
    t.kind? n ≠ some .block := by
  intro hk
  rcases hn with hfile | hclass
  · cases hk.symm.trans hfile
  · cases hk.symm.trans (ht.parent_of_isNamedFromFile hclass).1

/-- A node other than the file that stands on its own hangs on the file, on
a class that can be named from it, or on a constructor of such a class. -/
theorem parent_of_standsAlone (h : t.standsAlone n = true)
    (hfile : t.kind? n ≠ some .file) : ∃ p, t.parent? n = some p ∧
      (t.IsHost p ∨ (t.kind? p = some .primaryConstructor ∧
        ∃ q, t.parent? p = some q ∧ t.IsHost q)) := by
  have hmember : t.isMemberNode n = true → ∃ p, t.parent? n = some p ∧
      (t.IsHost p ∨ (t.kind? p = some .primaryConstructor ∧
        ∃ q, t.parent? p = some q ∧ t.IsHost q)) := by
    intro h
    obtain ⟨p, hp, hhost⟩ := (Option.any_eq_true ..).mp h
    rw [Bool.or_eq_true, beq_iff_eq] at hhost
    exact ⟨p, hp, Or.inl hhost⟩
  have hproperty : t.isConstructorProperty n = true →
      ∃ p, t.parent? n = some p ∧ t.kind? p = some .primaryConstructor ∧
        ∃ q, t.parent? p = some q ∧ t.IsHost q := by
    intro h
    obtain ⟨p, hp, hup⟩ := (Option.any_eq_true ..).mp h
    rw [Bool.and_eq_true, beq_iff_eq] at hup
    obtain ⟨q, hq, hnamed⟩ := (Option.any_eq_true ..).mp hup.2
    exact ⟨p, hp, hup.1, q, hq, Or.inr hnamed⟩
  unfold standsAlone at h
  split at h
  · next hk => exact absurd hk hfile
  · rw [Bool.and_eq_true] at h
    obtain ⟨p, hp, hup⟩ := hproperty h.2
    exact ⟨p, hp, Or.inr hup⟩
  · exact hmember h
  · exact hmember h
  · exact hmember h
  · exact hmember h
  · exact hmember h
  · exact hmember h
  · cases h

end SourceTree

/-- A node hangs on another one, directly or in its body. -/
def SourceTree.HangsOn (t : SourceTree) (n m : NodeId) : Prop :=
  t.parent? n = some m ∨ ∃ b, t.parent? n = some b ∧
    t.kind? b = some .block ∧ t.parent? b = some m

/-- New nodes change nothing about that. -/
theorem SourceTree.HangsOn.push {t : SourceTree} {n m anchor : NodeId}
    {kind : NodeKind} {span : Span} (h : t.HangsOn n m) :
    (t.push kind anchor span).HangsOn n m := by
  rcases h with h | ⟨b, h, hkind, hb⟩
  · exact Or.inl (by rwa [parent?_push_of_lt (index_lt_of_parent? h)])
  · have hlt := index_lt_of_parent? hb
    exact Or.inr ⟨b, by rwa [parent?_push_of_lt (index_lt_of_parent? h)],
      by rwa [kind?_push_of_lt hlt], by rwa [parent?_push_of_lt hlt]⟩

/-- A node that hangs on another one, and whose parent is no block, has it
for a parent. -/
theorem SourceTree.HangsOn.eq_of_parent {t : SourceTree} {n m q : NodeId}
    (h : t.HangsOn n q) (hparent : t.parent? n = some m)
    (hm : t.kind? m ≠ some .block) : m = q := by
  rcases h with hq | ⟨b, hb, hkind, -⟩
  · exact Option.some.inj (hparent.symm.trans hq)
  · obtain rfl := Option.some.inj (hparent.symm.trans hb)
    exact absurd hkind hm

end StagedResolve
