/-
Refusals: a unit that is refused leaves no trace but its id.

# What is put back

A refused registration has touched nothing yet. A refused replacement
has taken the old unit out of three tables, and puts it back. That this
restores them is no accident of what was taken out: the tables of a
registry are determined by its units (`Indexed`), so two registries with
the same units have the same tables, in whatever order they were filled
(`Indexed.same`).

# What is answered later

The id that was spent is noticed later on, by every unit that is built
from then on. So what happens after a refusal is compared up to the
names of units: `Renames` relates a registry to one that has the same
units under other ids, every operation keeps it, and every look-up
answers alike in both. For units that were there before the refusal the
renaming changes nothing.
-/
import StagedResolve.Proofs.Indexes

namespace StagedResolve

-- ============================================================= same tables

/-- Two tables answer alike and hold the same entries. -/
structure Table.Same {κ ν : Type} [DecidableEq κ] (t t' : Table κ ν) :
    Prop where
  find : ∀ k, t'.find? k = t.find? k
  entries : t'.entries.Perm t.entries

/-- Tables without double keys that answer alike hold the same entries. -/
theorem Table.KeysOnce.same {κ ν : Type} [DecidableEq κ] {t t' : Table κ ν}
    (ht : t.KeysOnce) (ht' : t'.KeysOnce) (h : ∀ k, t'.find? k = t.find? k) :
    t.Same t' where
  find := h
  entries := by
    have hnodup : ∀ {t : Table κ ν}, t.KeysOnce → t.entries.Nodup := fun h =>
      List.Pairwise.of_map Prod.fst (fun _ _ hne heq => hne (by rw [heq])) h
    refine (List.perm_ext_iff_of_nodup (hnodup ht') (hnodup ht)).mpr ?_
    rintro ⟨k, v⟩
    rw [mem_entries_iff ht', mem_entries_iff ht, h]

namespace Registry

variable {r s : Registry} {u : CompilationUnit}

/-- Only the next id may have changed. -/
structure Unchanged (r s : Registry) : Prop where
  next : s.nextUnit = r.nextUnit ∨ s.nextUnit = r.nextUnit + 1
  units : r.units.Same s.units
  paths : r.paths.Same s.paths
  classifiers : r.classifiers.Same s.classifiers
  packages : s.packages = r.packages
  pending : s.pending = r.pending
  pendingIndex : s.pendingIndex = r.pendingIndex
  nextSource : s.nextSource = r.nextSource

/-- The units determine the tables. -/
theorem Indexed.same (hr : r.Indexed) (hs : s.Indexed)
    (h : ∀ id, s.unit? id = r.unit? id) : r.units.Same s.units ∧
      r.paths.Same s.paths ∧ r.classifiers.Same s.classifiers := by
  refine ⟨hr.unitsOnce.same hs.unitsOnce h,
    hr.pathsOnce.same hs.pathsOnce fun p => ?_,
    hr.classifiersOnce.same hs.classifiersOnce fun k => ?_⟩
  · ext id
    rw [hs.path, hr.path, h]
  · ext c
    rw [hs.entry, hr.entry, h]

/-- A unit that is refused costs an id. -/
theorem Indexed.unchanged_addUnit (hr : r.Indexed) {draft : Draft}
    {e : RegistryError} (h : (r.addUnit draft).1 = .error e) :
    r.Unchanged (r.addUnit draft).2 := by
  rcases r.addUnit_cases draft with ⟨-, hrun⟩ | ⟨-, e', hrun⟩
  · rw [hrun] at h
    cases h
  · rw [hrun]
    obtain ⟨hunits, hpaths, hclassifiers⟩ := hr.same hr fun _ => rfl
    exact ⟨Or.inr rfl, hunits, hpaths, hclassifiers, rfl, rfl, rfl, rfl⟩

/-- A replacement that is refused puts everything back. -/
theorem Indexed.unchanged_replaceUnit (hr : r.Indexed) (hc : r.Coherent)
    {old : UnitId} {draft : Draft} {e : RegistryError}
    (h : (r.replaceUnit old draft).1 = .error e) :
    r.Unchanged (r.replaceUnit old draft).2 := by
  have hs := hr.replaceUnit hc old draft
  rcases r.replaceUnit_cases old draft with ⟨-, hrun⟩ |
    ⟨previous, v, hprevious, -, ⟨-, hrun⟩ | ⟨-, e', hrun⟩⟩
  · rw [hrun]
    obtain ⟨hunits, hpaths, hclassifiers⟩ := hr.same hr fun _ => rfl
    exact ⟨Or.inl rfl, hunits, hpaths, hclassifiers, rfl, rfl, rfl, rfl⟩
  · rw [hrun] at h
    cases h
  · rw [hrun] at hs ⊢
    have hunit : ∀ id, ((r.remove previous).skip.enter previous).unit? id =
        r.unit? id := by
      intro id
      rw [unit?_enter]
      split
      · next hid => rw [← hid, hc.named old previous hprevious, hprevious]
      · next hid =>
        show (r.remove previous).unit? id = r.unit? id
        rw [unit?_remove, if_neg hid]
    obtain ⟨hunits, hpaths, hclassifiers⟩ := hr.same hs hunit
    exact ⟨Or.inr rfl, hunits, hpaths, hclassifiers, rfl, rfl, rfl, rfl⟩

end Registry

-- ======================================================= other names for units

/-- The same declaration, where units have other names. -/
def Symbol.rename (ρ : UnitId → UnitId) (c : Symbol) : Symbol :=
  { c with unit := ρ c.unit }

/-- The same unit under another name. -/
def CompilationUnit.rename (ρ : UnitId → UnitId) (u : CompilationUnit) :
    CompilationUnit :=
  { u with id := ρ u.id }

/-- The classifiers of a unit under another name. -/
theorem CompilationUnit.classifiers_rename (ρ : UnitId → UnitId)
    (u : CompilationUnit) : (u.rename ρ).classifiers =
      u.classifiers.map fun e => (e.1, e.2.rename ρ) := by
  unfold classifiers
  rw [List.map_filterMap]
  congr 1
  funext x
  cases hn : x.qualifiedName <;> rfl

namespace Registry

variable {ρ : UnitId → UnitId} {r s : Registry} {u : CompilationUnit}

/-- Where units have other names, other symbols are left under the keys. -/
theorem lastUnder_rename (ρ : UnitId → UnitId) (k : NameKey)
    (found : List (QualifiedName × Symbol)) :
    lastUnder k (found.map fun e => (e.1, e.2.rename ρ)) =
      (lastUnder k found).map (.rename ρ) := by
  induction found with
  | nil => rfl
  | cons entry rest ih =>
      obtain ⟨n, c⟩ := entry
      simp only [List.map_cons, lastUnder, ih]
      cases lastUnder k rest with
      | some d => simp only [Option.map_some, Option.some_or]
      | none =>
          by_cases hk : n.key = k
          · rw [if_pos hk, if_pos hk]
            rfl
          · rw [if_neg hk, if_neg hk]
            rfl

/-- The same promises are dropped. -/
theorem dropPromises_rename (ρ : UnitId → UnitId)
    (found : List (QualifiedName × Symbol)) (t : Table NameKey Nat) :
    dropPromises (found.map fun e => (e.1, e.2.rename ρ)) t =
      dropPromises found t := by
  induction found generalizing t with
  | nil => rfl
  | cons entry rest ih => exact ih _

/-- The second registry is the first one with other ids for its units, those
that are not given out yet included. -/
structure Renames (ρ : UnitId → UnitId) (r s : Registry) : Prop where
  injective : Function.Injective ρ
  next : ∀ i, ρ ⟨r.nextUnit + i⟩ = ⟨s.nextUnit + i⟩
  units : ∀ id, s.unit? (ρ id) = (r.unit? id).map (.rename ρ)
  unused : ∀ id, (∀ a, ρ a ≠ id) → s.unit? id = none
  paths : ∀ p, s.paths.find? p = (r.paths.find? p).map ρ
  classifiers : ∀ k,
    s.classifiers.find? k = (r.classifiers.find? k).map (.rename ρ)
  packages : s.packages = r.packages
  pending : s.pending = r.pending
  pendingIndex : s.pendingIndex = r.pendingIndex
  nextSource : s.nextSource = r.nextSource

/-- The unit that is built next. -/
theorem Renames.built (h : r.Renames ρ s) (draft : Draft) :
    draft.finish ⟨s.nextUnit⟩ = (draft.finish ⟨r.nextUnit⟩).rename ρ := by
  have hnext : ρ ⟨r.nextUnit⟩ = ⟨s.nextUnit⟩ := h.next 0
  simp only [Draft.finish, CompilationUnit.rename, hnext]

/-- Both registries admit a unit, or none does. -/
theorem Renames.admits_iff (h : r.Renames ρ s) :
    s.Admits (u.rename ρ) ↔ r.Admits u := by
  constructor
  · rintro ⟨hpath, hkeys⟩
    refine ⟨?_, fun e he => ?_⟩
    · rw [h.paths, Option.map_eq_none_iff] at hpath
      exact hpath
    · have hmem : (e.1, e.2.rename ρ) ∈ (u.rename ρ).classifiers := by
        rw [u.classifiers_rename]
        exact List.mem_map.mpr ⟨e, he, rfl⟩
      have hnone := hkeys _ hmem
      rw [h.classifiers, Option.map_eq_none_iff] at hnone
      exact hnone
  · rintro ⟨hpath, hkeys⟩
    refine ⟨?_, fun e he => ?_⟩
    · rw [h.paths, Option.map_eq_none_iff]
      exact hpath
    · rw [u.classifiers_rename] at he
      obtain ⟨e', he', rfl⟩ := List.mem_map.mp he
      rw [h.classifiers, Option.map_eq_none_iff]
      exact hkeys e' he'

/-- An id is spent in both. -/
theorem Renames.skip (h : r.Renames ρ s) : r.skip.Renames ρ s.skip :=
  { h with
    next := fun i => by
      have hnext := h.next (1 + i)
      rwa [← Nat.add_assoc, ← Nat.add_assoc] at hnext }

/-- A unit is entered in both. -/
theorem Renames.enter (h : r.Renames ρ s) :
    (r.enter u).Renames ρ (s.enter (u.rename ρ)) :=
  { h with
    units := fun id => by
      rw [unit?_enter, unit?_enter]
      by_cases hid : u.id = id
      · have hid' : (u.rename ρ).id = ρ id := congrArg ρ hid
        rw [if_pos hid, if_pos hid', Option.map_some]
      · have hid' : (u.rename ρ).id ≠ ρ id := fun heq => hid (h.injective heq)
        rw [if_neg hid, if_neg hid', h.units]
    unused := fun id hid => by
      have hne : (u.rename ρ).id ≠ id := hid u.id
      rw [unit?_enter, if_neg hne, h.unused id hid]
    paths := fun p => by
      show (s.paths.insert u.path (ρ u.id)).find? p =
        ((r.paths.insert u.path u.id).find? p).map ρ
      rw [Table.find?_insert, Table.find?_insert, h.paths]
      split <;> rfl
    classifiers := fun k => by
      show (enterClassifiers (u.rename ρ).classifiers s.classifiers).find? k =
        ((enterClassifiers u.classifiers r.classifiers).find? k).map _
      rw [find?_enterClassifiers, find?_enterClassifiers,
        u.classifiers_rename, lastUnder_rename, h.classifiers]
      cases lastUnder k u.classifiers <;> rfl }

/-- A unit is taken out of both. -/
theorem Renames.remove (h : r.Renames ρ s) (hr : r.Indexed) (hs : s.Indexed) :
    (r.remove u).Renames ρ (s.remove (u.rename ρ)) :=
  { h with
    units := fun id => by
      rw [unit?_remove, unit?_remove]
      by_cases hid : u.id = id
      · have hid' : (u.rename ρ).id = ρ id := congrArg ρ hid
        rw [if_pos hid, if_pos hid', Option.map_none]
      · have hid' : (u.rename ρ).id ≠ ρ id := fun heq => hid (h.injective heq)
        rw [if_neg hid, if_neg hid', h.units]
    unused := fun id hid => by
      have hne : (u.rename ρ).id ≠ id := hid u.id
      rw [unit?_remove, if_neg hne, h.unused id hid]
    paths := fun p => by
      show (s.paths.erase u.path).find? p =
        ((r.paths.erase u.path).find? p).map ρ
      rw [Table.find?_erase, Table.find?_erase, h.paths]
      split <;> rfl
    classifiers := fun k => by
      show (s.classifiers.filter fun _ c => c.unit ≠ ρ u.id).find? k =
        ((r.classifiers.filter fun _ c => c.unit ≠ u.id).find? k).map _
      ext c
      rw [Table.find?_filter hs.classifiersOnce, h.classifiers,
        Option.map_eq_some_iff, Option.map_eq_some_iff]
      constructor
      · rintro ⟨⟨d, hd, rfl⟩, hne⟩
        refine ⟨d, (Table.find?_filter hr.classifiersOnce _).mpr
          ⟨hd, decide_eq_true fun heq => ?_⟩, rfl⟩
        exact of_decide_eq_true hne (congrArg ρ heq)
      · rintro ⟨d, hd, rfl⟩
        obtain ⟨hd, hne⟩ := (Table.find?_filter hr.classifiersOnce _).mp hd
        exact ⟨⟨d, hd, rfl⟩, decide_eq_true fun heq =>
          of_decide_eq_true hne (h.injective heq)⟩ }

/-- A unit is accepted in both. -/
theorem Renames.accept (h : r.Renames ρ s) :
    (r.accept u).Renames ρ (s.accept (u.rename ρ)) :=
  { (h.skip.enter (u := u)) with
    packages := by
      show enterPackages _ s.packages = enterPackages _ r.packages
      rw [h.packages]
      rfl
    pendingIndex := by
      show dropPromises (u.rename ρ).classifiers s.pendingIndex =
        dropPromises u.classifiers r.pendingIndex
      rw [u.classifiers_rename, dropPromises_rename, h.pendingIndex] }

/-- A unit is built in both, and it is accepted in both or in none. -/
theorem Renames.addUnit (h : r.Renames ρ s) (draft : Draft) :
    (r.addUnit draft).2.Renames ρ (s.addUnit draft).2 ∧
      (s.addUnit draft).1.toOption =
        (r.addUnit draft).1.toOption.map (.rename ρ) := by
  rcases s.addUnit_cases draft with ⟨hs, hsrun⟩ | ⟨hs, e, hsrun⟩ <;>
    rcases r.addUnit_cases draft with ⟨hr, hrrun⟩ | ⟨hr, e', hrrun⟩ <;>
    rw [h.built, h.admits_iff] at hs
  · rw [hsrun, hrrun, h.built]
    exact ⟨h.accept, rfl⟩
  · exact absurd hs hr
  · exact absurd hr hs
  · rw [hsrun, hrrun]
    exact ⟨h.skip, rfl⟩

/-- A unit is replaced in both, if it is there. -/
theorem Renames.replaceUnit (h : r.Renames ρ s) (hr : r.Indexed)
    (hs : s.Indexed) (old : UnitId) (draft : Draft) :
    (r.replaceUnit old draft).2.Renames ρ (s.replaceUnit (ρ old) draft).2 := by
  have hold := h.units old
  unfold Registry.replaceUnit
  cases hprevious : r.unit? old with
  | none =>
      rw [hprevious, Option.map_none] at hold
      rw [hold]
      exact h
  | some previous =>
      rw [hprevious, Option.map_some] at hold
      rw [hold]
      have hremoved := h.remove (u := previous) hr hs
      obtain ⟨hadd, hanswer⟩ := hremoved.addUnit draft
      dsimp only
      cases hrrun : (r.remove previous).addUnit draft with
      | mk ra r' =>
        cases hsrun : (s.remove (previous.rename ρ)).addUnit draft with
        | mk sa s' =>
          rw [hrrun, hsrun] at hadd hanswer
          cases ra with
          | ok v =>
              cases sa with
              | ok v' => exact hadd
              | error e => cases hanswer
          | error e =>
              cases sa with
              | ok v' => cases hanswer
              | error e' => exact hadd.enter

/-- The same promises are entered in both. -/
theorem Renames.promise (h : r.Renames ρ s) (key : Nat)
    (names : List QualifiedName) :
    (Registry.promise key names r).Renames ρ (Registry.promise key names s) := by
  induction names generalizing r s with
  | nil => exact h
  | cons n rest ih =>
      refine ih { h with packages := ?_, pendingIndex := ?_ }
      · show enterPackages _ s.packages = enterPackages _ r.packages
        rw [h.packages]
      · show s.pendingIndex.insert _ _ = r.pendingIndex.insert _ _
        rw [h.pendingIndex]

/-- The same unit is announced in both. -/
theorem Renames.addSource (h : r.Renames ρ s) (path : String)
    (declares : List QualifiedName) (draft : Draft) :
    (r.addSource path declares draft).Renames ρ
      (s.addSource path declares draft) := by
  have hstart : ({ r with nextSource := r.nextSource + 1 } : Registry).Renames ρ
      { s with nextSource := s.nextSource + 1 } :=
    { h with nextSource := congrArg (· + 1) h.nextSource }
  have hpromised := hstart.promise r.nextSource declares
  unfold Registry.addSource
  dsimp only
  rw [h.nextSource] at hpromised ⊢
  exact { hpromised with
    pending := congrArg (·.insert r.nextSource ⟨path, draft⟩)
      hpromised.pending }

/-- A source is withdrawn in both. -/
theorem Renames.withdraw (h : r.Renames ρ s) (key : Nat) :
    (r.withdraw key).Renames ρ (s.withdraw key) :=
  { h with
    pending := congrArg (·.erase key) h.pending
    pendingIndex := congrArg (·.filter fun _ key' => key' ≠ key)
      h.pendingIndex }

/-- A classifier is looked up in both, with the same answer. -/
theorem Renames.classifier (h : r.Renames ρ s) (k : NameKey) :
    (r.classifier k).registry.Renames ρ (s.classifier k).registry ∧
      (s.classifier k).answer = (r.classifier k).answer.map (.rename ρ) := by
  have hk := h.classifiers k
  cases hrk : r.classifiers.find? k with
  | some c =>
      rw [hrk, Option.map_some] at hk
      rw [classifier_of_declared hrk, classifier_of_declared hk]
      exact ⟨h, rfl⟩
  | none =>
      rw [hrk, Option.map_none] at hk
      cases hkey : r.pendingIndex.find? k with
      | none =>
          have hkey' : s.pendingIndex.find? k = none := by
            rw [h.pendingIndex, hkey]
          rw [classifier_of_unpromised hrk hkey,
            classifier_of_unpromised hk hkey']
          exact ⟨h, rfl⟩
      | some key =>
          have hkey' : s.pendingIndex.find? k = some key := by
            rw [h.pendingIndex, hkey]
          cases hsource : r.pending.find? key with
          | none =>
              have hsource' : s.pending.find? key = none := by
                rw [h.pending, hsource]
              rw [classifier_of_sourceless hrk hkey hsource,
                classifier_of_sourceless hk hkey' hsource']
              exact ⟨{ (h.withdraw key) with pending := h.pending }, rfl⟩
          | some source =>
              have hsource' : s.pending.find? key = some source := by
                rw [h.pending, hsource]
              obtain ⟨hr, hranswer⟩ := classifier_of_promised hrk hkey hsource
              obtain ⟨hs, hsanswer⟩ := classifier_of_promised hk hkey' hsource'
              obtain ⟨hadd, hanswer⟩ := (h.withdraw key).addUnit source.draft
              rw [hr, hs, hranswer, hsanswer, hanswer, hadd.classifiers]
              refine ⟨hadd, ?_⟩
              cases ((r.withdraw key).addUnit source.draft).1 <;> rfl

/-- A unit is found by its path in both. -/
theorem Renames.unitByPath? (h : r.Renames ρ s) (path : String) :
    s.unitByPath? path = (r.unitByPath? path).map (.rename ρ) := by
  unfold Registry.unitByPath?
  rw [h.paths]
  cases r.paths.find? path with
  | none => rfl
  | some id => exact h.units id

/-- The same packages are there. -/
theorem Renames.hasPackage (h : r.Renames ρ s) (package : String) :
    s.hasPackage package = r.hasPackage package := by
  unfold Registry.hasPackage
  rw [h.packages]

-- ============================================================ after a refusal

/-- Every look-up in the second registry answers as it does in the first one,
where units have other ids. -/
structure AnswersLike (ρ : UnitId → UnitId) (r s : Registry) : Prop where
  unit : ∀ id, s.unit? (ρ id) = (r.unit? id).map (.rename ρ)
  unused : ∀ id, (∀ a, ρ a ≠ id) → s.unit? id = none
  path : ∀ p, s.unitByPath? p = (r.unitByPath? p).map (.rename ρ)
  classifier : ∀ k, (s.classifier k).answer =
    (r.classifier k).answer.map (.rename ρ)
  package : ∀ p, s.hasPackage p = r.hasPackage p

/-- Registries with the same units answer alike. -/
theorem Renames.answersLike (h : r.Renames ρ s) : r.AnswersLike ρ s :=
  ⟨h.units, h.unused, h.unitByPath?, fun k => (h.classifier k).2, h.hasPackage⟩

end Registry

/-- The ids from `first` on, moved up by `gap`. -/
def UnitId.shift (first gap : Nat) (id : UnitId) : UnitId :=
  if id.index < first then id else ⟨id.index + gap⟩

/-- Ids that are moved up stay apart. -/
theorem UnitId.shift_injective (first gap : Nat) :
    Function.Injective (UnitId.shift first gap) := by
  rintro ⟨i⟩ ⟨j⟩ h
  have hindex := congrArg UnitId.index h
  simp only [shift] at hindex
  refine congrArg UnitId.mk ?_
  split at hindex <;> split at hindex <;> simp only at hindex <;> omega

/-- Ids below the first one that is moved stay as they are. -/
theorem UnitId.shift_of_lt {first gap : Nat} {id : UnitId}
    (h : id.index < first) : id.shift first gap = id :=
  if_pos h

/-- Ids that are moved stay above the first one that is. -/
theorem UnitId.le_shift {first gap : Nat} {id : UnitId}
    (h : ¬ id.index < first) : ¬ (id.shift first gap).index < first := by
  rw [shift, if_neg h]
  exact fun hlt => h (Nat.lt_of_le_of_lt (Nat.le_add_right _ _) hlt)

namespace Registry

variable {r s : Registry}

/-- If only the next id has changed, the units that are built from then on
have other ids, and that is all. -/
theorem Unchanged.renames (h : r.Unchanged s) (hr : r.Indexed)
    (hc : r.Coherent) :
    r.Renames (.shift r.nextUnit (s.nextUnit - r.nextUnit)) s := by
  have hunit : ∀ id, s.unit? id = r.unit? id := h.units.find
  have hfree : ∀ id : UnitId, ¬ id.index < r.nextUnit → r.unit? id = none := by
    intro id hid
    cases hu : r.unit? id with
    | none => rfl
    | some u => exact absurd (hc.issued id u hu) hid
  constructor
  case injective => exact UnitId.shift_injective _ _
  case next =>
    intro i
    have hle : r.nextUnit ≤ s.nextUnit := by
      rcases h.next with h | h <;> omega
    rw [UnitId.shift, if_neg (Nat.not_lt.mpr (Nat.le_add_right _ _))]
    show UnitId.mk (r.nextUnit + i + (s.nextUnit - r.nextUnit)) = _
    exact congrArg UnitId.mk (by omega)
  case units =>
    intro id
    rw [hunit]
    by_cases hid : id.index < r.nextUnit
    · rw [UnitId.shift_of_lt hid]
      cases hu : r.unit? id with
      | none => rfl
      | some u =>
          rw [Option.map_some, CompilationUnit.rename, hc.named id u hu,
            UnitId.shift_of_lt hid, ← hc.named id u hu]
    · rw [hfree _ hid, hfree _ (UnitId.le_shift hid), Option.map_none]
  case unused =>
    intro id hid
    rw [hunit]
    exact hfree id fun hlt => hid id (UnitId.shift_of_lt hlt)
  case paths =>
    intro p
    rw [h.paths.find]
    cases hp : r.paths.find? p with
    | none => rfl
    | some id =>
        obtain ⟨u, hu, -⟩ := (hr.path p id).mp hp
        rw [Option.map_some, UnitId.shift_of_lt (hc.issued id u hu)]
  case classifiers =>
    intro k
    rw [h.classifiers.find]
    cases hk : r.classifiers.find? k with
    | none => rfl
    | some c =>
        rw [Option.map_some, Symbol.rename,
          UnitId.shift_of_lt (hc.known_of_find? hk)]
  case packages => exact h.packages
  case pending => exact h.pending
  case pendingIndex => exact h.pendingIndex
  case nextSource => exact h.nextSource

end Registry

/-- The same call, where units have other names. -/
def Call.rename (ρ : UnitId → UnitId) : Call → Call
  | .replaceUnit old spec => .replaceUnit (ρ old) spec
  | call => call

/-- A call that registers or replaces a unit, and is refused. -/
inductive Call.Refused (w : World) : Call → Prop where
  | addUnit {spec : UnitSpec} {e : RegistryError}
      (h : (Action.addUnit spec w).1 = .ok (.error e)) :
      Refused w (.addUnit spec)
  | replaceUnit {old : UnitId} {spec : UnitSpec} {e : RegistryError}
      (h : (Action.replaceUnit old spec w).1 = .ok (.error e)) :
      Refused w (.replaceUnit old spec)

section histories

variable {setup : Setup} {ρ : UnitId → UnitId} {v w : World}

/-- What registers keeps two registries alike. -/
theorem Registry.Renames.run (h : v.registry.Renames ρ w.registry)
    (hv : v.registry.Indexed) (hw : w.registry.Indexed) {call : Call}
    (hcall : call.Registers) : (call.run setup v).registry.Renames ρ
      ((call.rename ρ).run setup w).registry := by
  cases call with
  | addUnit spec =>
      simp only [Call.rename, Call.run, Action.addUnit, Action.draft]
      cases spec.draft with
      | error f => exact h
      | ok d => exact (h.addUnit d).1
  | replaceUnit old spec =>
      simp only [Call.rename, Call.run, Action.replaceUnit, Action.draft]
      cases spec.draft with
      | error f => exact h
      | ok d => exact h.replaceUnit hv hw old d
  | addSource path declares spec =>
      simp only [Call.rename, Call.run, Action.addSource, Action.draft]
      cases spec.draft with
      | error f => exact h
      | ok d => exact h.addSource path declares d
  | lookUp key => exact (h.classifier key).1
  | resolve | resolveFile | otherTakes | otherReleases | setToken =>
      exact hcall.elim

/-- So do several such calls. -/
theorem Registry.Renames.through (hquiet : setup.Quiet)
    (h : v.registry.Renames ρ w.registry) (hv : Reaches setup anyCall v)
    (hw : Reaches setup anyCall w) {calls : List Call}
    (hcalls : ∀ call ∈ calls, call.Registers) :
    (v.through setup calls).registry.Renames ρ
      (w.through setup (calls.map (.rename ρ))).registry := by
  induction calls generalizing v w with
  | nil => exact h
  | cons call rest ih =>
      have hstep : (call.run setup v).registry.Renames ρ
          ((call.rename ρ).run setup w).registry :=
        h.run (hv.indexed hquiet) (hw.indexed hquiet)
          (hcalls call (List.mem_cons_self ..))
      exact ih hstep (.step v call hv trivial) (.step w _ hw trivial)
        fun c hc => hcalls c (List.mem_cons_of_mem _ hc)

/-- A refused call changes nothing in the registry but the next id. -/
theorem Call.Refused.unchanged {call : Call} (h : call.Refused w)
    (hr : w.registry.Indexed) (hc : w.registry.Coherent) :
    w.registry.Unchanged (call.run setup w).registry := by
  cases h with
  | @addUnit spec e h =>
      simp only [run, Action.addUnit, Action.draft] at h ⊢
      cases hd : spec.draft with
      | error f =>
          rw [hd] at h
          cases h
      | ok d =>
          rw [hd] at h
          exact hr.unchanged_addUnit (Except.ok.inj h)
  | @replaceUnit old spec e h =>
      simp only [run, Action.replaceUnit, Action.draft] at h ⊢
      cases hd : spec.draft with
      | error f =>
          rw [hd] at h
          cases h
      | ok d =>
          rw [hd] at h
          exact hr.unchanged_replaceUnit hc (Except.ok.inj h)

/-- A refused registration or replacement changes nothing in the registry
but the next id. Whatever is registered, replaced, announced or looked up
afterwards, every look-up answers as it would have without the refusal,
up to the ids of the units that were built since. -/
theorem unchanged_of_refused (hquiet : setup.Quiet)
    (hw : Reaches setup anyCall w) {call : Call} (h : call.Refused w) :
    w.registry.Unchanged (call.run setup w).registry ∧
      ∃ ρ : UnitId → UnitId, Function.Injective ρ ∧
        (∀ id, id.index < w.registry.nextUnit → ρ id = id) ∧
        ∀ calls : List Call, (∀ c ∈ calls, c.Registers) →
          (w.through setup calls).registry.AnswersLike ρ
            ((call.run setup w).through setup
              (calls.map (.rename ρ))).registry := by
  have hindexed := hw.indexed hquiet
  have hcoherent := (hw.coherent hquiet).registry
  have hsame : w.registry.Unchanged (call.run setup w).registry :=
    h.unchanged hindexed hcoherent
  have hrenames := hsame.renames hindexed hcoherent
  refine ⟨hsame, _, hrenames.injective, fun id => UnitId.shift_of_lt, ?_⟩
  intro calls hcalls
  exact (hrenames.through hquiet hw (.step w call hw trivial)
    hcalls).answersLike

/-- A unit that declares a class of `UnitSpec.nestedClass` once more. -/
def UnitSpec.rivalClass : UnitSpec :=
  .ofEntries "c.kt" [.member 0 (.classNamed "D" [])]

/-- A unit is to be replaced by one that declares a class of a third one. -/
theorem unchanged_of_refused_rivalClass :
    let setup := Setup.plain .default
    let w := World.after setup [.addUnit .plainClass, .addUnit .nestedClass]
    let call := Call.replaceUnit ⟨0⟩ .rivalClass
    call.Refused w ∧ w.registry.Unchanged (call.run setup w).registry ∧
      ∃ ρ : UnitId → UnitId, ρ ⟨0⟩ = ⟨0⟩ ∧
        (w.through setup [.replaceUnit ⟨1⟩ .rivalClass]).registry.AnswersLike ρ
          ((call.run setup w).through setup
            [.replaceUnit (ρ ⟨1⟩) .rivalClass]).registry := by
  intro setup w call
  have hanswer : (Action.replaceUnit ⟨0⟩ .rivalClass w).1 =
      .ok (.error (.duplicateClassifier "p.D" ⟨⟨1⟩, ⟨1⟩⟩)) := by
    decide +kernel
  have hrefused : call.Refused w := .replaceUnit hanswer
  obtain ⟨hsame, ρ, -, hold, hlater⟩ := unchanged_of_refused
    (Setup.quiet_plain .default) (Reaches.after setup _) hrefused
  exact ⟨hrefused, hsame, ρ, hold ⟨0⟩ (by decide),
    hlater [.replaceUnit ⟨1⟩ .rivalClass]
      (List.forall_mem_singleton.mpr trivial)⟩

end histories

end StagedResolve
