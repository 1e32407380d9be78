/-
Registries: what registering, replacing and looking up leave behind.

# Ids are used once

Every id that a registry has given out is below its `nextUnit`, whether
the unit is still there or not. So a symbol that was found once names
the same declaration for good, or none at all: `Evolves` says that a
unit under an old id was there before. Only replacing takes a unit away;
whatever else happens to a registry, a look-up that builds a source
included, keeps the units that are there (`Grows`).

# What is registered

`Coherent` collects what the rest of the development needs of a
registry: units stand under their own ids, their declarations form a
tree, and the index of classifiers leads to declarations that are there
(`Live`). Registering, announcing and looking up keep it.
-/
import StagedResolve.Proofs.Trees
import StagedResolve.Registry

namespace StagedResolve

-- ================================================= entries of a table

namespace Table

variable {κ ν : Type} [DecidableEq κ]

/-- What is found in a table is an entry of it. -/
theorem mem_entries_of_find? {t : Table κ ν} {k : κ} {v : ν}
    (h : t.find? k = some v) : (k, v) ∈ t.entries := by
  obtain ⟨es⟩ := t
  simp only [find?] at h
  induction es with
  | nil => cases h
  | cons e rest ih =>
      obtain ⟨k', v'⟩ := e
      rw [lookup] at h
      split at h
      · next hk =>
        cases h
        rw [hk]
        exact List.mem_cons_self ..
      · exact List.mem_cons_of_mem _ (ih h)

/-- A key with a value is listed. -/
theorem mem_keys_of_find? {t : Table κ ν} {k : κ}
    (h : (t.find? k).isSome) : k ∈ t.keys := by
  obtain ⟨v, hv⟩ := Option.isSome_iff_exists.mp h
  exact List.mem_map.mpr ⟨(k, v), mem_entries_of_find? hv, rfl⟩

/-- The entries after an insertion are the new one and some of the old
ones. -/
theorem mem_entries_insert {t : Table κ ν} {k : κ} {v : ν} {e : κ × ν}
    (h : e ∈ (t.insert k v).entries) : e = (k, v) ∨ e ∈ t.entries := by
  obtain ⟨es⟩ := t
  simp only [insert] at h
  induction es with
  | nil => exact Or.inl (List.mem_singleton.mp h)
  | cons e' rest ih =>
      obtain ⟨k', v'⟩ := e'
      rw [put] at h
      split at h
      · rcases List.mem_cons.mp h with h | h
        · exact Or.inl h
        · exact Or.inr (List.mem_cons_of_mem _ h)
      · rcases List.mem_cons.mp h with h | h
        · exact Or.inr (by rw [h]; exact List.mem_cons_self ..)
        · exact (ih h).imp id (List.mem_cons_of_mem _)

/-- A value under a new key comes last. -/
theorem values_insert {t : Table κ ν} {k : κ} {v : ν} (h : t.find? k = none) :
    (t.insert k v).values = t.values ++ [v] := by
  obtain ⟨es⟩ := t
  simp only [find?] at h
  simp only [insert, values]
  induction es with
  | nil => rfl
  | cons e rest ih =>
      obtain ⟨k', v'⟩ := e
      rw [lookup] at h
      split at h
      · cases h
      · next hne =>
        rw [put, if_neg hne, List.map_cons, ih h]
        rfl

end Table

namespace Registry

-- ============================================================== changes

/-- No unit has come back, and new ones have new ids. -/
structure Evolves (r s : Registry) : Prop where
  next : r.nextUnit ≤ s.nextUnit
  known : ∀ id u, s.unit? id = some u →
    r.unit? id = some u ∨ r.nextUnit ≤ id.index

/-- No unit has gone, and new ones have new ids. -/
structure Grows (r s : Registry) : Prop extends Evolves r s where
  kept : ∀ id u, r.unit? id = some u → s.unit? id = some u

variable {r s t : Registry}

/-- Nothing happens if nothing happens. -/
theorem Grows.refl (r : Registry) : r.Grows r :=
  ⟨⟨Nat.le_refl _, fun _ _ => Or.inl⟩, fun _ _ => id⟩

/-- One change after another. -/
theorem Evolves.trans (h : r.Evolves s) (h' : s.Evolves t) : r.Evolves t := by
  refine ⟨Nat.le_trans h.next h'.next, fun id u hu => ?_⟩
  rcases h'.known id u hu with hu | hid
  · exact h.known id u hu
  · exact Or.inr (Nat.le_trans h.next hid)

/-- One growth after another. -/
theorem Grows.trans (h : r.Grows s) (h' : s.Grows t) : r.Grows t :=
  ⟨h.toEvolves.trans h'.toEvolves, fun id u hu => h'.kept id u (h.kept id u hu)⟩

/-- Only the units and the next id count. -/
theorem Grows.of_eq (hunits : s.units = r.units)
    (hnext : s.nextUnit = r.nextUnit) : r.Grows s := by
  refine ⟨⟨Nat.le_of_eq hnext.symm, fun id u hu => Or.inl ?_⟩, fun id u hu => ?_⟩
  · rwa [unit?, hunits] at hu
  · rwa [unit?, hunits]

-- ======================================================== what is there

/-- A symbol whose unit was given out. -/
def Known (r : Registry) (s : Symbol) : Prop := s.unit.index < r.nextUnit

/-- Known symbols stay known. -/
theorem Known.evolves {c : Symbol} (hc : r.Known c) (h : r.Evolves s) :
    s.Known c :=
  Nat.lt_of_lt_of_le hc h.next

/-- A symbol that a registered unit declares. -/
def Live (r : Registry) (s : Symbol) : Prop :=
  ∃ u x, r.unit? s.unit = some u ∧ u.decl? s.decl = some x

/-- The declaration behind a symbol is one of the registered unit. -/
theorem declaration_eq_ok_iff {c : Symbol} {u : CompilationUnit}
    {x : Declaration} :
    r.declaration c = .ok (u, x) ↔
      r.unit? c.unit = some u ∧ u.decl? c.decl = some x := by
  unfold declaration
  constructor
  · intro h
    split at h
    · cases h
    · next v hv =>
      split at h
      · cases h
      · next y hy =>
        cases h
        exact ⟨hv, hy⟩
  · rintro ⟨hu, hx⟩
    simp only [hu, hx]

/-- What is declared stays declared as long as no unit goes. -/
theorem Live.grows {c : Symbol} (hc : r.Live c) (h : r.Grows s) :
    s.Live c := by
  obtain ⟨u, x, hu, hx⟩ := hc
  exact ⟨u, x, h.kept _ u hu, hx⟩

/-- The index leads to nothing but classes and aliases that are
declared. -/
def Upright (r : Registry) : Prop :=
  ∀ k c, r.classifiers.find? k = some c → ∃ u x, r.unit? c.unit = some u ∧
    u.decl? c.decl = some x ∧ x.kind.isClassLike = true

/-- A symbol that a registered unit declares: a class or an alias, if the
index leads to nothing else. -/
def LiveClass (r : Registry) (s : Symbol) : Prop :=
  ∃ u x, r.unit? s.unit = some u ∧ u.decl? s.decl = some x ∧
    (r.Upright → x.kind.isClassLike = true)

/-- It is declared. -/
theorem LiveClass.live {c : Symbol} (hc : r.LiveClass c) : r.Live c := by
  obtain ⟨u, x, hu, hx, -⟩ := hc
  exact ⟨u, x, hu, hx⟩

/-- It stays declared as long as no unit goes. -/
theorem LiveClass.grows {c : Symbol} (hc : r.LiveClass c) (h : r.Grows s)
    (hup : s.Upright → r.Upright) : s.LiveClass c := by
  obtain ⟨u, x, hu, hx, hk⟩ := hc
  exact ⟨u, x, h.kept _ u hu, hx, fun hs => hk (hup hs)⟩

/-- A symbol that stands for nothing but what was found: the unit was given
out, and declares it as long as it is registered, as a class or an alias
if the index leads to nothing else. -/
structure Genuine (r : Registry) (s : Symbol) : Prop where
  known : r.Known s
  declared : ∀ u, r.unit? s.unit = some u →
    ∃ x, u.decl? s.decl = some x ∧ (r.Upright → x.kind.isClassLike = true)

/-- Such a symbol stays so, whatever becomes of its unit. -/
theorem Genuine.evolves {c : Symbol} (hc : r.Genuine c)
    (h : r.Evolves s) (hup : s.Upright → r.Upright) : s.Genuine c := by
  refine ⟨hc.known.evolves h, fun u hu => ?_⟩
  rcases h.known _ u hu with hu | hid
  · obtain ⟨x, hx, hk⟩ := hc.declared u hu
    exact ⟨x, hx, fun hs => hk (hup hs)⟩
  · exact absurd hc.known (Nat.not_lt_of_le hid)

/-- It is declared if its unit is still there. -/
theorem Genuine.live {c : Symbol} (hc : r.Genuine c)
    (h : r.unit? c.unit ≠ none) : r.Live c := by
  obtain ⟨u, hu⟩ := Option.ne_none_iff_exists'.mp h
  obtain ⟨x, hx, -⟩ := hc.declared u hu
  exact ⟨u, x, hu, hx⟩

/-- Units stand under their own ids and are trees, ids that were not given
out are nowhere, and the index leads to what is declared. -/
structure Coherent (r : Registry) : Prop where
  named : ∀ id u, r.unit? id = some u → u.id = id
  issued : ∀ id u, r.unit? id = some u → id.index < r.nextUnit
  wellFormed : ∀ id u, r.unit? id = some u → u.WellFormed
  pending : ∀ k source, r.pending.find? k = some source →
    source.draft.WellFormed
  classifiers : ∀ e ∈ r.classifiers.entries, r.Live e.2

/-- What is declared is known. -/
theorem Coherent.known_of_live (hr : r.Coherent) {c : Symbol}
    (hc : r.Live c) : r.Known c := by
  obtain ⟨u, -, hu, -⟩ := hc
  exact hr.issued _ u hu

/-- What is found is nothing else. -/
theorem Coherent.genuine_of_liveClass (hr : r.Coherent) {c : Symbol}
    (hc : r.LiveClass c) : r.Genuine c := by
  refine ⟨hr.known_of_live hc.live, fun v hv => ?_⟩
  obtain ⟨u, x, hu, hx, hk⟩ := hc
  obtain rfl := Option.some.inj (hu.symm.trans hv)
  exact ⟨x, hx, hk⟩

/-- What a coherent registry finds for a key is declared. -/
theorem Coherent.live_of_find? (hr : r.Coherent) {k : NameKey} {c : Symbol}
    (h : r.classifiers.find? k = some c) : r.Live c :=
  hr.classifiers (k, c) (Table.mem_entries_of_find? h)

/-- It is what look-ups may find. -/
theorem Coherent.liveClass_of_find? (hr : r.Coherent) {k : NameKey}
    {c : Symbol} (h : r.classifiers.find? k = some c) : r.LiveClass c := by
  obtain ⟨u, x, hu, hx⟩ := hr.live_of_find? h
  refine ⟨u, x, hu, hx, fun hup => ?_⟩
  obtain ⟨v, y, hv, hy, hk⟩ := hup k c h
  obtain rfl := Option.some.inj (hu.symm.trans hv)
  obtain rfl := Option.some.inj (hx.symm.trans hy)
  exact hk

/-- What a coherent registry finds for a key is known. -/
theorem Coherent.known_of_find? (hr : r.Coherent) {k : NameKey} {c : Symbol}
    (h : r.classifiers.find? k = some c) : r.Known c :=
  hr.known_of_live (hr.live_of_find? h)

/-- The next id is free. -/
theorem Coherent.unit?_next (hr : r.Coherent) :
    r.unit? ⟨r.nextUnit⟩ = none := by
  cases h : r.unit? ⟨r.nextUnit⟩ with
  | none => rfl
  | some u => exact absurd (hr.issued _ u h) (Nat.lt_irrefl _)

/-- A registry without units is coherent. -/
theorem coherent_empty : empty.Coherent := by
  refine ⟨?_, ?_, ?_, ?_, ?_⟩
  · intro id u h
    cases h
  · intro id u h
    cases h
  · intro id u h
    cases h
  · intro k source h
    cases h
  · intro e he
    cases he

-- ========================================================== registering

/-- The classifiers that a unit enters are its own. -/
theorem mem_enterClassifiers {found : List (QualifiedName × Symbol)}
    {index : Table NameKey Symbol} {e : NameKey × Symbol}
    (h : e ∈ (enterClassifiers found index).entries) :
    e ∈ index.entries ∨ ∃ n, (n, e.2) ∈ found := by
  induction found generalizing index with
  | nil => exact Or.inl h
  | cons entry rest ih =>
      obtain ⟨n, c⟩ := entry
      rcases ih h with h | ⟨n', h⟩
      · rcases Table.mem_entries_insert h with rfl | h
        · exact Or.inr ⟨n, List.mem_cons_self ..⟩
        · exact Or.inl h
      · exact Or.inr ⟨n', List.mem_cons_of_mem _ h⟩

/-- The classifiers of a unit belong to it. -/
theorem unit_of_mem_classifiers {u : CompilationUnit} {n : QualifiedName}
    {c : Symbol} (h : (n, c) ∈ u.classifiers) : c.unit = u.id := by
  obtain ⟨x, -, hx⟩ := List.mem_filterMap.mp h
  obtain ⟨n', -, hn'⟩ := Option.map_eq_some_iff.mp hx
  cases hn'
  rfl

/-- The classifiers of a unit are its declarations that have a name. -/
theorem mem_classifiers_iff {u : CompilationUnit} (hu : u.WellFormed)
    {n : QualifiedName} {c : Symbol} : (n, c) ∈ u.classifiers ↔
      c.unit = u.id ∧
        ∃ x, u.decl? c.decl = some x ∧ x.qualifiedName = some n := by
  unfold CompilationUnit.classifiers
  rw [List.mem_filterMap]
  constructor
  · rintro ⟨x, hx, hn⟩
    obtain ⟨i, hi⟩ := List.mem_iff_getElem?.mp hx
    have hid : x.id = ⟨i⟩ := hu.numbered ⟨i⟩ x hi
    obtain ⟨m, hm, heq⟩ := Option.map_eq_some_iff.mp hn
    cases heq
    refine ⟨rfl, x, ?_, hm⟩
    show u.decl? x.id = some x
    rw [hid]
    exact hi
  · rintro ⟨hunit, x, hx, hn⟩
    refine ⟨x, List.mem_of_getElem? hx, ?_⟩
    rw [hn, Option.map_some, hu.numbered _ x hx, CompilationUnit.symbol,
      ← hunit]

/-- A unit may be entered under an id that was given out and is free. -/
theorem Coherent.enter (hr : r.Coherent) {u : CompilationUnit}
    (hu : u.WellFormed) (hid : u.id.index < r.nextUnit)
    (hfree : r.unit? u.id = none) : (r.enter u).Coherent := by
  have hunit : ∀ id v, (r.enter u).unit? id = some v →
      (id = u.id ∧ v = u) ∨ r.unit? id = some v := by
    intro id v h
    rw [unit?, Registry.enter, Table.find?_insert] at h
    split at h
    · next hid =>
      cases h
      exact Or.inl ⟨hid.symm, rfl⟩
    · exact Or.inr h
  constructor
  case named =>
    intro id v h
    rcases hunit id v h with ⟨rfl, rfl⟩ | h
    · rfl
    · exact hr.named id v h
  case issued =>
    intro id v h
    rcases hunit id v h with ⟨rfl, rfl⟩ | h
    · exact hid
    · exact hr.issued id v h
  case wellFormed =>
    intro id v h
    rcases hunit id v h with ⟨rfl, rfl⟩ | h
    · exact hu
    · exact hr.wellFormed id v h
  case pending => exact hr.pending
  case classifiers =>
    have hfind : ∀ id, (r.enter u).unit? id =
        if u.id = id then some u else r.unit? id :=
      fun id => Table.find?_insert ..
    intro e he
    rcases mem_enterClassifiers he with he | ⟨n, hn⟩
    · obtain ⟨v, x, hv, hx⟩ := hr.classifiers e he
      refine ⟨v, x, ?_, hx⟩
      rw [hfind, if_neg]
      · exact hv
      · intro heq
        rw [← heq, hfree] at hv
        cases hv
    · obtain ⟨hunit, x, hx, -⟩ := (mem_classifiers_iff hu).mp hn
      exact ⟨u, x, by rw [hfind, if_pos hunit.symm], hx⟩

/-- Coherence does not depend on paths, packages and promises. -/
theorem Coherent.of_eq (hr : r.Coherent) (hnext : s.nextUnit = r.nextUnit)
    (hunits : s.units = r.units) (hindex : s.classifiers = r.classifiers)
    (hpending : ∀ k source, s.pending.find? k = some source →
      source.draft.WellFormed) : s.Coherent := by
  constructor
  · intro id u h
    rw [unit?, hunits] at h
    exact hr.named id u h
  · intro id u h
    rw [unit?, hunits] at h
    rw [hnext]
    exact hr.issued id u h
  · intro id u h
    rw [unit?, hunits] at h
    exact hr.wellFormed id u h
  · exact hpending
  · intro e he
    rw [hindex] at he
    exact (hr.classifiers e he).grows (.of_eq hunits hnext)

/-- A registry may skip an id. -/
theorem Coherent.skip (hr : r.Coherent) :
    ({ r with nextUnit := r.nextUnit + 1 } : Registry).Coherent := by
  refine ⟨hr.named, fun id u h => ?_, hr.wellFormed, hr.pending,
    hr.classifiers⟩
  exact Nat.lt_succ_of_lt (hr.issued id u h)

/-- Building a unit keeps a registry coherent and takes nothing away. -/
theorem Coherent.addUnit (hr : r.Coherent) {draft : Draft}
    (hd : draft.WellFormed) :
    (r.addUnit draft).2.Coherent ∧ r.Grows (r.addUnit draft).2 := by
  have hskip : r.Grows { r with nextUnit := r.nextUnit + 1 } :=
    ⟨⟨Nat.le_succ _, fun _ _ => Or.inl⟩, fun _ _ => id⟩
  unfold Registry.addUnit
  dsimp only
  split
  · exact ⟨hr.skip, hskip⟩
  · split
    · exact ⟨hr.skip, hskip⟩
    · have hent := hr.skip.enter (u := draft.finish ⟨r.nextUnit⟩) (hd _)
        (Nat.lt_succ_self _) hr.unit?_next
      constructor
      · exact hent.of_eq rfl rfl rfl hr.pending
      · refine ⟨⟨Nat.le_succ _, fun id u h => ?_⟩, fun id u h => ?_⟩
        · rw [unit?, registerPackage, Registry.enter, Table.find?_insert] at h
          split at h
          · next hid =>
            right
            rw [← hid]
            exact Nat.le_refl _
          · exact Or.inl h
        · have hne : (draft.finish ⟨r.nextUnit⟩).id ≠ id := by
            rintro rfl
            exact Nat.lt_irrefl _ (hr.issued _ u h)
          rw [unit?, registerPackage, Registry.enter, Table.find?_insert,
            if_neg hne]
          exact h

/-- Replacing a unit keeps a registry coherent, and no unit comes
back. -/
theorem Coherent.replaceUnit (hr : r.Coherent) {old : UnitId} {draft : Draft}
    (hd : draft.WellFormed) :
    (r.replaceUnit old draft).2.Coherent ∧
      r.Evolves (r.replaceUnit old draft).2 := by
  unfold Registry.replaceUnit
  split
  · exact ⟨hr, (Grows.refl r).toEvolves⟩
  · next previous hprevious =>
    have hid := hr.named old previous hprevious
    have hfind : ∀ id, (r.remove previous).unit? id =
        if previous.id = id then none else r.unit? id := fun id =>
      Table.find?_erase r.units previous.id id
    have hback : ∀ id u, (r.remove previous).unit? id = some u →
        r.unit? id = some u := by
      intro id u h
      rw [hfind] at h
      split at h
      · cases h
      · exact h
    have hremove : (r.remove previous).Coherent := by
      refine ⟨fun id u h => hr.named id u (hback id u h),
        fun id u h => hr.issued id u (hback id u h),
        fun id u h => hr.wellFormed id u (hback id u h), hr.pending,
        fun e he => ?_⟩
      obtain ⟨he, hne⟩ := List.mem_filter.mp he
      obtain ⟨u, x, hu, hx⟩ := hr.classifiers e he
      refine ⟨u, x, ?_, hx⟩
      rw [hfind, if_neg (Ne.symm (of_decide_eq_true hne))]
      exact hu
    have hevolves : r.Evolves (r.remove previous) :=
      ⟨Nat.le_refl _, fun id u h => Or.inl (hback id u h)⟩
    obtain ⟨hadd, hgrows⟩ := hremove.addUnit hd
    have hnext : previous.id.index < r.nextUnit := by
      rw [hid]
      exact hr.issued old previous hprevious
    split
    · next u t ht =>
      rw [ht] at hadd hgrows
      exact ⟨hadd, hevolves.trans hgrows.toEvolves⟩
    · next e t ht =>
      rw [ht] at hadd hgrows
      have hfree : t.unit? previous.id = none := by
        cases hu : t.unit? previous.id with
        | none => rfl
        | some u =>
            rcases hgrows.known _ u hu with h | h
            · rw [hfind, if_pos rfl] at h
              cases h
            · exact absurd hnext (Nat.not_lt_of_le h)
      refine ⟨hadd.enter (hr.wellFormed old previous hprevious)
        (Nat.lt_of_lt_of_le hnext hgrows.next) hfree, hgrows.next, ?_⟩
      intro id u h
      rw [unit?, Registry.enter, Table.find?_insert] at h
      split at h
      · next heq =>
        cases h
        left
        rw [← heq, hid]
        exact hprevious
      · exact (hevolves.trans hgrows.toEvolves).known id u h

-- ======================================================= announcing

/-- Promises leave the units and the index alone. -/
theorem promise_eq (key : Nat) (names : List QualifiedName) (r : Registry) :
    ∃ packages index, promise key names r =
      { r with packages := packages, pendingIndex := index } := by
  induction names generalizing r with
  | nil => exact ⟨r.packages, r.pendingIndex, rfl⟩
  | cons n rest ih =>
      obtain ⟨packages, index, h⟩ := ih
        { r.registerPackage n.package with
          pendingIndex := r.pendingIndex.insert n.key key }
      exact ⟨packages, index, h⟩

/-- Announcing a unit gives out a number and puts the source under it, and
leaves the units and the index alone. -/
theorem addSource_eq (r : Registry) (path : String)
    (declares : List QualifiedName) (draft : Draft) :
    ∃ packages index, r.addSource path declares draft =
      { r with packages := packages, pendingIndex := index,
               nextSource := r.nextSource + 1,
               pending := r.pending.insert r.nextSource ⟨path, draft⟩ } := by
  obtain ⟨packages, index, h⟩ := promise_eq r.nextSource declares
    { r with nextSource := r.nextSource + 1 }
  unfold Registry.addSource
  dsimp only
  rw [h]
  exact ⟨packages, index, rfl⟩

/-- Announcing a unit keeps a registry coherent and takes nothing
away. -/
theorem Coherent.addSource (hr : r.Coherent) {path : String}
    {declares : List QualifiedName} {draft : Draft} (hd : draft.WellFormed) :
    (r.addSource path declares draft).Coherent ∧
      r.Grows (r.addSource path declares draft) := by
  obtain ⟨packages, index, h⟩ := r.addSource_eq path declares draft
  rw [h]
  refine ⟨hr.of_eq rfl rfl rfl fun k source hk => ?_, .of_eq rfl rfl⟩
  rw [Table.find?_insert] at hk
  split at hk
  · cases hk
    exact hd
  · exact hr.pending k source hk

/-- Looking a classifier up keeps a registry coherent and takes nothing
away, and what is found is declared, as a class if the index is upright. -/
theorem Coherent.classifier (hr : r.Coherent) (k : NameKey) :
    (r.classifier k).registry.Coherent ∧ r.Grows (r.classifier k).registry ∧
      ∀ c, (r.classifier k).answer = some c →
        (r.classifier k).registry.LiveClass c := by
  unfold Registry.classifier
  split
  · next c hc =>
    refine ⟨hr, .refl r, fun c' hc' => ?_⟩
    cases hc'
    exact hr.liveClass_of_find? hc
  · unfold materialize
    split
    · exact ⟨hr, .refl r, fun c hc => by cases hc⟩
    · next key _ =>
      dsimp only
      split
      · exact ⟨hr.of_eq rfl rfl rfl hr.pending, .of_eq rfl rfl,
          fun c hc => by cases hc⟩
      · next source hsource =>
        have hdrop : ∀ k' source', (r.pending.erase key).find? k' =
            some source' → source'.draft.WellFormed := by
          intro k' source' h
          rw [Table.find?_erase] at h
          split at h
          · cases h
          · exact hr.pending k' source' h
        have hbase := hr.of_eq (s := { r with
          pendingIndex := r.pendingIndex.filter fun _ key' => key' ≠ key
          pending := r.pending.erase key }) rfl rfl rfl hdrop
        obtain ⟨hadd, hgrows⟩ := hbase.addUnit (hr.pending key source hsource)
        have hgrows' := (Grows.of_eq (r := r) (s := { r with
          pendingIndex := r.pendingIndex.filter fun _ key' => key' ≠ key
          pending := r.pending.erase key }) rfl rfl).trans hgrows
        split
        · next e t ht =>
          rw [ht] at hadd hgrows'
          exact ⟨hadd, hgrows', fun c hc => by cases hc⟩
        · next u t ht =>
          rw [ht] at hadd hgrows'
          exact ⟨hadd, hgrows', fun c hc => hadd.liveClass_of_find? hc⟩

end Registry

end StagedResolve
