/-
Catalogs: what can be looked up in a registry, and what is found.

# What an operation comes to

Registering, replacing and looking up are made of few steps: an id is
spent (`Registry.skip`), a unit is accepted (`Registry.accept`) or taken
out, a source is withdrawn (`Registry.withdraw`). Which of them an
operation comes to is told once (`addUnit_cases`, `replaceUnit_cases`,
`classifier_cases`); what the steps keep, the operations keep, and
so does whatever callers make of a registry with them (`Registry.Alters`).

# The catalog

What the index leads to was put there by the unit it belongs to, so it
is a declaration with a name, and those are classes and aliases
(`Registry.Catalog`). So the index of a registry that was built by these
operations is upright (`Catalog.upright`).
-/
import StagedResolve.Builtins
import StagedResolve.Proofs.Registries
import StagedResolve.Proofs.Titles

namespace StagedResolve

namespace Registry

-- =============================================== what an operation comes to

/-- Nothing clashes exactly if no key is taken. -/
theorem clash?_eq_none_iff {r : Registry}
    {found : List (QualifiedName × Symbol)} :
    r.clash? found = none ↔
      ∀ e ∈ found, r.classifiers.find? e.1.key = none := by
  induction found with
  | nil => simp [clash?]
  | cons entry rest ih =>
      obtain ⟨n, s⟩ := entry
      cases hn : r.classifiers.find? n.key with
      | some c => simp [clash?, hn]
      | none => simp [clash?, hn, ih]

/-- The registry with one more id spent. -/
def skip (r : Registry) : Registry := { r with nextUnit := r.nextUnit + 1 }

/-- The registry once a unit with its next id was accepted. -/
def accept (r : Registry) (u : CompilationUnit) : Registry :=
  { (r.skip.enter u).registerPackage u.package with
    pendingIndex := dropPromises u.classifiers r.pendingIndex }

/-- The registry without a source and its promises. -/
def withdraw (r : Registry) (key : Nat) : Registry :=
  { r with
    pendingIndex := r.pendingIndex.filter fun _ key' => key' ≠ key
    pending := r.pending.erase key }

/-- A unit may be entered: its path is free, and so are its keys. -/
structure Admits (r : Registry) (u : CompilationUnit) : Prop where
  path : r.paths.find? u.path = none
  keys : ∀ e ∈ u.classifiers, r.classifiers.find? e.1.key = none

/-- Building a unit costs an id, and the unit is accepted if the registry
admits it. -/
theorem addUnit_cases (r : Registry) (draft : Draft) :
    (r.Admits (draft.finish ⟨r.nextUnit⟩) ∧
      r.addUnit draft = (.ok (draft.finish ⟨r.nextUnit⟩),
        r.accept (draft.finish ⟨r.nextUnit⟩))) ∨
    (¬ r.Admits (draft.finish ⟨r.nextUnit⟩) ∧
      ∃ e, r.addUnit draft = (.error e, r.skip)) := by
  unfold addUnit
  dsimp only
  split
  · next hpath =>
    refine Or.inr ⟨fun h => ?_, _, rfl⟩
    rw [Table.contains, h.path] at hpath
    cases hpath
  · next hpath =>
    have hpath : r.paths.find? (draft.finish ⟨r.nextUnit⟩).path = none := by
      simpa [Table.contains] using hpath
    split
    · next e he =>
      refine Or.inr ⟨fun h => ?_, _, rfl⟩
      have hnone := clash?_eq_none_iff (r := r.skip) |>.mpr h.keys
      rw [skip, he] at hnone
      cases hnone
    · next he =>
      exact Or.inl ⟨⟨hpath, clash?_eq_none_iff (r := r.skip).mp he⟩, rfl⟩

/-- A replacement is refused without more ado, accepted, or refused and
taken back. -/
theorem replaceUnit_cases (r : Registry) (old : UnitId) (draft : Draft) :
    (r.unit? old = none ∧
      r.replaceUnit old draft = (.error (.unknownUnit old), r)) ∨
    (∃ previous u, r.unit? old = some previous ∧
      u = draft.finish ⟨r.nextUnit⟩ ∧
      (((r.remove previous).Admits u ∧ r.replaceUnit old draft =
          (.ok u, (r.remove previous).accept u)) ∨
        (¬ (r.remove previous).Admits u ∧ ∃ e, r.replaceUnit old draft =
          (.error e, (r.remove previous).skip.enter previous)))) := by
  unfold replaceUnit
  cases hold : r.unit? old with
  | none => exact Or.inl ⟨rfl, rfl⟩
  | some previous =>
      refine Or.inr ⟨previous, _, rfl, rfl, ?_⟩
      rcases (r.remove previous).addUnit_cases draft with
        ⟨hadmits, h⟩ | ⟨hadmits, e, h⟩
      · exact Or.inl ⟨hadmits, by simp only [h]; rfl⟩
      · exact Or.inr ⟨hadmits, e, by simp only [h]⟩

/-- What an operation of a caller makes of a registry. -/
inductive Alters (r : Registry) : Registry → Prop where
  | same : Alters r r
  | addUnit (spec : UnitSpec) (d : Draft) (h : spec.draft = .ok d) :
      Alters r (r.addUnit d).2
  | replaceUnit (old : UnitId) (spec : UnitSpec) (d : Draft)
      (h : spec.draft = .ok d) : Alters r (r.replaceUnit old d).2
  | addSource (path : String) (declares : List QualifiedName)
      (spec : UnitSpec) (d : Draft) (h : spec.draft = .ok d) :
      Alters r (r.addSource path declares d)
  | lookUp (k : NameKey) : Alters r (r.classifier k).registry

/-- A registry that a history begins with is made of the empty one. -/
theorem alters_start {r : Registry} (h : r = .empty ∨ r = .withBuiltins) :
    empty.Alters r := by
  rcases h with rfl | rfl
  · exact .same
  · unfold withBuiltins
    split
    · next d hd => exact .addUnit _ d hd
    · exact .same

/-- Every operation keeps a registry coherent, and brings no unit back. -/
theorem Coherent.alters {r s : Registry} (hr : r.Coherent) (h : r.Alters s) :
    s.Coherent ∧ r.Evolves s := by
  cases h with
  | same => exact ⟨hr, (Grows.refl r).toEvolves⟩
  | addUnit spec d hd =>
      exact (hr.addUnit (UnitSpec.draft_wellFormed hd)).imp_right
        Grows.toEvolves
  | replaceUnit old spec d hd =>
      exact hr.replaceUnit (UnitSpec.draft_wellFormed hd)
  | addSource path declares spec d hd =>
      exact (hr.addSource (UnitSpec.draft_wellFormed hd)).imp_right
        Grows.toEvolves
  | lookUp k =>
      obtain ⟨hs, hgrows, -⟩ := hr.classifier k
      exact ⟨hs, hgrows.toEvolves⟩

section lookingUp

variable {r : Registry} {k : NameKey}

/-- A classifier that is declared is found. -/
theorem classifier_of_declared {c : Symbol}
    (hc : r.classifiers.find? k = some c) :
    r.classifier k = ⟨some c, r, none⟩ := by
  unfold Registry.classifier
  rw [hc]

/-- One that is neither declared nor promised is not. -/
theorem classifier_of_unpromised (hc : r.classifiers.find? k = none)
    (hkey : r.pendingIndex.find? k = none) :
    r.classifier k = ⟨none, r, none⟩ := by
  unfold Registry.classifier materialize
  rw [hc, hkey]

/-- A promise that no source stands behind is dropped. -/
theorem classifier_of_sourceless (hc : r.classifiers.find? k = none)
    {key : Nat} (hkey : r.pendingIndex.find? k = some key)
    (hsource : r.pending.find? key = none) :
    r.classifier k = ⟨none, { r with
      pendingIndex := r.pendingIndex.filter fun _ key' => key' ≠ key },
      none⟩ := by
  unfold Registry.classifier materialize
  simp only [hc, hkey, hsource]

/-- A source that promises the classifier is withdrawn and built, and then
the classifier is looked for again if the unit was accepted. -/
theorem classifier_of_promised (hc : r.classifiers.find? k = none)
    {key : Nat} {source : PendingSource}
    (hkey : r.pendingIndex.find? k = some key)
    (hsource : r.pending.find? key = some source) :
    (r.classifier k).registry = ((r.withdraw key).addUnit source.draft).2 ∧
      (r.classifier k).answer =
        ((r.withdraw key).addUnit source.draft).1.toOption.bind fun _ =>
          ((r.withdraw key).addUnit source.draft).2.classifiers.find? k := by
  unfold Registry.classifier materialize
  simp only [hc, hkey, hsource]
  cases hadd : (r.withdraw key).addUnit source.draft with
  | mk answer s =>
      unfold withdraw at hadd
      simp only [hadd]
      cases answer <;> exact ⟨rfl, rfl⟩

/-- A look-up leaves the registry alone, drops promises that no source
stands behind, or withdraws a source and builds it. -/
theorem classifier_cases (r : Registry) (k : NameKey) :
    (r.classifier k).registry = r ∨
    (∃ key, (r.classifier k).registry = { r with
      pendingIndex := r.pendingIndex.filter fun _ key' => key' ≠ key }) ∨
    ∃ key source, r.pending.find? key = some source ∧
      (r.classifier k).registry = ((r.withdraw key).addUnit source.draft).2 := by
  cases hk : r.classifiers.find? k with
  | some c => exact Or.inl (by rw [classifier_of_declared hk])
  | none =>
      cases hkey : r.pendingIndex.find? k with
      | none => exact Or.inl (by rw [classifier_of_unpromised hk hkey])
      | some key =>
          refine Or.inr ?_
          cases hsource : r.pending.find? key with
          | none =>
              exact Or.inl ⟨key, by
                rw [classifier_of_sourceless hk hkey hsource]⟩
          | some source =>
              exact Or.inr ⟨key, source, hsource,
                (classifier_of_promised hk hkey hsource).1⟩

end lookingUp

variable {P : CompilationUnit → Prop} {r : Registry}

/-- What is registered once a unit was entered. -/
theorem unit?_enter (r : Registry) (u : CompilationUnit) (id : UnitId) :
    (r.enter u).unit? id = if u.id = id then some u else r.unit? id :=
  Table.find?_insert ..

/-- What is registered once a unit was taken out. -/
theorem unit?_remove (r : Registry) (u : CompilationUnit) (id : UnitId) :
    (r.remove u).unit? id = if u.id = id then none else r.unit? id :=
  Table.find?_erase ..

/-- A unit that was taken out and put back is where it was. -/
theorem Coherent.unit?_restored (hr : r.Coherent) {old : UnitId}
    {previous : CompilationUnit} (h : r.unit? old = some previous)
    (id : UnitId) :
    ((r.remove previous).skip.enter previous).unit? id = r.unit? id := by
  have henter : ((r.remove previous).skip.enter previous).unit? id =
      if previous.id = id then some previous
      else (r.remove previous).unit? id := unit?_enter ..
  rw [henter, unit?_remove]
  split
  · next hid => rw [← hid, hr.named old previous h, h]
  · rfl

/-- Something holds of every unit that is registered or can still be
built. -/
structure AllUnits (P : CompilationUnit → Prop) (r : Registry) : Prop where
  units : ∀ id u, r.unit? id = some u → P u
  pending : ∀ k source, r.pending.find? k = some source →
    ∀ id, P (source.draft.finish id)

/-- Such a unit may be entered. -/
theorem AllUnits.enter (h : r.AllUnits P) {u : CompilationUnit} (hu : P u) :
    (r.enter u).AllUnits P := by
  refine ⟨fun id v hv => ?_, h.pending⟩
  rw [unit?_enter] at hv
  split at hv
  · cases hv
    exact hu
  · exact h.units id v hv

/-- And any may be taken out. -/
theorem AllUnits.remove (h : r.AllUnits P) (u : CompilationUnit) :
    (r.remove u).AllUnits P := by
  refine ⟨fun id v hv => ?_, h.pending⟩
  rw [unit?_remove] at hv
  split at hv
  · cases hv
  · exact h.units id v hv

/-- An id may be spent. -/
theorem AllUnits.skip (h : r.AllUnits P) : r.skip.AllUnits P :=
  ⟨h.units, h.pending⟩

/-- Such a unit may be accepted. -/
theorem AllUnits.accept (h : r.AllUnits P) {u : CompilationUnit} (hu : P u) :
    (r.accept u).AllUnits P :=
  ⟨(h.skip.enter hu).units, (h.skip.enter hu).pending⟩

/-- Such a unit may be built. -/
theorem AllUnits.addUnit (h : r.AllUnits P) {draft : Draft}
    (hd : ∀ id, P (draft.finish id)) : (r.addUnit draft).2.AllUnits P := by
  rcases r.addUnit_cases draft with ⟨-, hrun⟩ | ⟨-, e, hrun⟩
  · rw [hrun]
    exact h.accept (hd _)
  · rw [hrun]
    exact h.skip

/-- Such a unit may be built in place of another one. -/
theorem AllUnits.replaceUnit (h : r.AllUnits P) (old : UnitId) {draft : Draft}
    (hd : ∀ id, P (draft.finish id)) :
    (r.replaceUnit old draft).2.AllUnits P := by
  rcases r.replaceUnit_cases old draft with ⟨-, hrun⟩ |
    ⟨previous, u, hprevious, rfl, ⟨-, hrun⟩ | ⟨-, e, hrun⟩⟩
  · rw [hrun]
    exact h
  · rw [hrun]
    exact (h.remove previous).accept (hd _)
  · rw [hrun]
    exact (h.remove previous).skip.enter (h.units old previous hprevious)

/-- Such a unit may be announced. -/
theorem AllUnits.addSource (h : r.AllUnits P) (path : String)
    (declares : List QualifiedName) {draft : Draft}
    (hd : ∀ id, P (draft.finish id)) :
    (r.addSource path declares draft).AllUnits P := by
  obtain ⟨packages, index, heq⟩ := r.addSource_eq path declares draft
  rw [heq]
  refine ⟨h.units, fun k source hk => ?_⟩
  rw [Table.find?_insert] at hk
  split at hk
  · cases hk
    exact hd
  · exact h.pending k source hk

/-- A source may be withdrawn. -/
theorem AllUnits.withdraw (h : r.AllUnits P) (key : Nat) :
    (r.withdraw key).AllUnits P := by
  refine ⟨h.units, fun k source hk => ?_⟩
  have hfind : (r.pending.erase key).find? k = some source := hk
  rw [Table.find?_erase] at hfind
  split at hfind
  · cases hfind
  · exact h.pending k source hfind

/-- Looking a classifier up builds such units only. -/
theorem AllUnits.classifier (h : r.AllUnits P) (k : NameKey) :
    (r.classifier k).registry.AllUnits P := by
  rcases r.classifier_cases k with hs | ⟨key, hs⟩ | ⟨key, source, hsource, hs⟩
  · rw [hs]
    exact h
  · rw [hs]
    exact ⟨h.units, h.pending⟩
  · rw [hs]
    exact (h.withdraw key).addUnit (h.pending key source hsource)

/-- Every operation builds described units only. -/
theorem AllUnits.alters {s : Registry} (h : r.AllUnits P)
    (hdraft : ∀ spec d id, UnitSpec.draft spec = .ok d → P (d.finish id))
    (hs : r.Alters s) : s.AllUnits P := by
  cases hs with
  | same => exact h
  | addUnit spec d hd => exact h.addUnit fun id => hdraft spec d id hd
  | replaceUnit old spec d hd =>
      exact h.replaceUnit old fun id => hdraft spec d id hd
  | addSource path declares spec d hd =>
      exact h.addSource path declares fun id => hdraft spec d id hd
  | lookUp k => exact h.classifier k

-- ======================================================== upright indexes

/-- Entering classifiers where nothing clashes leaves what was there. -/
theorem find?_enterClassifiers_of_ne {found : List (QualifiedName × Symbol)}
    {index : Table NameKey Symbol} {k : NameKey} {c : Symbol}
    (hfound : ∀ e ∈ found, e.1.key ≠ k) (hc : index.find? k = some c) :
    (enterClassifiers found index).find? k = some c := by
  induction found generalizing index with
  | nil => exact hc
  | cons entry rest ih =>
      refine ih (fun e he => hfound e (List.mem_cons_of_mem _ he)) ?_
      rw [Table.find?_insert_of_ne _ _ (hfound entry (List.mem_cons_self ..))]
      exact hc

/-- A source may be withdrawn. -/
theorem Coherent.withdraw (hr : r.Coherent) (key : Nat) :
    (r.withdraw key).Coherent := by
  refine hr.of_eq rfl rfl rfl fun k source hk => ?_
  have hfind : (r.pending.erase key).find? k = some source := hk
  rw [Table.find?_erase] at hfind
  split at hfind
  · cases hfind
  · exact hr.pending k source hfind

/-- Accepting a unit under the next id does not put an index in order. -/
theorem Coherent.upright_of_accept (hr : r.Coherent) {u : CompilationUnit}
    (hid : u.id = ⟨r.nextUnit⟩) (hadmits : r.Admits u)
    (h : (r.accept u).Upright) : r.Upright := by
  intro k c hc
  obtain ⟨v, x, hv, hx⟩ := hr.live_of_find? hc
  have hne : u.id ≠ c.unit := by
    intro heq
    rw [← heq, hid, hr.unit?_next] at hv
    cases hv
  have hfree : ∀ e ∈ u.classifiers, e.1.key ≠ k := by
    rintro e he rfl
    rw [hadmits.keys e he] at hc
    cases hc
  obtain ⟨w, y, hw, hy⟩ := h k c (find?_enterClassifiers_of_ne hfree hc)
  have hw : (r.enter u).unit? c.unit = some w := hw
  rw [unit?_enter, if_neg hne] at hw
  exact ⟨w, y, hw, hy⟩

/-- Nor does building one. -/
theorem Coherent.upright_of_addUnit (hr : r.Coherent) {draft : Draft}
    (h : (r.addUnit draft).2.Upright) : r.Upright := by
  rcases r.addUnit_cases draft with ⟨hadmits, hrun⟩ | ⟨-, e, hrun⟩
  · rw [hrun] at h
    exact hr.upright_of_accept rfl hadmits h
  · rw [hrun] at h
    exact h

/-- Nor does looking a classifier up. -/
theorem Coherent.upright_of_classifier (hr : r.Coherent) (k : NameKey)
    (h : (r.classifier k).registry.Upright) : r.Upright := by
  rcases r.classifier_cases k with hs | ⟨key, hs⟩ | ⟨key, source, -, hs⟩
  · rw [hs] at h
    exact h
  · rw [hs] at h
    exact h
  · rw [hs] at h
    exact (hr.withdraw key).upright_of_addUnit h

-- ============================================================== the catalog

/-- The index leads to what registered units put there, and units put only
classes and aliases there. -/
structure Catalog (r : Registry) : Prop
    extends r.AllUnits CompilationUnit.Titled where
  entries : ∀ e ∈ r.classifiers.entries, ∃ u n,
    r.unit? e.2.unit = some u ∧ (n, e.2) ∈ u.classifiers

/-- A registry without units has an empty catalog. -/
theorem catalog_empty : empty.Catalog :=
  { units := fun _ _ h => nomatch h
    pending := fun _ _ h => nomatch h
    entries := fun _ h => nomatch h }

/-- It leads to classes and aliases only. -/
theorem Catalog.upright (h : r.Catalog) (hr : r.Coherent) : r.Upright := by
  intro k c hc
  obtain ⟨u, n, hu, hn⟩ := h.entries (k, c) (Table.mem_entries_of_find? hc)
  obtain ⟨-, x, hx, hname⟩ := (mem_classifiers_iff (hr.wellFormed _ u hu)).mp hn
  exact ⟨u, x, hu, hx, h.units _ u hu c.decl x n hx hname⟩

/-- A unit may be entered under a free id. -/
theorem Catalog.enter (h : r.Catalog) {u : CompilationUnit} (hu : u.Titled)
    (hfree : r.unit? u.id = none) : (r.enter u).Catalog := by
  refine { h.toAllUnits.enter hu with entries := fun e he => ?_ }
  rcases mem_enterClassifiers he with he | ⟨n, hn⟩
  · obtain ⟨v, n, hv, hn⟩ := h.entries e he
    refine ⟨v, n, ?_, hn⟩
    rw [unit?_enter, if_neg]
    · exact hv
    · intro heq
      rw [← heq, hfree] at hv
      cases hv
  · refine ⟨u, n, ?_, hn⟩
    rw [unit?_enter, if_pos (unit_of_mem_classifiers hn).symm]

/-- A unit may be taken out. -/
theorem Catalog.remove (h : r.Catalog) (u : CompilationUnit) :
    (r.remove u).Catalog := by
  refine { h.toAllUnits.remove u with entries := fun e he => ?_ }
  obtain ⟨he, hne⟩ := List.mem_filter.mp he
  obtain ⟨v, n, hv, hn⟩ := h.entries e he
  refine ⟨v, n, ?_, hn⟩
  rw [unit?_remove, if_neg (Ne.symm (of_decide_eq_true hne))]
  exact hv

/-- An id may be spent. -/
theorem Catalog.skip (h : r.Catalog) : r.skip.Catalog :=
  { h.toAllUnits.skip with entries := h.entries }

/-- A unit may be accepted under a free id. -/
theorem Catalog.accept (h : r.Catalog) {u : CompilationUnit} (hu : u.Titled)
    (hfree : r.unit? u.id = none) : (r.accept u).Catalog :=
  { h.toAllUnits.accept hu with entries := (h.skip.enter hu hfree).entries }

/-- A unit may be built. -/
theorem Catalog.addUnit (h : r.Catalog) {draft : Draft}
    (hd : ∀ id, (draft.finish id).Titled)
    (hfree : r.unit? ⟨r.nextUnit⟩ = none) : (r.addUnit draft).2.Catalog := by
  rcases r.addUnit_cases draft with ⟨-, hrun⟩ | ⟨-, e, hrun⟩
  · rw [hrun]
    exact h.accept (hd _) hfree
  · rw [hrun]
    exact h.skip

/-- A unit may be built in place of another one. -/
theorem Catalog.replaceUnit (h : r.Catalog) (hr : r.Coherent) (old : UnitId)
    {draft : Draft} (hd : ∀ id, (draft.finish id).Titled) :
    (r.replaceUnit old draft).2.Catalog := by
  rcases r.replaceUnit_cases old draft with ⟨-, hrun⟩ |
    ⟨previous, u, hprevious, rfl, ⟨-, hrun⟩ | ⟨-, e, hrun⟩⟩
  · rw [hrun]
    exact h
  · rw [hrun]
    refine (h.remove previous).accept (hd _) ?_
    show (r.remove previous).unit? ⟨r.nextUnit⟩ = none
    rw [unit?_remove, hr.unit?_next, ite_self]
  · rw [hrun]
    refine (h.remove previous).skip.enter (h.units old previous hprevious) ?_
    show (r.remove previous).unit? previous.id = none
    rw [unit?_remove, if_pos rfl]

/-- A unit may be announced. -/
theorem Catalog.addSource (h : r.Catalog) (path : String)
    (declares : List QualifiedName) {draft : Draft}
    (hd : ∀ id, (draft.finish id).Titled) :
    (r.addSource path declares draft).Catalog := by
  refine { h.toAllUnits.addSource path declares hd with entries := ?_ }
  obtain ⟨packages, index, heq⟩ := r.addSource_eq path declares draft
  rw [heq]
  exact h.entries

/-- Looking a classifier up keeps the catalog. -/
theorem Catalog.classifier (h : r.Catalog) (hr : r.Coherent) (k : NameKey) :
    (r.classifier k).registry.Catalog := by
  rcases r.classifier_cases k with hs | ⟨key, hs⟩ | ⟨key, source, hsource, hs⟩
  · rw [hs]
    exact h
  · rw [hs]
    exact { units := h.units, pending := h.pending, entries := h.entries }
  · rw [hs]
    have hwithdrawn : (r.withdraw key).Catalog :=
      { h.toAllUnits.withdraw key with entries := h.entries }
    exact hwithdrawn.addUnit (h.pending key source hsource) hr.unit?_next

/-- Every operation keeps the catalog. -/
theorem Catalog.alters {s : Registry} (h : r.Catalog) (hr : r.Coherent)
    (hs : r.Alters s) : s.Catalog := by
  cases hs with
  | same => exact h
  | addUnit spec d hd => exact h.addUnit (UnitSpec.titled hd) hr.unit?_next
  | replaceUnit old spec d hd =>
      exact h.replaceUnit hr old (UnitSpec.titled hd)
  | addSource path declares spec d hd =>
      exact h.addSource path declares (UnitSpec.titled hd)
  | lookUp k => exact h.classifier hr k

end Registry

end StagedResolve
