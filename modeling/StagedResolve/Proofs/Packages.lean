/-
Packages: what a registry takes for a package.

# Nothing is forgotten

A unit enters its package with every package that encloses it, and so does
a source for each of the names it announces. Taking a unit out takes its
path and its classifiers out and leaves its packages, and building a source
withdraws its promises and leaves the packages it announced. So the list
says which packages a history has ever seen (`hasPackage_iff`), and not
which ones a registered unit or a source to be built is in
(`not_hasPackage_exact`).

# The argument

`Registry.Lists` compares the list with the packages of the registered
units and a fixed collection of others. A look-up that builds a unit enters
just the packages of the unit, so the collection stays as it is, and so it
does in a request, which looks up and does not register. Announcing adds
the announced packages to the collection, and replacing adds those of the
units that were registered before. What a history adds altogether is
`World.packagesSeen`.

The packages that enclose another one are those whose name stands before a
dot of it (`mem_enclosingPackages`), which is a fact about texts alone. The
list holds keys and not names; what is asked for is told apart from the
names that were seen if no one of them has its key.
-/
import StagedResolve.Proofs.Indexes

namespace StagedResolve

-- ========================================================= dotted names

/-- A package is another one or encloses it. -/
def Encloses (p q : String) : Prop := p = q ∨ p.toList ++ ['.'] <+: q.toList

instance (p q : String) : Decidable (Encloses p q) :=
  inferInstanceAs (Decidable (p = q ∨ p.toList ++ ['.'] <+: q.toList))

/-- What stands before a dot of a text is a beginning that a dot follows. -/
theorem mem_dottedPrefixes {x cs : List Char} :
    x ∈ dottedPrefixes cs ↔ x ++ ['.'] <+: cs := by
  induction cs generalizing x with
  | nil => simp [dottedPrefixes]
  | cons c rest ih =>
      rw [dottedPrefixes, List.mem_append, List.mem_map]
      cases x with
      | nil =>
          -- the beginning is empty, so the dot is the first character
          rw [List.nil_append, List.cons_prefix_cons]
          split
          · next hc => simp [hc]
          · next hc => simp [Ne.symm hc]
      | cons a x =>
          rw [List.cons_append, List.cons_prefix_cons, ← ih]
          split <;> simp [and_comm, eq_comm]

/-- The packages that are entered for a package are the enclosing ones. -/
theorem mem_enclosingPackages {p q : String} :
    p ∈ enclosingPackages q ↔ Encloses p q := by
  rw [enclosingPackages, List.mem_cons, Encloses, ← mem_dottedPrefixes,
    List.mem_map]
  refine or_congr_right ⟨?_, fun h => ⟨p.toList, h, String.ofList_toList⟩⟩
  rintro ⟨cs, hcs, rfl⟩
  rwa [String.toList_ofList]

namespace Registry

-- ===================================================== entering packages

variable {r s : Registry} {u : CompilationUnit} {k : NameKey} {p q : String}

/-- The key is that of the package or of one that encloses it. -/
def Marks (k : NameKey) (q : String) : Prop :=
  ∃ e, Encloses e q ∧ NameKey.package e = k

/-- Entering packages enters their keys. -/
theorem mem_enterPackages {names : List String} {keys : List NameKey} :
    k ∈ enterPackages names keys ↔
      k ∈ keys ∨ ∃ e ∈ names, NameKey.package e = k := by
  induction names generalizing keys with
  | nil => simp [enterPackages]
  | cons n rest ih =>
      rw [enterPackages, ih]
      by_cases hn : keys.contains (NameKey.package n) = true
      · rw [if_pos hn]
        have hmem : NameKey.package n ∈ keys := List.contains_iff_mem.mp hn
        constructor
        · exact Or.imp_right fun ⟨e, he, hk⟩ => ⟨e, List.mem_cons_of_mem _ he, hk⟩
        · rintro (h | ⟨e, he, rfl⟩)
          · exact Or.inl h
          · rcases List.mem_cons.mp he with rfl | he
            · exact Or.inl hmem
            · exact Or.inr ⟨e, he, rfl⟩
      · rw [if_neg hn]
        simp only [List.mem_append, List.mem_cons, List.not_mem_nil,
          or_false, exists_eq_or_imp, or_assoc, @eq_comm _ k]

/-- Registering a package enters it and what encloses it. -/
theorem mem_registerPackage :
    k ∈ (r.registerPackage q).packages ↔ k ∈ r.packages ∨ Marks k q := by
  simp only [registerPackage, mem_enterPackages, mem_enclosingPackages, Marks]

/-- Promises register the packages of their names. -/
theorem mem_packages_promise {key : Nat} {names : List QualifiedName} :
    k ∈ (promise key names r).packages ↔
      k ∈ r.packages ∨ ∃ n ∈ names, Marks k n.package := by
  induction names generalizing r with
  | nil => simp [promise]
  | cons n rest ih =>
      rw [promise, ih]
      simp only [mem_registerPackage, List.mem_cons, exists_eq_or_imp,
        or_assoc]

-- =========================================================== the invariant

/-- A registered unit is in the package. -/
def Declares (r : Registry) (q : String) : Prop :=
  ∃ id u, r.unit? id = some u ∧ u.package = q

/-- The packages of the registered units. -/
def unitPackages (r : Registry) : List String := r.units.values.map (·.package)

/-- They are those that a registered unit is in. -/
theorem Indexed.mem_unitPackages (hr : r.Indexed) :
    q ∈ r.unitPackages ↔ r.Declares q := by
  unfold unitPackages Table.values Declares
  rw [List.map_map, List.mem_map]
  constructor
  · rintro ⟨⟨id, u⟩, he, hq⟩
    exact ⟨id, u, (Table.mem_entries_iff hr.unitsOnce).mp he, hq⟩
  · rintro ⟨id, u, hu, hq⟩
    exact ⟨(id, u), Table.mem_entries_of_find? hu, hq⟩

/-- The list holds the registered units' packages and some others, with
what encloses them, and nothing else. -/
def Lists (others : List String) (r : Registry) : Prop :=
  ∀ k, k ∈ r.packages ↔ ∃ q, (q ∈ others ∨ r.Declares q) ∧ Marks k q

/-- A registry without units lists nothing. -/
theorem lists_empty : Lists [] empty := by
  refine fun k => ⟨fun h => (by cases h), ?_⟩
  rintro ⟨q, h | ⟨id, u, hu, -⟩, -⟩
  · cases h
  · cases hu

variable {others more : List String}

/-- Only the units and the list count. -/
theorem Lists.congr (h : Lists others r)
    (hunits : ∀ id, s.unit? id = r.unit? id)
    (hpackages : s.packages = r.packages) : Lists others s := by
  intro k
  simp only [hpackages, Declares, hunits]
  exact h k

/-- What is listed anyway may be mentioned. -/
theorem Lists.append (h : Lists others r)
    (hmore : ∀ q ∈ more, q ∈ others ∨ r.Declares q) :
    Lists (others ++ more) r := by
  refine fun k => (h k).trans (exists_congr fun q => and_congr_left fun _ => ?_)
  rw [List.mem_append]
  constructor
  · exact Or.imp_left Or.inl
  · rintro ((h | h) | h)
    · exact Or.inl h
    · exact hmore q h
    · exact Or.inr h

/-- Accepting a unit makes its package one of the units' packages. -/
theorem declares_accept (hid : r.unit? u.id = none) :
    (r.accept u).Declares q ↔ r.Declares q ∨ u.package = q := by
  have hunit : ∀ id, (r.accept u).unit? id =
      if u.id = id then some u else r.unit? id := fun id =>
    unit?_enter r.skip u id
  simp only [Declares, hunit]
  constructor
  · rintro ⟨id, v, hv, hq⟩
    split at hv
    · cases hv
      exact Or.inr hq
    · exact Or.inl ⟨id, v, hv, hq⟩
  · rintro (⟨id, v, hv, hq⟩ | hq)
    · have hne : u.id ≠ id := by
        rintro rfl
        rw [hid] at hv
        cases hv
      exact ⟨id, v, by rw [if_neg hne]; exact hv, hq⟩
    · exact ⟨u.id, u, if_pos rfl, hq⟩

/-- A unit may be accepted under a free id. -/
theorem Lists.accept (h : Lists others r) (hid : r.unit? u.id = none) :
    Lists others (r.accept u) := by
  intro k
  have hpackages : k ∈ (r.accept u).packages ↔
      k ∈ r.packages ∨ Marks k u.package :=
    mem_registerPackage (r := r.skip.enter u)
  rw [hpackages, h k]
  simp only [declares_accept hid, ← or_assoc, or_and_right, exists_or,
    exists_eq_left']

/-- A unit may be built. -/
theorem Lists.addUnit (h : Lists others r) (hr : r.Coherent) (draft : Draft) :
    Lists others (r.addUnit draft).2 := by
  rcases r.addUnit_cases draft with ⟨-, hrun⟩ | ⟨-, e, hrun⟩
  · rw [hrun]
    exact h.accept hr.unit?_next
  · rw [hrun]
    exact h.congr (fun _ => rfl) rfl

/-- Looking a classifier up builds a unit at most. -/
theorem Lists.classifier (h : Lists others r) (hr : r.Coherent) (k : NameKey) :
    Lists others (r.classifier k).registry := by
  rcases r.classifier_cases k with hs | ⟨key, hs⟩ | ⟨key, source, -, hs⟩
  · rw [hs]
    exact h
  · rw [hs]
    exact h.congr (fun _ => rfl) rfl
  · rw [hs]
    have hwithdrawn : Lists others (r.withdraw key) :=
      h.congr (fun _ => rfl) rfl
    exact hwithdrawn.addUnit (hr.withdraw key) _

/-- A source lists the packages it announces, built or not. -/
theorem Lists.addSource (h : Lists others r) (path : String)
    (declares : List QualifiedName) (draft : Draft) :
    Lists (others ++ declares.map (·.package))
      (r.addSource path declares draft) := by
  intro k
  have hpackages : k ∈ (r.addSource path declares draft).packages ↔
      k ∈ r.packages ∨ ∃ n ∈ declares, Marks k n.package :=
    mem_packages_promise (r := { r with nextSource := r.nextSource + 1 })
  have hdeclares : ∀ q, (r.addSource path declares draft).Declares q ↔
      r.Declares q := by
    obtain ⟨packages, index, heq⟩ := r.addSource_eq path declares draft
    intro q
    rw [heq]
    exact Iff.rfl
  rw [hpackages, h k]
  simp only [hdeclares, List.mem_append, List.mem_map]
  constructor
  · rintro (⟨q, hq, hk⟩ | ⟨n, hn, hk⟩)
    · exact ⟨q, hq.imp_left Or.inl, hk⟩
    · exact ⟨n.package, Or.inl (Or.inr ⟨n, hn, rfl⟩), hk⟩
  · rintro ⟨q, (hq | ⟨n, hn, rfl⟩) | hq, hk⟩
    · exact Or.inl ⟨q, Or.inl hq, hk⟩
    · exact Or.inr ⟨n, hn, hk⟩
    · exact Or.inl ⟨q, Or.inr hq, hk⟩

/-- Replacing a unit leaves what the units before it were in. -/
theorem Lists.replaceUnit (h : Lists others r) (hr : r.Coherent)
    (hindexed : r.Indexed) (old : UnitId) (draft : Draft) :
    Lists (others ++ r.unitPackages) (r.replaceUnit old draft).2 := by
  have hbefore : Lists (others ++ r.unitPackages) r :=
    h.append fun q hq => Or.inr (hindexed.mem_unitPackages.mp hq)
  rcases r.replaceUnit_cases old draft with
    ⟨-, hrun⟩ | ⟨previous, u, hprevious, rfl, hcases⟩
  · rw [hrun]
    exact hbefore
  · rcases hcases with ⟨-, hrun⟩ | ⟨-, e, hrun⟩
    · rw [hrun]
      -- the old unit is out, and its package is among the others
      have hremoved : Lists (others ++ r.unitPackages) (r.remove previous) := by
        refine fun k => (hbefore k).trans
          (exists_congr fun q => and_congr_left fun _ => ?_)
        constructor
        · exact fun hq => Or.inl (hq.elim id fun hq =>
            List.mem_append_right _ (hindexed.mem_unitPackages.mpr hq))
        · refine Or.imp_right ?_
          rintro ⟨id, v, hv, hq⟩
          rw [unit?_remove] at hv
          split at hv
          · cases hv
          · exact ⟨id, v, hv, hq⟩
      refine hremoved.accept ?_
      have hfree : (r.remove previous).unit? ⟨r.nextUnit⟩ = none := by
        rw [unit?_remove, hr.unit?_next, ite_self]
      exact hfree
    · rw [hrun]
      exact hbefore.congr (hr.unit?_restored hprevious) rfl

end Registry

-- ============================================================ over histories

section histories

variable {setup : Setup} {w : World} {others : List String}

/-- The packages that a call announces. -/
def Call.announced : Call → List String
  | addSource _ declares spec =>
    match spec.draft with
    | .ok _ => declares.map (·.package)
    | .error _ => []
  | _ => []

/-- The packages that a history has seen: those of the units that were
registered before one of its calls or are at its end, and those that were
announced. -/
def World.packagesSeen (setup : Setup) : List Call → World → List String
  | [], w => w.registry.unitPackages
  | call :: rest, w => w.registry.unitPackages ++ call.announced ++
    packagesSeen setup rest (call.run setup w)

/-- A call adds what it announces, and what the units were in that it may
take away. -/
theorem Call.lists (hquiet : setup.Quiet) (hw : w.Coherent)
    (hindexed : w.registry.Indexed) (h : w.registry.Lists others)
    (call : Call) : (call.run setup w).registry.Lists
      (others ++ (w.registry.unitPackages ++ call.announced)) := by
  have hbefore : w.registry.Lists (others ++ w.registry.unitPackages) :=
    h.append fun q hq => Or.inr (hindexed.mem_unitPackages.mp hq)
  rw [← List.append_assoc]
  cases call with
  | addUnit spec =>
      simp only [run, Action.addUnit, Action.draft, announced,
        List.append_nil]
      cases hd : spec.draft with
      | error f => exact hbefore
      | ok d => exact hbefore.addUnit hw.registry d
  | replaceUnit old spec =>
      simp only [run, Action.replaceUnit, Action.draft, announced,
        List.append_nil]
      cases hd : spec.draft with
      | error f => exact hbefore
      | ok d => exact h.replaceUnit hw.registry hindexed old d
  | addSource path declares spec =>
      simp only [run, Action.addSource, Action.draft, announced]
      cases hd : spec.draft with
      | error f =>
          simp only [List.append_nil]
          exact hbefore
      | ok d => exact hbefore.addSource path declares d
  | lookUp k =>
      simp only [announced, List.append_nil]
      exact hbefore.classifier hw.registry k
  | resolve | resolveFile | otherTakes | otherReleases | setToken =>
      simp only [announced, List.append_nil]
      exact Call.keeps hquiet (fun r k hr hv => hv.classifier hr k) hw hbefore
        id

/-- A history adds what it has seen. -/
theorem Reaches.through_lists (hquiet : setup.Quiet)
    (hw : Reaches setup anyCall w) (h : w.registry.Lists others)
    (calls : List Call) : (w.through setup calls).registry.Lists
      (others ++ w.packagesSeen setup calls) := by
  induction calls generalizing w others with
  | nil =>
      exact h.append fun q hq =>
        Or.inr ((hw.indexed hquiet).mem_unitPackages.mp hq)
  | cons call rest ih =>
      rw [World.packagesSeen, ← List.append_assoc]
      exact ih (.step w call hw trivial)
        (Call.lists hquiet (hw.coherent hquiet) (hw.indexed hquiet) h call)

/-- The units at the end of a history are among those it has seen. -/
theorem World.mem_packagesSeen {q : String} (calls : List Call)
    (h : q ∈ (w.through setup calls).registry.unitPackages) :
    q ∈ w.packagesSeen setup calls := by
  induction calls generalizing w with
  | nil => exact h
  | cons call rest ih => exact List.mem_append_right _ (ih h)

/-- A registry that a history begins with lists the packages of its units. -/
theorem Registry.lists_start {r : Registry}
    (h : r = .empty ∨ r = .withBuiltins) : r.Lists [] := by
  rcases h with rfl | rfl
  · exact lists_empty
  · unfold withBuiltins
    split
    · next d hd => exact lists_empty.addUnit coherent_empty d
    · exact lists_empty

/-- There is a package exactly if a unit has been in it or below it at some
time, or a source has announced a name there. No other package that was
seen has the key of the one that is asked for. -/
theorem hasPackage_iff (hquiet : setup.Quiet) {r : Registry}
    (hr : r = .empty ∨ r = .withBuiltins) (calls : List Call) {p : String}
    (hfree : ∀ q ∈ (World.start r).packagesSeen setup calls,
      ∀ e ∈ enclosingPackages q, NameKey.package e = NameKey.package p →
        e = p) :
    ((World.start r).through setup calls).registry.hasPackage p = true ↔
      ∃ q ∈ (World.start r).packagesSeen setup calls, Encloses p q := by
  have hw : Reaches setup anyCall (World.start r) := .start r hr
  have hlists := hw.through_lists hquiet (Registry.lists_start hr) calls
  rw [List.nil_append] at hlists
  rw [Registry.hasPackage, List.contains_iff_mem, hlists]
  constructor
  · rintro ⟨q, hq, e, he, hk⟩
    have hseen : q ∈ (World.start r).packagesSeen setup calls :=
      hq.elim id fun hq => World.mem_packagesSeen calls
        (((hw.through calls).indexed hquiet).mem_unitPackages.mpr hq)
    have hep := hfree q hseen e (mem_enclosingPackages.mpr he) hk
    exact ⟨q, hseen, hep ▸ he⟩
  · rintro ⟨q, hseen, he⟩
    exact ⟨q, Or.inl hseen, p, he, rfl⟩

/-- A unit that was replaced by one of another package, and a source. -/
theorem hasPackage_iff_replacedUnit :
    let setup := Setup.plain .default
    let calls : List Call := [
      .addUnit { UnitSpec.plainClass with package := "old.part" },
      .replaceUnit ⟨0⟩ .plainClass,
      .addSource "b.kt" [.topLevel "lib" "D"] .nestedClass]
    let seen := (World.start .empty).packagesSeen setup calls
    let w := (World.start .empty).through setup calls
    seen = ["old.part", "p", "lib", "p"] ∧
      (∀ q ∈ seen, ∀ e ∈ enclosingPackages q,
        NameKey.package e = NameKey.package "old" → e = "old") ∧
      w.registry.hasPackage "old" = true := by
  intro setup calls seen w
  have hfree : ∀ q ∈ seen, ∀ e ∈ enclosingPackages q,
      NameKey.package e = NameKey.package "old" → e = "old" := by
    decide +kernel
  exact ⟨by decide +kernel, hfree,
    (hasPackage_iff (Setup.quiet_plain .default) (Or.inl rfl) calls hfree).mpr
      ⟨"old.part", by decide +kernel, by decide +kernel⟩⟩

/-- The package of a unit that was replaced is still there, although no
unit is in it or below it and there is no source. -/
theorem not_hasPackage_exact :
    let w := World.after (.plain .default) [
      .addUnit { UnitSpec.plainClass with package := "old.part" },
      .replaceUnit ⟨0⟩ .plainClass]
    w.registry.pending = .empty ∧ w.registry.pendingIndex = .empty ∧
      w.registry.unitPackages = ["p"] ∧ ¬ Encloses "old" "p" ∧
      NameKey.package "old" ≠ NameKey.package "p" ∧
      w.registry.hasPackage "old" = true := by
  decide +kernel

end histories

end StagedResolve
