/-
Naming: the two ways from a name to a declaration.

# Two ways

The name by which a classifier is found from everywhere is put together
from the names around it (`NamedByPlace`). So the chain of a name,
followed from the file class by class, is a way down the declaration
tree, and the declaration that has the name is on it. The other way is
the index of the registry.

# Where the ways part

Going down takes the first classifier of a name at each step; the index
keeps the last declaration of a name. Registering compares the names of
a unit with those of other units only. So the two ways lead to one
declaration exactly as long as a unit does not get in its own way: no
two classifiers side by side share a name, be they local or not, no two
chains are written alike, and nothing but the file passes for a file
(`Unambiguous`).
-/
import StagedResolve.Proofs.Indexes

namespace StagedResolve

-- ========================================================== registered units

/-- What holds of every described unit holds of every registered one. -/
theorem Reaches.units {setup : Setup} {allowed : World → Call → Prop}
    {w : World} {P : CompilationUnit → Prop} (hquiet : setup.Quiet)
    (hdraft : ∀ spec d id, UnitSpec.draft spec = .ok d → P (d.finish id))
    (h : Reaches setup allowed w) {id : UnitId} {u : CompilationUnit}
    (hu : w.registry.unit? id = some u) : P u := by
  obtain ⟨-, -, hall⟩ := h.cataloged (P := fun r => r.AllUnits P) hquiet
    ⟨fun _ _ hu => (by cases hu), fun _ _ hk => (by cases hk)⟩
    fun _ _ _ hr hs => hr.alters hdraft hs
  exact hall.units id u hu

-- ================================================================ both ways

namespace CompilationUnit

variable {u : CompilationUnit}

/-- The declaration that a chain of classifiers leads to from the file. -/
def nestedIn? (u : CompilationUnit) (names : List String) : Option DeclId :=
  names.foldlM u.nested? .root

/-- Nothing in a unit gets in the way of a classifier that is looked for by
its name. -/
structure Unambiguous (u : CompilationUnit) : Prop where
  /-- Classifiers directly inside one declaration have different names. -/
  siblings : ∀ x ∈ u.decls, ∀ y ∈ u.decls, x.parent = y.parent →
    x.kind.isNamedClassifier = true → y.kind.isNamedClassifier = true →
    ∀ name ∈ x.name, y.name = some name → x.id = y.id
  /-- Names of different declarations are written differently. -/
  names : ∀ x ∈ u.decls, ∀ y ∈ u.decls, ∀ n ∈ x.qualifiedName,
    ∀ m ∈ y.qualifiedName, n.text = m.text → x.id = y.id
  /-- Only the file is one. -/
  file : ∀ x ∈ u.decls, x.kind = .file → x.id = .root

instance (u : CompilationUnit) : Decidable u.Unambiguous :=
  decidable_of_iff ((∀ x ∈ u.decls, ∀ y ∈ u.decls, x.parent = y.parent →
    x.kind.isNamedClassifier = true → y.kind.isNamedClassifier = true →
    ∀ name ∈ x.name, y.name = some name → x.id = y.id) ∧
    (∀ x ∈ u.decls, ∀ y ∈ u.decls, ∀ n ∈ x.qualifiedName,
      ∀ m ∈ y.qualifiedName, n.text = m.text → x.id = y.id) ∧
    ∀ x ∈ u.decls, x.kind = .file → x.id = .root)
    ⟨fun ⟨h, h', h''⟩ => ⟨h, h', h''⟩, fun h => ⟨h.siblings, h.names, h.file⟩⟩

/-- What declares a classifier of a name is one, and has that name. -/
theorem declaresClassifier_iff {name : String} {d : DeclId} :
    u.declaresClassifier name d = true ↔ ∃ x, u.decl? d = some x ∧
      x.kind.isNamedClassifier = true ∧ x.name = some name := by
  unfold declaresClassifier
  cases u.decl? d with
  | none => simp
  | some x => simp

/-- A classifier is found in the declaration it is directly in. -/
theorem Unambiguous.nested?_eq (h : u.Unambiguous) (hu : u.WellFormed)
    {d p : DeclId} {x : Declaration} {name : String}
    (hx : u.decl? d = some x) (hp : u.parent? d = some p)
    (hkind : x.kind.isNamedClassifier = true) (hname : x.name = some name) :
    u.nested? p name = some d := by
  have hmem : d ∈ u.children p := (hu.child_iff p d).mpr hp
  have hdeclares : u.declaresClassifier name d = true :=
    declaresClassifier_iff.mpr ⟨x, hx, hkind, hname⟩
  unfold nested?
  cases hfind : (u.children p).find? (u.declaresClassifier name) with
  | none => exact absurd hdeclares (List.find?_eq_none.mp hfind d hmem)
  | some e =>
      obtain ⟨y, hy, hykind, hyname⟩ :=
        declaresClassifier_iff.mp (List.find?_some hfind)
      have hep := (hu.child_iff p e).mp (List.mem_of_find?_eq_some hfind)
      have hparent : y.parent = x.parent := by
        rw [parent?, hy, Option.bind_some] at hep
        rw [parent?, hx, Option.bind_some] at hp
        rw [hep, hp]
      have hid := h.siblings y (List.mem_of_getElem? hy) x
        (List.mem_of_getElem? hx) hparent hykind hkind name hyname hname
      rw [hu.numbered e y hy, hu.numbered d x hx] at hid
      rw [hid]

/-- The chain of a name leads to the declaration that has it. -/
theorem Unambiguous.nestedIn?_eq (h : u.Unambiguous) (hu : u.WellFormed)
    (hnamed : NamedByPlace u.package u.label?) {d : DeclId} {x : Declaration}
    {n : QualifiedName} (hx : u.decl? d = some x)
    (hn : x.qualifiedName = some n) : u.nestedIn? n.classes = some d := by
  have hlabel : ∀ d x, u.decl? d = some x → u.label? d = some x.label :=
    fun d x hx => Option.map_eq_some_iff.mpr ⟨x, hx, rfl⟩
  induction d using hu.parent_induction generalizing x n with
  | top d hd =>
      obtain ⟨p, o, name, hparent, -⟩ := hnamed d _ n (hlabel d x hx) hn
      rw [parent?, hx, Option.bind_some] at hd
      cases hd.symm.trans hparent
  | step d q hq ih =>
      obtain ⟨p, o, name, hparent, ho, hkind, hname, hplace⟩ :=
        hnamed d _ n (hlabel d x hx) hn
      have hqp : q = p := by
        rw [parent?, hx, Option.bind_some] at hq
        exact Option.some.inj (hq.symm.trans hparent)
      subst hqp
      obtain ⟨y, hy, rfl⟩ := Option.map_eq_some_iff.mp ho
      have hstep := h.nested?_eq hu hx hq hkind hname
      unfold nestedIn? at ih ⊢
      rcases hplace with ⟨hfile, rfl⟩ | ⟨m, hm, rfl⟩
      · have hroot := h.file y (List.mem_of_getElem? hy) hfile
        rw [hu.numbered q y hy] at hroot
        rw [hroot] at hstep
        show [name].foldlM u.nested? DeclId.root = some d
        rw [List.foldlM_cons, hstep]
        rfl
      · show (m.classes ++ [name]).foldlM u.nested? DeclId.root = some d
        rw [List.foldlM_append, ih hy hm]
        show [name].foldlM u.nested? q = some d
        rw [List.foldlM_cons, hstep]
        rfl

end CompilationUnit

/-- Where no two names of the units have one key, a name of a unit that does
not get in its own way leads to its declaration from everywhere. -/
theorem Registry.Indexed.find?_key {r : Registry} (hr : r.Indexed)
    (hc : r.Coherent) (hfree : r.CollisionFree) {u : CompilationUnit}
    (hu : r.unit? u.id = some u) (hown : u.Unambiguous) {d : DeclId}
    {x : Declaration} {n : QualifiedName} (hx : u.decl? d = some x)
    (hn : x.qualifiedName = some n) :
    r.classifiers.find? n.key = some (u.symbol d) := by
  have hwf := hc.wellFormed u.id u hu
  have hmem : (n, u.symbol d) ∈ u.classifiers :=
    (mem_classifiers_iff hwf).mpr ⟨rfl, x, hx, hn⟩
  obtain ⟨c, hlast⟩ := exists_lastUnder hmem rfl
  obtain ⟨m, hm, hkey⟩ := mem_of_lastUnder hlast
  obtain ⟨hunit, y, hy, hym⟩ := (mem_classifiers_iff hwf).mp hm
  have htext := hfree m (mem_names hu hm) n (mem_names hu hmem) hkey
  have hd : c.decl = d := by
    rw [← hwf.numbered c.decl y hy, ← hwf.numbered d x hx]
    exact hown.names y (List.mem_of_getElem? hy) x (List.mem_of_getElem? hx)
      m hym n hn htext
  have hc : c = u.symbol d := by
    rw [CompilationUnit.symbol, ← hunit, ← hd]
  rw [← hc]
  exact (hr.entry n.key c).mpr ⟨u, by rw [hunit]; exact hu, hlast⟩

/-- In a unit that does not get in its own way, both ways from the name of a
declaration lead to that declaration. -/
theorem nestedIn?_and_classifier {setup : Setup} (hquiet : setup.Quiet)
    {w : World} (hw : Reaches setup anyCall w)
    (hfree : w.registry.CollisionFree) {u : CompilationUnit}
    (hu : w.Registered u) (hown : u.Unambiguous) {d : DeclId}
    {x : Declaration} {n : QualifiedName} (hx : u.decl? d = some x)
    (hn : x.qualifiedName = some n) :
    u.nestedIn? n.classes = some d ∧
      (w.registry.classifier n.key).answer = some (u.symbol d) := by
  have hc := (hw.coherent hquiet).registry
  have hnamed : NamedByPlace u.package u.label? := hw.units
    (P := fun u => NamedByPlace u.package u.label?) hquiet
    (fun spec d id hd => UnitSpec.namedByPlace hd id) hu
  have hfind := (hw.indexed hquiet).find?_key hc hfree hu hown hx hn
  refine ⟨hown.nestedIn?_eq (hc.wellFormed u.id u hu) hnamed hx hn, ?_⟩
  rw [Registry.classifier_of_declared hfind]

/-- A class in a class is found either way. -/
theorem nestedIn?_and_classifier_nestedClass :
    let w := World.after (.plain .default) [.addUnit .nestedClass]
    w.registry.CollisionFree ∧ ∃ u, w.Registered u ∧ u.Unambiguous ∧
      u.nestedIn? ["D", "E"] = some ⟨2⟩ ∧
      (w.registry.classifier (QualifiedName.mk "p" ["D", "E"]).key).answer =
        some (u.symbol ⟨2⟩) := by
  intro w
  have hfree : w.registry.CollisionFree := by decide +kernel
  have hunit : ∃ u ∈ w.registry.unit? ⟨0⟩, u.id = ⟨0⟩ ∧ u.Unambiguous ∧
      ∃ x ∈ u.decl? ⟨2⟩, x.qualifiedName = some ⟨"p", ["D", "E"]⟩ := by
    decide +kernel
  obtain ⟨u, hu, hid, hown, x, hx, hn⟩ := hunit
  have hreg : w.Registered u := by
    rw [World.Registered, hid]
    exact hu
  exact ⟨hfree, u, hreg, hown, nestedIn?_and_classifier
    (Setup.quiet_plain .default) (Reaches.after _ _) hfree hreg hown hx hn⟩

/-- Two classes of one name, and a class of whose two classes of one name the
first is in executable code. -/
def UnitSpec.selfShadowing : UnitSpec :=
  .ofEntries "a.kt" [.member 0 (.classNamed "A" []),
    .member 0 (.classNamed "A" []), .member 0 (.classNamed "B" []),
    ⟨⟨3⟩, true, .classNamed "C" []⟩, .member 3 (.classNamed "C" [])]

/-- Such a unit is accepted, and the two ways part: the first class is found
going down, the last one is found in the index, and a class in executable
code hides one that has a name. -/
theorem not_nestedIn?_and_classifier :
    let w := World.after (.plain .default) [.addUnit .selfShadowing]
    w.registry.CollisionFree ∧ ∃ u ∈ w.registry.unit? ⟨0⟩,
      (∃ x ∈ u.decl? ⟨1⟩, x.qualifiedName = some ⟨"p", ["A"]⟩ ∧
        u.nestedIn? ["A"] = some ⟨1⟩ ∧
        (w.registry.classifier (QualifiedName.mk "p" ["A"]).key).answer =
          some (u.symbol ⟨2⟩)) ∧
      ∃ x ∈ u.decl? ⟨5⟩, x.qualifiedName = some ⟨"p", ["B", "C"]⟩ ∧
        u.nestedIn? ["B", "C"] = some ⟨4⟩ ∧
        (w.registry.classifier (QualifiedName.mk "p" ["B", "C"]).key).answer =
          some (u.symbol ⟨5⟩) := by
  decide +kernel

end StagedResolve
