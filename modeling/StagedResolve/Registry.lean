/-
The registry: all units, and the ways of finding things in them.

A unit is registered under an id that is never used again, and three
tables are kept along with the units: the paths, the classifiers that
can be found from everywhere, by the keys of their names, and the
packages, each with every package that encloses it. A unit whose path or
one of whose classifiers is already taken is refused, and a refused
replacement puts the old unit back.

A source is a unit that has not been built yet. It says which
classifiers it will declare, and the first look-up of one of them builds
the unit and registers it. The promises of a source are dropped when it
is built, whether or not it kept them, so a source is built at most
once.

Unit ids and the numbers of sources are counted up and stored in 32 bits.
The counters have no bound here: it is assumed that fewer than 2^32 ids
are allocated, those of refused units included, and that fewer than 2^32
sources are added.
-/
import StagedResolve.Bound
import StagedResolve.Draft

namespace StagedResolve

/-- A unit to be built when it is first needed. -/
structure PendingSource where
  path : String
  draft : Draft
  deriving DecidableEq, Repr, Inhabited

/-- All units and their indexes. -/
structure Registry where
  /-- The index of the next unit id. -/
  nextUnit : Nat
  units : Table UnitId CompilationUnit
  paths : Table String UnitId
  classifiers : Table NameKey Symbol
  packages : List NameKey
  /-- Sources that were not built yet, by number. -/
  pending : Table Nat PendingSource
  /-- The source that promises a classifier. -/
  pendingIndex : Table NameKey Nat
  nextSource : Nat
  deriving DecidableEq, Repr

namespace Registry

/-- A registry without units. -/
def empty : Registry :=
  { nextUnit := 0, units := .empty, paths := .empty, classifiers := .empty, packages := [],
    pending := .empty, pendingIndex := .empty, nextSource := 0 }

instance : Inhabited Registry := ⟨empty⟩

-- =========================================================== look-ups

/-- The registered unit with an id. -/
def unit? (r : Registry) (id : UnitId) : Option CompilationUnit := r.units.find? id

/-- The registered unit with a path. -/
def unitByPath? (r : Registry) (path : String) : Option CompilationUnit :=
  (r.paths.find? path).bind r.unit?

/-- The ids of the registered units, ascending. -/
def unitIds (r : Registry) : List UnitId := r.units.keys.mergeSort fun a b => decide (a ≤ b)

/-- Whether a unit or a source declares something in the package or below it. -/
def hasPackage (r : Registry) (package : String) : Bool := r.packages.contains (.package package)

/-- The declaration behind a symbol, with its unit. -/
def declaration (r : Registry) (s : Symbol) :
    Except ResolveError (CompilationUnit × Declaration) :=
  match r.unit? s.unit with
  | none => .error (.containingUnitNotFound s)
  | some u =>
    match u.decl? s.decl with
    | none => .error (.symbolNotFound s)
    | some d => .ok (u, d)

/-- The sizes of the registry, as they are printed. -/
def summary (r : Registry) : String :=
  "SymbolRegistry \x7b units: " ++ toString r.units.size ++ ", classifiers: "
    ++ toString r.classifiers.size ++ ", pending: " ++ toString r.pending.size ++ " \x7d"

/-- No search over supertypes takes more steps than this: it counts every declaration that is
registered or can still be built, and every supertype reference written in one. -/
def searchBound (r : Registry) : Nat :=
  2 + totalOf (fun u => totalOf Declaration.searchWeight u.decls) r.units.values
    + totalOf (fun s => totalOf Declaration.searchWeight s.draft.decls) r.pending.values

-- ======================================================== registering

/-- Enter packages into a list without repeating one. -/
def enterPackages : List String → List NameKey → List NameKey
  | [], keys => keys
  | p :: rest, keys =>
    let k := NameKey.package p
    enterPackages rest (if keys.contains k then keys else keys ++ [k])

/-- Enter a package and every package that encloses it. -/
def registerPackage (r : Registry) (package : String) : Registry :=
  { r with packages := enterPackages (enclosingPackages package) r.packages }

/-- The first of a list of classifiers that is already declared, and where. -/
def clash? (r : Registry) : List (QualifiedName × Symbol) → Option RegistryError
  | [] => none
  | (name, _) :: rest =>
    match r.classifiers.find? name.key with
    | some existing => some (.duplicateClassifier name.text existing)
    | none => r.clash? rest

/-- Enter classifiers; of several with one key the last one stays. -/
def enterClassifiers : List (QualifiedName × Symbol) → Table NameKey Symbol → Table NameKey Symbol
  | [], t => t
  | (name, symbol) :: rest, t => enterClassifiers rest (t.insert name.key symbol)

/-- Drop the promises of sources for classifiers that are declared now. -/
def dropPromises : List (QualifiedName × Symbol) → Table NameKey Nat → Table NameKey Nat
  | [], t => t
  | (name, _) :: rest, t => dropPromises rest (t.erase name.key)

/-- Enter a unit into the tables that mention it. -/
def enter (r : Registry) (u : CompilationUnit) : Registry :=
  { r with
    units := r.units.insert u.id u
    paths := r.paths.insert u.path u.id
    classifiers := enterClassifiers u.classifiers r.classifiers }

/-- Build a unit under the next id and register it. A refused unit costs its id and nothing
else. -/
def addUnit (r : Registry) (draft : Draft) : Except RegistryError CompilationUnit × Registry :=
  let u := draft.finish ⟨r.nextUnit⟩
  let r := { r with nextUnit := r.nextUnit + 1 }
  if r.paths.contains u.path then (.error (.duplicatePath u.path), r)
  else
    match r.clash? u.classifiers with
    | some e => (.error e, r)
    | none =>
      let r := (r.enter u).registerPackage u.package
      (.ok u, { r with pendingIndex := dropPromises u.classifiers r.pendingIndex })

/-- Take a unit out of the tables that mention it. -/
def remove (r : Registry) (u : CompilationUnit) : Registry :=
  { r with
    units := r.units.erase u.id
    paths := r.paths.erase u.path
    classifiers := r.classifiers.filter fun _ s => s.unit ≠ u.id }

/-- Register a unit in place of an old one, which is put back if the new one is refused. -/
def replaceUnit (r : Registry) (old : UnitId) (draft : Draft) :
    Except RegistryError CompilationUnit × Registry :=
  match r.unit? old with
  | none => (.error (.unknownUnit old), r)
  | some previous =>
    match (r.remove previous).addUnit draft with
    | (.ok u, r) => (.ok u, r)
    | (.error e, r) => (.error e, r.enter previous)

-- ============================================================ sources

/-- Enter the promises of a source; a later promise for the same classifier wins. -/
def promise (key : Nat) : List QualifiedName → Registry → Registry
  | [], r => r
  | n :: rest, r =>
    let r := r.registerPackage n.package
    promise key rest { r with pendingIndex := r.pendingIndex.insert n.key key }

/-- Register a unit that is built on the first look-up of a classifier it declares. -/
def addSource (r : Registry) (path : String) (declares : List QualifiedName) (draft : Draft) :
    Registry :=
  let key := r.nextSource
  let r := promise key declares { r with nextSource := key + 1 }
  { r with pending := r.pending.insert key ⟨path, draft⟩ }

/-- What came of looking a classifier up. -/
structure LookUp where
  answer : Option Symbol
  registry : Registry
  /-- The path of the source that was built, if one was. -/
  built : Option String
  deriving DecidableEq, Repr

/-- Build the source that promises a classifier, if there is one. -/
def materialize (r : Registry) (k : NameKey) : LookUp :=
  match r.pendingIndex.find? k with
  | none => ⟨none, r, none⟩
  | some key =>
    let r := { r with pendingIndex := r.pendingIndex.filter fun _ key' => key' ≠ key }
    match r.pending.find? key with
    | none => ⟨none, r, none⟩
    | some source =>
      let r := { r with pending := r.pending.erase key }
      match r.addUnit source.draft with
      | (.error _, r) => ⟨none, r, some source.path⟩
      | (.ok _, r) => ⟨r.classifiers.find? k, r, some source.path⟩

/-- The classifier with a key. If it is not declared yet but a source promises it, the source is
built first. -/
def classifier (r : Registry) (k : NameKey) : LookUp :=
  match r.classifiers.find? k with
  | some s => ⟨some s, r, none⟩
  | none => r.materialize k

end Registry

end StagedResolve
