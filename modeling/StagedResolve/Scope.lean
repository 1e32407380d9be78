/-
What a written name means at a place in a unit.

A name without dots is looked up in levels, and the first level that
knows it decides:

1. type parameters of the declaration and of everything around it;
2. classifiers declared around it, innermost first, each class together
   with what it inherits;
3. explicit imports of the file;
4. the package of the file;
5. star imports, in order, and then the default imports.

A dotted name is a classifier known by its full name, or else a simple
name followed by nested classifiers.

Inherited classifiers need supertypes, which are what the supertype
phase is only computing. So every look-up is given a source of
supertypes: either the committed ones (`Action.committedSource`) or
those of a running session.
-/
import StagedResolve.Imports

namespace StagedResolve

/-- What a name means. -/
inductive Meaning where
  | classLike (symbol : Symbol)
  | parameter (symbol : Symbol)
  deriving DecidableEq, Repr, Inhabited

/-- Where a look-up starts. -/
inductive Position where
  /-- Inside the declaration, where its own classifiers are visible. -/
  | body
  /-- On the header of the declaration, where only its type parameters are. -/
  | header
  deriving DecidableEq, Repr, Inhabited

/-- A source of the classes that a class directly extends. -/
abbrev SupertypeSource := Symbol → Action (List Symbol)

/-- The supertypes that were written back to the slots. -/
def Action.committedSource : SupertypeSource := fun s => read fun w => w.committedClasses s

/-- The names visible in a unit. -/
structure Scope where
  unit : CompilationUnit
  imports : ImportTable
  /-- Packages that every file imports, searched last. -/
  defaults : List String
  deriving DecidableEq, Repr, Inhabited

namespace Scope

/-- The scope of a unit, with its stored import table if it has one. -/
def ofUnit (u : CompilationUnit) (defaults : List String) : Action Scope := do
  return ⟨u, ← Action.storedOrFreshImports u, defaults⟩

-- ================================================ inherited classifiers

/-- Search the classes on `stack`, and whatever they extend, for a nested classifier. Classes in
`seen` were searched already. Every class that is searched puts its supertypes on the stack once,
so a bound on all supertype references bounds the search. -/
def searchInherited (source : SupertypeSource) (name : String) :
    (fuel : Nat) → (seen stack : List Symbol) → Action (Option Symbol)
  | 0, _, _ => Action.fault .exhausted
  | _ + 1, _, [] => return none
  | fuel + 1, seen, next :: stack => do
    if seen.contains next then searchInherited source name fuel seen stack
    else
      let declared ← Action.read fun w =>
        (w.registry.unit? next.unit).bind fun u => (u.nested? next.decl name).map u.symbol
      match declared with
      | some found => return some found
      | none =>
        let above ← source next
        searchInherited source name fuel (next :: seen) (above.reverse ++ stack)

/-- A classifier of a given name that a class inherits; the class's own do not count. -/
def inherited? (source : SupertypeSource) (owner : Symbol) (name : String) :
    Action (Option Symbol) := do
  let above ← source owner
  let bound ← Action.read fun w => w.registry.searchBound
  searchInherited source name bound [owner] above.reverse

-- ============================================================= look-up

/-- The type parameter of a given name that is visible at a declaration. -/
def typeParameter? (sc : Scope) (place : DeclId) (name : String) : Option Symbol :=
  ((place :: sc.unit.ancestors place).findSome? fun d => sc.unit.typeParameter? d name).map
    sc.unit.symbol

/-- The declarations whose classifiers are visible at a place, innermost first. Callables declare
classifiers only in executable code, so they count only for places that are there. -/
def owners (sc : Scope) (place : DeclId) (position : Position) : List DeclId :=
  let around := sc.unit.ancestors place
  let around := if position = .header then around else place :: around
  around.filter fun d => sc.unit.isClassLike d || d.isRoot || sc.unit.isLocal place

/-- The classifier of a given name that a declaration declares, or inherits if it is a class. -/
def declaredOrInherited? (sc : Scope) (source : SupertypeSource) (name : String) (owner : DeclId) :
    Action (Option Symbol) :=
  match sc.unit.nested? owner name with
  | some found => return some (sc.unit.symbol found)
  | none =>
    if sc.unit.isClassLike owner then inherited? source (sc.unit.symbol owner) name
    else return none

/-- The classifier of a given name outside the declarations around a place: imported, in the
package of the file, or in a package imported as a whole. -/
def outside? (sc : Scope) (name : String) : Action (Option Symbol) := do
  match sc.imports.explicit.find? name with
  | some s => return some s
  | none =>
    Action.firstSome (fun package => Action.classInPackage package name)
      (sc.unit.package :: (sc.imports.stars ++ sc.defaults))

/-- What a name without dots means. -/
def lookupSimple (sc : Scope) (source : SupertypeSource) (place : DeclId) (name : String)
    (position : Position) : Action (Option Meaning) := do
  match sc.typeParameter? place name with
  | some p => return some (.parameter p)
  | none =>
    match ← Action.firstSome (sc.declaredOrInherited? source name) (sc.owners place position) with
    | some found => return some (.classLike found)
    | none => return (← sc.outside? name).map .classLike

/-- Follow nested classifiers down from a class. -/
def descend : Symbol → List String → Action (Option Symbol)
  | current, [] => return some current
  | current, name :: rest => do
    let next ← Action.read fun w =>
      (w.registry.unit? current.unit).bind fun u => (u.nested? current.decl name).map u.symbol
    match next with
    | some s => descend s rest
    | none => return none

/-- What a name means, dotted or not. -/
def lookup (sc : Scope) (source : SupertypeSource) (place : DeclId) (name : String)
    (position : Position) : Action (Option Meaning) := do
  match segments name with
  | first :: second :: rest =>
    match ← Action.classifier (.classifier name) with
    | some s => return some (.classLike s)
    | none =>
      match ← sc.lookupSimple source place first position with
      | some (.classLike s) => return (← descend s (second :: rest)).map .classLike
      | _ => return none
  | _ => sc.lookupSimple source place name position

-- ========================================================= resolving types

mutual

/-- What a written type resolves to, and the names in it that mean nothing, each argument's before
the type's own. Only the outermost name is looked up at the given position; arguments are always
inside. -/
def resolve (sc : Scope) (source : SupertypeSource) (place : DeclId) (position : Position) :
    WrittenType → Action (ResolvedType × List ResolveError)
  | ⟨name, args, nullable, span⟩ => do
    let (args, errors) ← resolveArgs sc source place args
    match ← sc.lookup source place name position with
    | some (.classLike s) => return (.classType s args nullable, errors)
    | some (.parameter s) => return (.parameter s nullable, errors)
    | none => return (.error name, errors ++ [.unresolved name span])

/-- What a list of type arguments resolves to, in order. -/
def resolveArgs (sc : Scope) (source : SupertypeSource) (place : DeclId) :
    List WrittenType → Action (List ResolvedType × List ResolveError)
  | [] => return ([], [])
  | arg :: rest => do
    let (type, errors) ← resolve sc source place .body arg
    let (types, more) ← resolveArgs sc source place rest
    return (type :: types, errors ++ more)

end

/-- The type of a built-in class, found through the default imports alone. -/
def builtin (sc : Scope) (name : String) : Action ResolvedType := do
  match ← Action.firstSome (fun package => Action.classInPackage package name) sc.defaults with
  | some s => return .ofClass s
  | none => return .error name

end Scope

end StagedResolve
