/-
What looking names up does to two runs side by side.

# The steps

A look-up, in whatever scope and from whatever source of supertypes, is
made of three kinds of steps: it reads the registry, it asks the
registry for a classifier, which may build a source, and it asks its
source for the supertypes of a class. So a relation between two runs
that survives these steps (`SideBySide.Lookups`, and the hypothesis on
the source) survives every look-up. Only the search for inherited
classifiers can fail, by running out of its bound.

Nothing here depends on how names are looked up in detail: a change of
the order of the levels would leave the statements as they are.
-/
import StagedResolve.Proofs.Runs
import StagedResolve.Scope

namespace StagedResolve

/-- The relation survives the steps that every look-up is made of. -/
structure SideBySide.Lookups (p : SideBySide) : Prop where
  registry : ∀ v w, p.along v w → v.registry = w.registry
  classifier : ∀ k, Action.Keeps p (Action.classifier k)

namespace SideBySide.Lookups

open StagedResolve.Action

variable {p : SideBySide} {source : SupertypeSource}

-- ============================================================== imports

/-- What is read off the registry is the same in both runs. -/
theorem readRegistry {α : Type} (hl : p.Lookups) (f : Registry → α) :
    Keeps p (Action.read fun w => f w.registry) :=
  .read fun v w hvw => by rw [hl.registry v w hvw]

/-- One import directive. -/
theorem importDirective (hl : p.Lookups) (d : ImportDirective)
    (table : ImportTable) : Keeps p (Action.importDirective d table) := by
  unfold Action.importDirective
  split
  · refine .bind (hl.readRegistry fun r => r.hasPackage d.path)
      fun found => ?_
    split
    · exact .pure
    · exact .pure
  · refine .bind (hl.classifier _) fun found => ?_
    split
    · exact .pure
    · exact .pure

/-- A list of import directives. -/
theorem importDirectives (hl : p.Lookups) (ds : List ImportDirective)
    (table : ImportTable) : Keeps p (Action.importDirectives ds table) := by
  induction ds generalizing table with
  | nil => exact .pure
  | cons d rest ih =>
      refine .bind (hl.importDirective d table) fun r => ?_
      refine .bind (ih r.1) fun r' => ?_
      exact .pure

/-- The import table of a unit, stored or fresh. -/
theorem storedOrFreshImports (hl : p.Lookups) {u : CompilationUnit}
    (hu : ∀ v w, p.along v w →
      (v.slots u .root).imports = (w.slots u .root).imports) :
    Keeps p (Action.storedOrFreshImports u) := by
  refine .bind (.read hu) fun stored => ?_
  cases stored with
  | some table => exact .pure
  | none => exact .bind (hl.importDirectives _ _) fun _ => .pure

/-- The scope of a unit. -/
theorem ofUnit (hl : p.Lookups) {u : CompilationUnit} (defaults : List String)
    (hu : ∀ v w, p.along v w →
      (v.slots u .root).imports = (w.slots u .root).imports) :
    Keeps p (Scope.ofUnit u defaults) :=
  .bind (hl.storedOrFreshImports hu) fun _ => .pure

-- ================================================ inherited classifiers

/-- The search for an inherited classifier. -/
theorem searchInherited (hl : p.Lookups)
    (hstop : ∀ v w, p.along v w → p.failed v w)
    (hs : ∀ c, Keeps p (source c)) (name : String) (fuel : Nat)
    (seen stack : List Symbol) :
    Keeps p (Scope.searchInherited source name fuel seen stack) := by
  induction fuel generalizing seen stack with
  | zero => exact .stop hstop
  | succ fuel ih =>
      cases stack with
      | nil => exact .pure
      | cons next stack =>
          unfold Scope.searchInherited
          split
          · exact ih seen stack
          · refine .bind (hl.readRegistry fun r => (r.unit? next.unit).bind
              fun u => (u.nested? next.decl name).map u.symbol) fun found => ?_
            cases found with
            | some s => exact .pure
            | none => exact .bind (hs next) fun above => ih _ _

/-- A classifier that a class inherits. -/
theorem inherited? (hl : p.Lookups)
    (hstop : ∀ v w, p.along v w → p.failed v w)
    (hs : ∀ c, Keeps p (source c)) (owner : Symbol) (name : String) :
    Keeps p (Scope.inherited? source owner name) := by
  refine .bind (hs owner) fun above => ?_
  refine .bind (hl.readRegistry Registry.searchBound) fun bound => ?_
  exact hl.searchInherited hstop hs name bound _ _

-- ============================================================= look-ups

/-- A classifier that a declaration declares or inherits. -/
theorem declaredOrInherited? (hl : p.Lookups)
    (hstop : ∀ v w, p.along v w → p.failed v w)
    (hs : ∀ c, Keeps p (source c)) (sc : Scope) (name : String)
    (owner : DeclId) :
    Keeps p (sc.declaredOrInherited? source name owner) := by
  unfold Scope.declaredOrInherited?
  split
  · exact .pure
  · split
    · exact hl.inherited? hstop hs _ _
    · exact .pure

/-- A classifier in one of several packages. -/
theorem inPackages (hl : p.Lookups) (packages : List String)
    (name : String) :
    Keeps p (Action.firstSome
      (fun package => Action.classInPackage package name) packages) :=
  .firstSome fun _ _ => hl.classifier _

/-- A classifier outside the declarations around a place. -/
theorem outside? (hl : p.Lookups) (sc : Scope) (name : String) :
    Keeps p (sc.outside? name) := by
  unfold Scope.outside?
  split
  · exact .pure
  · exact hl.inPackages _ _

/-- A name without dots. -/
theorem lookupSimple (hl : p.Lookups)
    (hstop : ∀ v w, p.along v w → p.failed v w)
    (hs : ∀ c, Keeps p (source c)) (sc : Scope) (place : DeclId)
    (name : String) (position : Position) :
    Keeps p (sc.lookupSimple source place name position) := by
  unfold Scope.lookupSimple
  split
  · exact .pure
  · refine .bind (.firstSome fun owner _ =>
      hl.declaredOrInherited? hstop hs sc name owner) fun found => ?_
    cases found with
    | some s => exact .pure
    | none => exact .bind (hl.outside? sc name) fun _ => .pure

/-- Nested classifiers, followed downwards. -/
theorem descend (hl : p.Lookups) (current : Symbol) (names : List String) :
    Keeps p (Scope.descend current names) := by
  induction names generalizing current with
  | nil => exact .pure
  | cons name rest ih =>
      refine .bind (hl.readRegistry fun r => (r.unit? current.unit).bind
        fun u => (u.nested? current.decl name).map u.symbol) fun next => ?_
      cases next with
      | some s => exact ih s
      | none => exact .pure

/-- A name, dotted or not. -/
theorem lookup (hl : p.Lookups)
    (hstop : ∀ v w, p.along v w → p.failed v w)
    (hs : ∀ c, Keeps p (source c)) (sc : Scope) (place : DeclId)
    (name : String) (position : Position) :
    Keeps p (sc.lookup source place name position) := by
  unfold Scope.lookup
  split
  · next first second rest _ =>
    refine .bind (hl.classifier _) fun whole => ?_
    cases whole with
    | some s => exact .pure
    | none =>
        refine .bind (hl.lookupSimple hstop hs sc place first position)
          fun meaning => ?_
        split
        · exact .bind (hl.descend _ _) fun _ => .pure
        · exact .pure
  · exact hl.lookupSimple hstop hs sc place name position

-- ====================================================== resolving types

mutual

/-- A written type. -/
theorem resolve (hl : p.Lookups)
    (hstop : ∀ v w, p.along v w → p.failed v w)
    (hs : ∀ c, Keeps p (source c)) (sc : Scope) (place : DeclId)
    (position : Position) :
    ∀ t, Keeps p (sc.resolve source place position t)
  | ⟨name, args, nullable, span⟩ => by
      unfold Scope.resolve
      refine .bind (resolveArgs hl hstop hs sc place args) fun r => ?_
      refine .bind (hl.lookup hstop hs sc place name position) fun m => ?_
      split
      · exact .pure
      · exact .pure
      · exact .pure

/-- A list of type arguments. -/
theorem resolveArgs (hl : p.Lookups)
    (hstop : ∀ v w, p.along v w → p.failed v w)
    (hs : ∀ c, Keeps p (source c)) (sc : Scope) (place : DeclId) :
    ∀ ts, Keeps p (sc.resolveArgs source place ts)
  | [] => by
      unfold Scope.resolveArgs
      exact .pure
  | t :: rest => by
      unfold Scope.resolveArgs
      refine .bind (resolve hl hstop hs sc place .body t) fun r => ?_
      refine .bind (resolveArgs hl hstop hs sc place rest) fun r' => ?_
      exact .pure

end

/-- The type of a built-in class. -/
theorem builtin (hl : p.Lookups) (sc : Scope) (name : String) :
    Keeps p (sc.builtin name) := by
  refine .bind (hl.inPackages _ _) fun found => ?_
  cases found with
  | some s => exact .pure
  | none => exact .pure

end SideBySide.Lookups

end StagedResolve
