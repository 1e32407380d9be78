/-
Designations: the smallest unit of work around a declaration.

Not every declaration can be resolved on its own. Parameters, type
parameters, accessors, primary constructors, initializer blocks and
everything with a borrowed node are resolved as part of what encloses
them, and so is everything inside executable code. The search for the
declaration to resolve instead climbs the syntax tree, whose nodes say
what a declaration is made of, and comes back to the declaration tree at
the first node that stands on its own.

A designation is that target together with the declarations between the
file and it. The markers along this chain tell how far the target is
known to be resolved (`World.reached`).
-/
import StagedResolve.World

namespace StagedResolve

-- ==================================================== nodes on their own

namespace SourceTree

/-- Whether the node is a class that can be named from the file: it and all nodes between it and
the file are classes. -/
def isNamedFromFile (t : SourceTree) (n : NodeId) : Bool :=
  t.kind? n == some .classDecl &&
    match (t.ancestors n).dropWhile fun m => t.kind? m == some .classDecl with
    | m :: _ => t.kind? m == some .file
    | [] => false

/-- Whether the node belongs directly to the file or to a class that can be named from it. -/
def isMemberNode (t : SourceTree) (n : NodeId) : Bool :=
  (t.parent? n).any fun p => t.kind? p == some .file || t.isNamedFromFile p

/-- Whether the node is a constructor property of a class that can be named from the file. -/
def isConstructorProperty (t : SourceTree) (n : NodeId) : Bool :=
  (t.parent? n).any fun c =>
    t.kind? c == some .primaryConstructor && (t.parent? c).any t.isNamedFromFile

/-- Whether the node can be resolved without resolving what encloses it. -/
def standsAlone (t : SourceTree) (n : NodeId) : Bool :=
  match t.kind? n with
  | some .file => true
  | some (.parameter valOrVar) => valOrVar && t.isConstructorProperty n
  | some .classDecl | some .typeAlias | some .function | some .secondaryConstructor
  | some .property | some .enumEntry => t.isMemberNode n
  | _ => false

/-- The node and the nodes above it, up to the file and without it. -/
def belowFile (t : SourceTree) (n : NodeId) : List NodeId :=
  (n :: t.ancestors n).takeWhile fun m => t.kind? m != some .file

end SourceTree

-- ============================================================ promotion

/-- The nearest declaration, at or above the given one, that can be resolved on its own. -/
def CompilationUnit.resolvableTarget (u : CompilationUnit) (d : DeclId) :
    Except ResolveError DeclId :=
  if d.isRoot then .ok .root
  else
    match u.decl? d with
    | none => .error (.symbolNotFound (u.symbol d))
    | some x =>
      let owner? (n : NodeId) := if u.tree.standsAlone n then u.declarationFor? n else none
      match (u.tree.belowFile x.node).findSome? owner? with
      | some target => .ok target
      | none => .error (.localUnsupported (u.symbol d) x.kind)

/-- A target and the declarations between the file and it. -/
structure Designation where
  unit : CompilationUnit
  /-- The declarations strictly between the file and the target, outermost first. -/
  path : List DeclId
  target : DeclId
  /-- The declaration that was asked for sits in executable code. -/
  isLocal : Bool
  deriving DecidableEq, Repr, Inhabited

namespace Designation

/-- The symbol of the target. -/
def symbol (d : Designation) : Symbol := d.unit.symbol d.target

/-- Whether the target is the file itself. -/
def isFile (d : Designation) : Bool := d.target.isRoot

/-- The file, the path and the target, outermost first. -/
def chain (d : Designation) : List DeclId :=
  .root :: d.path ++ (if d.isFile then [] else [d.target])

/-- Whether a declaration lies between the file and the target. -/
def onPath (d : Designation) (id : DeclId) : Bool := d.path.contains id

end Designation

namespace CompilationUnit

/-- The designation for a declaration. One that sits in executable code is refused unless its
container may be resolved instead. -/
def designateWith (u : CompilationUnit) (allowLocal : Bool) (d : DeclId) :
    Except ResolveError Designation :=
  match u.decl? d with
  | none => .error (.symbolNotFound (u.symbol d))
  | some x =>
    if x.isLocal && !allowLocal then .error (.localUnsupported (u.symbol d) x.kind)
    else
      match u.resolvableTarget d with
      | .error e => .error e
      | .ok target =>
        .ok { unit := u
              path := ((u.ancestors target).filter fun a => !a.isRoot).reverse
              target := target
              isLocal := x.isLocal }

/-- The designation for a declaration outside executable code. -/
def designate (u : CompilationUnit) : DeclId → Except ResolveError Designation :=
  u.designateWith false

/-- The designation for a declaration, or for the nearest container of one that sits in executable
code. -/
def designateEnclosing (u : CompilationUnit) : DeclId → Except ResolveError Designation :=
  u.designateWith true

/-- Whether resolving the declaration also resolves something below it. -/
def hasMembers (u : CompilationUnit) (d : DeclId) : Bool :=
  (u.children d).any fun c => !u.isLocal c && u.isEligible c

end CompilationUnit

-- ============================================================== markers

/-- The highest of a list of phases. -/
def Phase.highest : List Phase → Phase
  | [] => .raw
  | p :: rest => max p (highest rest)

namespace World

/-- The phase that a declaration is known to satisfy.

The marker of a declaration with members also rises when the declaration is only passed on the way
to another target, so it counts for leaves alone; for all others the markers of what was resolved
as a whole decide, those of the declaration and of everything around it. A file with resolved
imports vouches for the imports of everything in it. -/
def reached (w : World) (u : CompilationUnit) (d : DeclId) : Phase :=
  if d.isRoot then (max (w.own u .root) (w.below u .root)).satisfied
  else
    let whole := Phase.highest ((d :: u.ancestors d).map (w.below u))
    let leaf := if u.hasMembers d then .raw else w.own u d
    let file := min (w.own u .root) .lastFileWide
    (max (max whole leaf) file).satisfied

/-- The phase that the target of a designation is known to satisfy. -/
def current (w : World) (d : Designation) : Phase := w.reached d.unit d.target

end World

end StagedResolve
