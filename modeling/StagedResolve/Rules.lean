/-
What each phase does with a declaration.

Every lazy phase has a rule with two parts: the work on the declarations
that are only passed on the way to a target, and the work on the target
and its members. The phase of sealed inheritors has nothing to compute,
so in it only the markers move.

Declarations inside executable code take part in no phase but the last.
There each of them catches up on all earlier phases at once, and local
classes go through a supertype session like any others.
-/
import StagedResolve.Rules.Contract
import StagedResolve.Rules.Inferred
import StagedResolve.Rules.Signature
import StagedResolve.Rules.Status
import StagedResolve.Supertypes.Commit

namespace StagedResolve

/-- The work of one phase. -/
structure PhaseRule where
  phase : Phase
  /-- The work on a declaration between the file and the target. -/
  onHeader : Context → DeclId → Action Unit
  /-- The work on the target and on each of its members. -/
  onMember : Context → DeclId → Action Unit
  /-- Whether declarations in executable code take part. -/
  inBodies : Bool

namespace PhaseRule

/-- A rule that does nothing. -/
def idle (phase : Phase) (inBodies : Bool) : PhaseRule :=
  ⟨phase, fun _ _ => Action.answer (), fun _ _ => Action.answer (), inBodies⟩

/-- Resolve the supertypes of a declaration if it is a class. -/
def classSupertypes (c : Context) (d : DeclId) : Action Unit :=
  if c.unit.isClassLike d then Action.resolveSupertypes c [c.unit.symbol d] else Action.answer ()

/-- The rule of the supertype phase. -/
def supertypes : PhaseRule := ⟨.supertypes, classSupertypes, classSupertypes, false⟩

/-- The rule for the types of signatures; on the way only annotations are resolved. -/
def types : PhaseRule :=
  { phase := .types
    onHeader := fun c d => c.resolveAnnotations d .types
    onMember := fun c d => c.resolveSignature d .types
    inBodies := false }

/-- The rule for visibility and modality; a declaration on the way needs them as well, since its
own marker moves. -/
def status : PhaseRule := ⟨.status, Context.storeStatus, Context.storeStatus, false⟩

/-- The rule for contracts. -/
def contracts : PhaseRule :=
  { idle .contracts false with onMember := fun c d => c.storeContract d .contracts }

/-- The rule for types that were not written. -/
def implicitTypes : PhaseRule :=
  { idle .implicitTypes false with onMember := fun c d => c.inferType d .implicitTypes }

/-- A declaration in executable code catches up on all phases. -/
def catchUp (c : Context) (d : DeclId) : Action Unit := do
  classSupertypes c d
  c.resolveSignature d .bodies
  c.storeStatus d
  c.storeContract d .bodies
  c.inferType d .bodies

/-- The work of the last phase on one declaration. -/
def resolveBody (c : Context) (d : DeclId) : Action Unit :=
  match c.unit.decl? d with
  | none => Action.fault .indexOutOfBounds
  | some x => do
    if x.isLocal then catchUp c d
    if x.hasCode then
      Action.writeSlots c.guard c.unit d fun s => { s with bodyResolved := true }

/-- The rule of the last phase. -/
def bodies : PhaseRule := { idle .bodies true with onMember := resolveBody }

end PhaseRule

/-- The rule of a phase; only lazy phases have one. -/
def Phase.rule? : Phase → Option PhaseRule
  | .supertypes => some .supertypes
  | .sealedInheritors => some (.idle .sealedInheritors false)
  | .types => some .types
  | .status => some .status
  | .contracts => some .contracts
  | .implicitTypes => some .implicitTypes
  | .bodies => some .bodies
  | _ => none

end StagedResolve
