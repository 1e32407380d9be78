/-
The types written in a signature.

Each written type of a declaration is resolved in place, with the
committed supertypes: the type of the value or of what is returned, the
receiver, the bounds of a type parameter and the annotations. What was
not written stays implicit, except that a constructor has the type of
its class and an enum entry the type of its enum.
-/
import StagedResolve.Setup

namespace StagedResolve

/-- The class-like declaration around a declaration that is nearest to it. -/
def CompilationUnit.enclosingClass? (u : CompilationUnit) (d : DeclId) : Option DeclId :=
  (u.ancestors d).find? u.isClassLike

/-- The type that a declaration has by what encloses it. -/
def CompilationUnit.impliedType? (u : CompilationUnit) (d : DeclId) : Option ResolvedType :=
  match u.kind? d with
  | some .constructor | some .enumEntry =>
    (u.enclosingClass? d).map fun owner => .ofClass (u.symbol owner)
  | _ => none

namespace Context

/-- Resolve a slot if it is still written. -/
def resolveSlot (c : Context) (d : DeclId) : Slot → Action (Slot × List ResolveError)
  | .written t => do
    let (type, errors) ← c.resolveType d t
    return (.resolved type, errors)
  | settled => return (settled, [])

/-- Resolve a list of slots, in order. -/
def resolveSlots (c : Context) (d : DeclId) : List Slot → Action (List Slot × List ResolveError)
  | [] => return ([], [])
  | slot :: rest => do
    let (slot, errors) ← c.resolveSlot d slot
    let (slots, more) ← c.resolveSlots d rest
    return (slot :: slots, errors ++ more)

/-- Resolve a slot that may be absent. -/
def resolveSlot? (c : Context) (d : DeclId) : Option Slot → Action (Option Slot × List ResolveError)
  | some slot => do
    let (slot, errors) ← c.resolveSlot d slot
    return (some slot, errors)
  | none => return (none, [])

/-- Resolve the annotations of a declaration, unless there is nothing left to resolve. -/
def resolveAnnotations (c : Context) (d : DeclId) (phase : Phase) : Action Unit := do
  let annotations ← Action.read fun w => (w.slots c.unit d).annotations
  if annotations.all Slot.isSettled then return ()
  let (annotations, errors) ← c.resolveSlots d annotations
  Action.writeSlots c.guard c.unit d fun s =>
    { s with annotations := annotations }.report phase errors

/-- Resolve everything written in the signature of a declaration. -/
def resolveSignature (c : Context) (d : DeclId) (phase : Phase) : Action Unit := do
  let slots ← Action.read fun w => w.slots c.unit d
  let (returnType, errors₁) ← c.resolveSlot d slots.returnType
  let returnType :=
    if returnType.isImplicit then
      match c.unit.impliedType? d with
      | some t => .resolved t
      | none => returnType
    else returnType
  let (receiver, errors₂) ← c.resolveSlot? d slots.receiver
  let (bounds, errors₃) ← c.resolveSlots d slots.bounds
  let (annotations, errors₄) ← c.resolveSlots d slots.annotations
  Action.writeSlots c.guard c.unit d fun s =>
    { s with
      returnType := returnType
      receiver := receiver
      bounds := bounds
      annotations := annotations }.report phase (errors₁ ++ errors₂ ++ errors₃ ++ errors₄)

end Context

end StagedResolve
