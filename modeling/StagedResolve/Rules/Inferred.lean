/-
Types that were not written.

A declaration that has a value and no written type gets the type that
inference answers. Where inference does not answer, the declaration gets
an error type and a diagnostic at its place in the source.
-/
import StagedResolve.Setup

namespace StagedResolve

namespace Context

/-- What inference may look at for a declaration, and the errors found in its initializer. -/
def inferenceRequest (c : Context) (x : Declaration) :
    Action (InferenceRequest × List ResolveError) := do
  let (initializer, errors) ←
    match x.initializer with
    | some t => do
      let (type, errors) ← c.resolveType x.id t
      pure (some type, errors)
    | none => pure (none, [])
  let propertyType ← Action.read fun w =>
    if x.kind = .accessor then x.parent.bind fun p => (w.slots c.unit p).returnType.type? else none
  let unitType ← c.scope.builtin "Unit"
  return ({ unit := c.unit, decl := x, initializer := initializer, propertyType := propertyType,
            unitType := unitType }, errors)

/-- Infer the type of a declaration if it has one that was not written. -/
def inferType (c : Context) (d : DeclId) (phase : Phase) : Action Unit := do
  match c.unit.decl? d with
  | none => Action.fault .indexOutOfBounds
  | some x =>
    let implicit ← Action.read fun w => (w.slots c.unit d).returnType.isImplicit
    if !x.kind.hasValueType || !implicit then return ()
    let (request, errors) ← c.inferenceRequest x
    let (type, errors) :=
      match c.setup.inference request with
      | some t => (t, errors)
      | none =>
        let name := "type of " ++ x.nameOrKind
        let span := ((c.unit.tree.node? x.node).map (·.span)).getD .nowhere
        (.error name, errors ++ [.unresolved name span])
    Action.writeSlots c.guard c.unit d fun s =>
      { s with returnType := .resolved type }.report phase errors

end Context

end StagedResolve
