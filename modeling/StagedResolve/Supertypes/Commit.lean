/-
Writing the results of a session back.

Results are written unit by unit, in the order of unit ids. The unit at
hand is locked already; any other one is locked in the order of units,
and where that would mean waiting out of order its results are put off:
they stay in the session, are never written by it, and will be computed
again by whoever needs them next.

A class that was only reached, and not asked for, has its members other
than nested classes marked as well, because this phase has nothing to do
for them; members of classes that were asked for are marked when the
walk that asked is committed.
-/
import StagedResolve.Supertypes.Compute
import StagedResolve.Supertypes.Cycles

namespace StagedResolve

/-- A unit entered into an ascending list, unless it is there. -/
def enterAscending (id : UnitId) : List UnitId → List UnitId
  | [] => [id]
  | next :: rest =>
    if id < next then id :: next :: rest
    else if id = next then next :: rest
    else next :: enterAscending id rest

/-- The units of a list of symbols, each once, ascending. -/
def unitsOf (symbols : List Symbol) : List UnitId :=
  symbols.foldr (fun s ids => enterAscending s.unit ids) []

/-- The slots of a class with its supertypes, or its expansion, filled in. -/
def Computed.fill (r : Computed) (s : Slots) : Slots :=
  let types := r.types.map Slot.resolved
  let s := if r.isAlias then { s with expansion := types.head? } else { s with supertypes := types }
  s.report .supertypes r.errors

namespace Session

/-- The classes whose results are still to be written back, in order. -/
def pending (s : Session) : List Symbol :=
  s.order.filter fun c => (s.result? c).any Computed.isPending

end Session

namespace Action

/-- Mark the members of a class that the supertype phase has nothing to do for. -/
def markMembers (g : Guard) (u : CompilationUnit) (owner : DeclId) : Action Unit :=
  let members := (u.children owner).filter fun d => !u.isClassLike d && !u.isLocal d
  let marked := members.flatMap fun d =>
    (u.subtree d).filter fun x => !u.isLocal x && u.isEligible x
  each (fun d => do
    raiseOwn g u d .supertypes
    raiseBelow g u d .supertypes) marked

/-- Write the result of one class back, unless its slots have been resolved meanwhile. -/
def applyTo (g : Guard) (u : CompilationUnit) (c : Symbol) : Action Unit := do
  match ← session fun s => s.result? c with
  | none => return ()
  | some r =>
    if (← read fun w => w.own u c.decl) ≥ .supertypes then return ()
    writeSlots g u c.decl r.fill
    raiseOwn g u c.decl .supertypes
    if !(← session fun s => s.seeds.contains c) then markMembers g u c.decl

/-- Write the results for one unit back, or put them off. -/
def applyUnit (ctx : Context) (id : UnitId) (classes : List Symbol) : Action Unit := do
  if id = ctx.unit.id then each (applyTo ctx.guard ctx.unit) classes
  else
    match ← sessionUnit? id with
    | none => return ()
    | some u =>
      match ← lockUnitOrdered id with
      | some g => holding g (each (applyTo g u) classes)
      | none => count Counters.countDeferred

/-- Write all results back that are still to be written back. -/
def applyResults (ctx : Context) : Action Unit := do
  let pending ← session Session.pending
  each (fun id => do
    let classes := pending.filter fun c => c.unit == id
    applyUnit ctx id classes
    updateSession (Session.modifyEach (fun _ r => { r with applied := true }) classes))
    (unitsOf pending)

/-- Compute classes and everything they refer to, break cycles and write the results back. -/
def resolveSupertypes (ctx : Context) (seeds : List Symbol) : Action Unit := do
  updateSession fun s => { s with seeds := s.seeds ++ seeds }
  let bound ← read fun w => w.registry.searchBound
  computeRounds ctx.setup.config ctx.cancellable bound seeds
  updateSession Session.breakCycles
  applyResults ctx

end Action

end StagedResolve
