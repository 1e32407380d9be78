/-
The walk along a designation.

A walk starts at the file and goes down along the path, leaving out
everything else. A declaration on the path has its header worked on,
which includes its type parameters; the target is worked on together
with its members, all the way down, except for members that do not go
through the phases, that sit in executable code where the phase does not
care for it, or that are marked already.

Markers rise only when the whole walk has succeeded (`Visits.commit`).
-/
import StagedResolve.Designation
import StagedResolve.Rules

namespace StagedResolve

/-- One piece of work of a phase. -/
inductive Work where
  | header (decl : DeclId)
  | member (decl : DeclId)
  deriving DecidableEq, Repr, Inhabited

/-- The printed form of a piece of work. -/
def Work.text : Work → String
  | header d => "header " ++ d.text
  | member d => "member " ++ d.text

/-- What a walk came by. -/
structure Visits where
  /-- Declarations whose own marker is to rise. -/
  headers : List DeclId
  /-- Declarations whose markers are both to rise. -/
  members : List DeclId
  /-- How often the target was met. -/
  targets : Nat
  /-- The work that was done, in order. -/
  work : List Work
  deriving DecidableEq, Repr

namespace Visits

/-- A walk that came by nothing. -/
def none : Visits := ⟨[], [], 0, []⟩

instance : Inhabited Visits := ⟨none⟩

/-- One walk after another. -/
def append (a b : Visits) : Visits :=
  ⟨a.headers ++ b.headers, a.members ++ b.members, a.targets + b.targets, a.work ++ b.work⟩

instance : Append Visits := ⟨append⟩

/-- Several walks, one after another. -/
def concat : List Visits → Visits
  | [] => none
  | v :: rest => v ++ concat rest

/-- Raise the markers of everything a walk came by. -/
def commit (v : Visits) (g : Guard) (u : CompilationUnit) (phase : Phase) : Action Unit := do
  Action.each (fun d => Action.raiseOwn g u d phase) v.headers
  Action.each (fun d => do
    Action.raiseOwn g u d phase
    Action.raiseBelow g u d phase) v.members

end Visits

namespace Walk

/-- Work on a declaration and let the hooks see it. -/
def workOn (rule : PhaseRule) (c : Context) (d : DeclId) : Action Unit := do
  rule.onMember c d
  c.runHooks rule.phase d

/-- Whether a walk leaves a member out. -/
def skips (rule : PhaseRule) (c : Context) (d : DeclId) : Action Bool := Action.read fun w =>
  !c.unit.isEligible d || (c.unit.isLocal d && !rule.inBodies)
    || decide (rule.phase ≤ w.below c.unit d)

/-- Visit a declaration and its members; `fuel` bounds the depth. -/
def visitMember (rule : PhaseRule) (c : Context) : (fuel : Nat) → DeclId → Action Visits
  | 0, _ => Action.fault .exhausted
  | fuel + 1, d => do
    if c.unit.kind? d = some .file then Action.fail (c.unexpected d rule.phase)
    let fresh ← Action.read fun w => decide (w.own c.unit d < rule.phase)
    if fresh then workOn rule c d
    let here : Visits := ⟨[], [d], 0, if fresh then [.member d] else []⟩
    let rest ← Action.collect (fun m => do
      if ← skips rule c m then return .none
      visitMember rule c fuel m) (c.unit.children d)
    return here ++ .concat rest

/-- Visit a declaration on the path: its header, and its type parameters. -/
def visitHeader (rule : PhaseRule) (c : Context) (d : DeclId) : Action Visits := do
  rule.onHeader c d
  c.runHooks rule.phase d
  let parameters := (c.unit.children d).filter fun m => c.unit.kind? m == some .typeParameter
  Action.each (workOn rule c) parameters
  return ⟨[d], parameters, 0, .header d :: parameters.map .member⟩

/-- Visit what is below a declaration as far as the designation goes; `fuel` bounds the depth. -/
def visitBelow (rule : PhaseRule) (c : Context) (goal : Designation) :
    (fuel : Nat) → DeclId → Action Visits
  | 0, _ => Action.fault .exhausted
  | fuel + 1, parent => do
    let visits ← Action.collect (fun d => do
      if d = goal.target then
        let visits ← visitMember rule c c.unit.size d
        return { visits with targets := visits.targets + 1 }
      else if goal.onPath d then
        let header ← visitHeader rule c d
        return header ++ (← visitBelow rule c goal fuel d)
      else return .none) (c.unit.children parent)
    return .concat visits

/-- Walk along a designation. A walk that does not meet its target exactly once is a fault: the
designation does not describe the tree. -/
def run (rule : PhaseRule) (c : Context) (goal : Designation) : Action Visits := do
  let visits ← visitBelow rule c goal c.unit.size .root
  if visits.targets ≠ 1 then Action.fault (.targetMissed goal.symbol visits.targets)
  return visits

end Walk

end StagedResolve
