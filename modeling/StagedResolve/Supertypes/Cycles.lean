/-
Breaking inheritance cycles.

The classes of a session are the nodes of a graph, and there is an edge
for each reference of a class to a class of the session. In a component
with a cycle the references of one member to another are replaced by the
top type, except for classes that have been written back or read from
their slots, and each replacement is reported with the reference as it
was written.
-/
import StagedResolve.Graph
import StagedResolve.Supertypes.Session

namespace StagedResolve

/-- What is reported for a reference that is replaced. -/
def cycleError (r : Reference) : ResolveError :=
  match r.written with
  | some t => .cyclicSupertype t.name t.span
  | none => .cyclicSupertype r.type.text .nowhere

/-- References with those replaced that are to be cut, and the reports. -/
def cut (circular : Reference → Bool) : List Reference → List Reference × List ResolveError
  | [] => ([], [])
  | r :: rest =>
    let (references, errors) := cut circular rest
    if circular r then (⟨.any, r.written⟩ :: references, cycleError r :: errors)
    else (r :: references, errors)

/-- The result of a class without the references that are to be cut, if it is still to be written
back. -/
def Computed.without (circular : Reference → Bool) (r : Computed) : Computed :=
  if r.isPending then
    let (references, errors) := cut circular r.references
    { r with references := references, errors := r.errors ++ errors }
  else r

namespace Session

/-- The classes of the session that a class refers to. -/
def edges (s : Session) (c : Symbol) : List Symbol := (s.classes c).filter s.order.contains

/-- The classes of the session and their references to each other. -/
def graph (s : Session) : Graph Symbol where
  nodes := s.order
  next := s.edges
  mem_nodes := fun _ _ h => List.contains_iff_mem.mp (List.mem_filter.mp h).2

/-- Change the results of a list of classes. -/
def modifyEach (f : Symbol → Computed → Computed) : List Symbol → Session → Session
  | [], s => s
  | c :: rest, s => modifyEach f rest (s.modify c (f c))

/-- Break the cycles within one component of a graph. -/
def breakComponent (g : Graph Symbol) (s : Session) (members : List Symbol) : Session :=
  if g.isCycle members then
    modifyEach (fun _ r => r.without fun x => x.type.class?.any members.contains) members s
  else s

/-- The session with every cycle through a class that is still to be written back broken, given a
way to find the components of a graph. -/
def breakCyclesBy (components : Graph Symbol → List (List Symbol)) (s : Session) : Session :=
  let g := s.graph
  (components g).foldl (breakComponent g) s

/-- The same, with the components found by search. -/
def breakCycles (s : Session) : Session := s.breakCyclesBy Graph.components

end Session

end StagedResolve
