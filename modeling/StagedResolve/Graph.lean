/-
Directed graphs and their components.

A graph is a list of nodes with the nodes that each of them leads to in
one step. Two nodes are in one component if each is reached from the
other. The components are found by search: those of a node are the nodes
that it reaches and that reach it, and each component is listed with the
first of its nodes.
-/
import StagedResolve.Bound

namespace StagedResolve

/-- The members reached from those on `stack` along `next`, together with those in `seen`; `fuel`
bounds the number of members taken off the stack. -/
def closure {α : Type} [DecidableEq α] (next : α → List α) :
    (fuel : Nat) → (seen stack : List α) → List α
  | 0, seen, _ => seen
  | _ + 1, seen, [] => seen
  | fuel + 1, seen, a :: stack =>
    if seen.contains a then closure next fuel seen stack
    else closure next fuel (a :: seen) (next a ++ stack)

/-- A directed graph. -/
structure Graph (α : Type) where
  nodes : List α
  /-- Where the edges from a node lead, parallel ones included. -/
  next : α → List α
  mem_nodes : ∀ a, ∀ b ∈ next a, b ∈ nodes

namespace Graph

variable {α : Type} [DecidableEq α]

/-- Whether there is an edge from one node to another. -/
def hasEdge (g : Graph α) (a b : α) : Bool := (g.next a).contains b

/-- A bound on the steps of a search. -/
def bound (g : Graph α) : Nat := 2 + totalOf (fun a => (g.next a).length) g.nodes

/-- The nodes that are reached from a node, itself included. -/
def reach (g : Graph α) (a : α) : List α := closure g.next g.bound [] [a]

/-- The nodes that are reached from a node and that it is reached from. -/
def componentOf (g : Graph α) (a : α) : List α :=
  let reached := g.reach a
  g.nodes.filter fun b => reached.contains b && (g.reach b).contains a

/-- The components, each once. -/
def components (g : Graph α) : List (List α) :=
  g.nodes.filterMap fun a =>
    let component := g.componentOf a
    if component.head? = some a then some component else none

/-- Whether edges lead around within a component: it has several nodes, or one with an edge to
itself. -/
def isCycle (g : Graph α) : (component : List α) → Bool
  | [] => false
  | a :: rest => !rest.isEmpty || g.hasEdge a a

end Graph

end StagedResolve
