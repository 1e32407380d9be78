/-
What a supertype session remembers.

Computing the supertypes of one class can need those of others, in any
pattern, cycles included. A session computes each class at most once:
`progress` says of a class whether its computation is under way or done,
and `order` lists the classes in the order in which their computations
began. A class whose computation is under way has no supertypes to show
yet, so a look-up that comes back to it ends there.
-/
import StagedResolve.Declaration

namespace StagedResolve

/-- An entry of a supertype clause: the type, and how it was written if it came from source. -/
structure Reference where
  type : ResolvedType
  written : Option WrittenType
  deriving DecidableEq, Repr, Inhabited

/-- The supertypes of one class as a session knows them. -/
structure Computed where
  references : List Reference
  errors : List ResolveError
  /-- The references were read from slots that were resolved before; they are never written
  back. -/
  committed : Bool
  isAlias : Bool
  /-- The references have been written back, or writing them back has been put off for good. -/
  applied : Bool
  deriving DecidableEq, Repr, Inhabited

namespace Computed

/-- The supertypes of a class whose slots were resolved before. -/
def ofCommitted (types : List ResolvedType) : Computed :=
  { references := types.map fun t => ⟨t, none⟩, errors := [], committed := true, isAlias := false,
    applied := false }

/-- The types of the clause, in order. -/
def types (c : Computed) : List ResolvedType := c.references.map (·.type)

/-- The classes that the clause refers to, in order. -/
def classes (c : Computed) : List Symbol := ResolvedType.classes c.types

/-- Whether the references are still to be written back. -/
def isPending (c : Computed) : Bool := !c.committed && !c.applied

end Computed

/-- How far the computation of one class is. -/
inductive Progress where
  | underWay
  | done (result : Computed)
  deriving DecidableEq, Repr, Inhabited

/-- The result, if the computation is done. -/
def Progress.result? : Progress → Option Computed
  | done c => some c
  | underWay => none

/-- The memory of a supertype session. -/
structure Session where
  progress : Table Symbol Progress
  /-- The classes in the order in which their computations began. -/
  order : List Symbol
  /-- How many classes of `order` had their references followed. -/
  expanded : Nat
  /-- Classes that were asked for; the others were only reached from them. -/
  seeds : List Symbol
  /-- The import tables of the units that were met. -/
  imports : Table UnitId ImportTable
  /-- How many computations the rounds have begun. -/
  processed : Nat
  deriving DecidableEq, Repr

namespace Session

/-- A session that has computed nothing. -/
def start : Session :=
  { progress := .empty, order := [], expanded := 0, seeds := [], imports := .empty,
    processed := 0 }

instance : Inhabited Session := ⟨start⟩

/-- Whether the computation of a class has begun. -/
def hasMet (s : Session) (c : Symbol) : Bool := s.progress.contains c

/-- The result for a class, if its computation is done. -/
def result? (s : Session) (c : Symbol) : Option Computed :=
  (s.progress.find? c).bind Progress.result?

/-- The supertypes of a class, if they have been computed. -/
def supertypes? (s : Session) (c : Symbol) : Option (List ResolvedType) :=
  (s.result? c).map Computed.types

/-- The classes that a class refers to as far as the session knows: none while its computation is
under way. -/
def classes (s : Session) (c : Symbol) : List Symbol :=
  match s.result? c with
  | some r => r.classes
  | none => []

/-- Begin the computation of a class. -/
def enter (s : Session) (c : Symbol) : Session :=
  { s with progress := s.progress.insert c .underWay, order := s.order ++ [c] }

/-- Finish the computation of a class. -/
def finish (s : Session) (c : Symbol) (r : Computed) : Session :=
  { s with progress := s.progress.insert c (.done r) }

/-- Change the result for a class. -/
def modify (s : Session) (c : Symbol) (f : Computed → Computed) : Session :=
  match s.result? c with
  | some r => s.finish c (f r)
  | none => s

end Session

end StagedResolve
