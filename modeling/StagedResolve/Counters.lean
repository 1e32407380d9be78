/-
What a resolver counts.

One counter for each phase says how often the phase was committed for a
designation; the others count requests and what became of them.
-/
import StagedResolve.Bound
import StagedResolve.Phase

namespace StagedResolve

/-- The counters of a resolver. -/
structure Counters where
  /-- How often each phase was committed, by position. -/
  committed : List Nat
  requests : Nat
  /-- Requests that the markers answered. -/
  alreadyResolved : Nat
  supertypeRounds : Nat
  /-- Units whose supertype results were not written back because their lock was busy. -/
  deferred : Nat
  cancellations : Nat
  deriving DecidableEq, Repr

namespace Counters

/-- Counters of a resolver that has done nothing. -/
def zero : Counters :=
  { committed := Phase.all.map fun _ => 0, requests := 0, alreadyResolved := 0,
    supertypeRounds := 0, deferred := 0, cancellations := 0 }

instance : Inhabited Counters := ⟨zero⟩

/-- How often a phase was committed. -/
def committedTimes (c : Counters) (p : Phase) : Nat := c.committed.getD p.position 0

/-- How often any phase was committed. -/
def total (c : Counters) : Nat := totalOf (fun n => n) c.committed

/-- One more commit of a phase. -/
def countCommit (c : Counters) (p : Phase) : Counters :=
  { c with committed := c.committed.modify p.position (· + 1) }

/-- One more request. -/
def countRequest (c : Counters) : Counters := { c with requests := c.requests + 1 }

/-- One more request that the markers answered. -/
def countAlreadyResolved (c : Counters) : Counters :=
  { c with alreadyResolved := c.alreadyResolved + 1 }

/-- One more round of a supertype session. -/
def countRound (c : Counters) : Counters := { c with supertypeRounds := c.supertypeRounds + 1 }

/-- One more unit whose results were put off. -/
def countDeferred (c : Counters) : Counters := { c with deferred := c.deferred + 1 }

/-- One more request that was cancelled. -/
def countCancellation (c : Counters) : Counters :=
  { c with cancellations := c.cancellations + 1 }

/-- All counters in a row, the phases first. -/
def row (c : Counters) : List Nat :=
  c.committed
    ++ [c.requests, c.alreadyResolved, c.supertypeRounds, c.deferred, c.cancellations]

end Counters

end StagedResolve
