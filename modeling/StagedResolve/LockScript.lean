/-
Runs of one thread over a family of locks.

A script is a list of steps, each of which names a lock of the family by
its place. Guards are numbered in the order in which they are made and
may be dropped in any order; what a step answers, and what the thread
sees of the family afterwards, is all that can be observed.
-/
import StagedResolve.Locks

namespace StagedResolve

/-- One step of a script; numbers are places in the family, except for `drop`. -/
inductive LockStep where
  | lock (n : Nat)
  | tryLock (n : Nat)
  | lockOrdered (n : Nat)
  /-- Take a lock, watching the token in the name of the status phase. -/
  | lockCancellable (n : Nat)
  /-- Take a lock, watching a token that another thread cancels meanwhile. -/
  | lockWhileCancelled (n : Nat)
  | cancel
  | reset
  /-- Drop the guard with a number. -/
  | drop (guard : Nat)
  /-- Take a lock, look at the guard and drop it. -/
  | runUnder (n : Nat)
  /-- The same for a lock that must be held already. -/
  | runAlreadyLocked (n : Nat)
  | otherTakes (n : Nat)
  | otherReleases (n : Nat)
  deriving DecidableEq, Repr

/-- What a step answers. -/
inductive LockAnswer where
  | nothing
  /-- A guard was made: its number, its unit and whether it is reentrant. -/
  | guard (number : Nat) (unit : UnitId) (reentrant : Bool)
  /-- Whether the guard was still there to be dropped. -/
  | dropped (wasHeld : Bool)
  /-- What was seen under the lock, and for which locks of the family the guard stands. -/
  | ran (unit : UnitId) (reentrant : Bool) (standsFor : List Bool)
  | ranAgain (reentrant : Bool)
  | otherHolds
  | otherReleased
  deriving DecidableEq, Repr

/-- A thread in the middle of a script. -/
structure LockRun where
  family : List LockId
  thread : Thread
  /-- The guards made so far; one that was dropped leaves a gap. -/
  guards : List (Option Guard)
  deriving DecidableEq, Repr

namespace LockRun

/-- The locks made for a list of units, numbered by their places. -/
def familyFrom : Nat → List UnitId → List LockId
  | _, [] => []
  | n, u :: rest => ⟨u, n⟩ :: familyFrom (n + 1) rest

/-- The start of a script over locks for the given units. -/
def start (units : List UnitId) : LockRun := ⟨familyFrom 0 units, .start, []⟩

/-- Keep a guard under the next number. -/
def keep (r : LockRun) (g : Guard) (t : Thread) : LockAnswer × LockRun :=
  (.guard r.guards.length g.unit g.reentrant,
    { r with thread := t, guards := r.guards ++ [some g] })

/-- Keep a guard if one was obtained. -/
def keep? (r : LockRun) : Option Guard × Thread → LockAnswer × LockRun
  | (some g, t) => r.keep g t
  | (none, t) => (.nothing, { r with thread := t })

/-- Keep a guard unless an error came instead. -/
def keepOk (r : LockRun) : Except ResolveError Guard × Thread → Except Failure LockAnswer × LockRun
  | (.ok g, t) =>
    let (a, r) := r.keep g t
    (.ok a, r)
  | (.error e, t) => (.error (.error e), { r with thread := t })

/-- Drop the guard with a number. -/
def dropGuard (r : LockRun) (n : Nat) : LockAnswer × LockRun :=
  match r.guards[n]? with
  | some (some g) =>
    (.dropped true, { r with thread := r.thread.release g, guards := r.guards.set n none })
  | _ => (.dropped false, r)

/-- Run a step on the lock at a place. -/
def onLock (r : LockRun) (n : Nat) (f : LockId → Except Failure LockAnswer × LockRun) :
    Except Failure LockAnswer × LockRun :=
  match r.family[n]? with
  | some l => f l
  | none => (.error (.fault .indexOutOfBounds), r)

/-- Run one step. -/
def step (r : LockRun) : LockStep → Except Failure LockAnswer × LockRun
  | .lock n => r.onLock n fun l =>
    let (g, t) := r.thread.lock l
    let (a, r) := r.keep g t
    (.ok a, r)
  | .tryLock n => r.onLock n fun l =>
    let (a, r) := r.keep? (r.thread.tryLock l)
    (.ok a, r)
  | .lockOrdered n => r.onLock n fun l =>
    let (a, r) := r.keep? (r.thread.lockOrdered l)
    (.ok a, r)
  | .lockCancellable n => r.onLock n fun l => r.keepOk (r.thread.lockCancellable l .status)
  | .lockWhileCancelled n => r.onLock n fun l =>
    let t := { r.thread with token := r.thread.token.announce }
    let (a, r) := r.keepOk (t.lockCancellable l .types)
    (a, { r with thread := { r.thread with token := r.thread.token.settle } })
  | .cancel => (.ok .nothing, { r with thread := { r.thread with token := r.thread.token.cancel } })
  | .reset => (.ok .nothing, { r with thread := { r.thread with token := r.thread.token.reset } })
  | .drop n =>
    let (a, r) := r.dropGuard n
    (.ok a, r)
  | .runUnder n => r.onLock n fun l =>
    let (g, t) := r.thread.lock l
    (.ok (.ran g.unit g.reentrant (r.family.map fun l' => g.lock == l')),
      { r with thread := t.release g })
  | .runAlreadyLocked n => r.onLock n fun l =>
    match r.thread.lockAgain l with
    | (.ok g, t) => (.ok (.ranAgain g.reentrant), { r with thread := t.release g })
    | (.error f, t) => (.error (.fault f), { r with thread := t })
  | .otherTakes n => r.onLock n fun l =>
    (.ok .otherHolds, { r with thread := r.thread.otherTakes l })
  | .otherReleases n => r.onLock n fun l =>
    (.ok .otherReleased, { r with thread := r.thread.otherReleases l })

/-- Run a whole script. -/
def run (r : LockRun) : List LockStep → LockRun
  | [] => r
  | s :: rest => (r.step s).2.run rest

/-- What the thread sees of each lock: whether it owns it, whether anybody does, and whether it
may wait for its unit. -/
def view (r : LockRun) : List (Bool × Bool × Bool) :=
  r.family.map fun l => (r.thread.owns l, r.thread.isLocked l, r.thread.mayWaitFor l.unit)

end LockRun

end StagedResolve
