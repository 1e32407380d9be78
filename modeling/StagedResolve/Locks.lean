/-
Unit locks as one thread sees them.

Every unit has a reentrant mutex that guards all writing to its
declarations. Other threads appear here only through what they do to
this one: they hold mutexes, they let go of a mutex that this thread
waits for, and they may cancel its token while it waits.

Units are ordered by their ids, and a thread that holds units may wait
only for a unit above all of them (`mayWaitFor`); anything else has to
be an attempt that gives up. That rule excludes cycles of threads that
wait for each other. To apply it a thread keeps a list of the units it
holds: a guard that found the mutex free enters its unit there when it
is made and takes it off when it is dropped, and a guard that found it
already owned by this thread leaves the list alone. Each time this
thread has to wait, the wait is recorded together with what it held at
that moment.
-/
import StagedResolve.Failure
import StagedResolve.Table

namespace StagedResolve

-- ========================================================== the parts

/-- The identity of a lock: the unit it guards, and a number that tells apart several locks made
for the same unit. -/
structure LockId where
  unit : UnitId
  serial : Nat
  deriving DecidableEq, Repr, Inhabited

/-- The lock of a registered unit. -/
def LockId.ofUnit (u : UnitId) : LockId := ⟨u, 0⟩

/-- A reentrant mutex: how often this thread owns it, and whether another thread does. -/
structure Mutex where
  ours : Nat
  theirs : Bool
  deriving DecidableEq, Repr

/-- A mutex that nobody owns. -/
def Mutex.free : Mutex := ⟨0, false⟩

instance : Inhabited Mutex := ⟨.free⟩

/-- Proof that this thread holds a lock, to be dropped once. -/
structure Guard where
  lock : LockId
  /-- The thread held the lock already when the guard was made. -/
  reentrant : Bool
  deriving DecidableEq, Repr, Inhabited

/-- The unit a guard was made for. -/
def Guard.unit (g : Guard) : UnitId := g.lock.unit

/-- The cancellation flag that a thread and its callers share. -/
structure Token where
  cancelled : Bool
  /-- Another thread is about to cancel the token. -/
  pending : Bool
  deriving DecidableEq, Repr

namespace Token

/-- A token that was not cancelled. -/
def clear : Token := ⟨false, false⟩

instance : Inhabited Token := ⟨clear⟩

/-- Request cancellation. -/
def cancel (t : Token) : Token := { t with cancelled := true }

/-- Forget a request for cancellation. -/
def reset (t : Token) : Token := { t with cancelled := false }

/-- Another thread is about to cancel the token. -/
def announce (t : Token) : Token := { t with pending := true }

/-- The cancellation that was announced takes place, if one was. -/
def settle (t : Token) : Token := if t.pending then ⟨true, false⟩ else t

/-- What a check reports, in the name of a phase. -/
def check (t : Token) (phase : Phase) : Except ResolveError Unit :=
  if t.cancelled then .error (.cancelled phase) else .ok ()

end Token

/-- One time at which the thread had to wait for a unit, with the units it held then. -/
structure Wait where
  unit : UnitId
  held : List UnitId
  deriving DecidableEq, Repr, Inhabited

/-- Whether a wait respects the order of units. -/
def Wait.inOrder (w : Wait) : Bool := w.held.all fun h => decide (h < w.unit)

/-- A thread with everything it shares about locks. -/
structure Thread where
  mutexes : Table LockId Mutex
  /-- The units this thread holds, in no particular order. -/
  held : List UnitId
  token : Token
  /-- The waits so far, the latest first. -/
  waits : List Wait
  deriving DecidableEq, Repr

namespace Thread

/-- A thread that holds nothing among locks that nobody holds. -/
def start : Thread := ⟨.empty, [], .clear, []⟩

instance : Inhabited Thread := ⟨start⟩

-- ====================================================== what it can see

/-- The state of a mutex. -/
def mutex (t : Thread) (l : LockId) : Mutex := (t.mutexes.find? l).getD .free

/-- Whether this thread owns the mutex. -/
def owns (t : Thread) (l : LockId) : Bool := decide (0 < (t.mutex l).ours)

/-- Whether anybody owns the mutex. -/
def isLocked (t : Thread) (l : LockId) : Bool := t.owns l || (t.mutex l).theirs

/-- The highest unit this thread holds. -/
def highest? (t : Thread) : Option UnitId := UnitId.greatest? t.held

/-- Whether waiting for a unit respects the order of units. -/
def mayWaitFor (t : Thread) (u : UnitId) : Bool :=
  match t.highest? with
  | none => true
  | some h => decide (h < u)

-- ================================================== taking and dropping

/-- The thread once the mutex is its own one more time, and the guard that says so. -/
def acquire (t : Thread) (l : LockId) : Guard × Thread :=
  let reentrant := t.owns l
  let m := t.mutex l
  (⟨l, reentrant⟩,
    { t with
      mutexes := t.mutexes.insert l { m with ours := m.ours + 1 }
      held := if reentrant then t.held else l.unit :: t.held })

/-- The thread once a guard was dropped. -/
def release (t : Thread) (g : Guard) : Thread :=
  let m := t.mutex g.lock
  { t with
    mutexes := t.mutexes.insert g.lock { m with ours := m.ours - 1 }
    held := if g.reentrant then t.held else t.held.erase g.unit }

/-- Another thread takes a mutex. -/
def otherTakes (t : Thread) (l : LockId) : Thread :=
  { t with mutexes := t.mutexes.insert l { t.mutex l with theirs := true } }

/-- Another thread lets go of a mutex. -/
def otherReleases (t : Thread) (l : LockId) : Thread :=
  { t with mutexes := t.mutexes.insert l { t.mutex l with theirs := false } }

/-- This thread waits until the other thread lets go. -/
def wait (t : Thread) (l : LockId) : Thread :=
  { t.otherReleases l with waits := ⟨l.unit, t.held⟩ :: t.waits }

/-- Take a lock, waiting for it if another thread has it. -/
def lock (t : Thread) (l : LockId) : Guard × Thread :=
  if (t.mutex l).theirs then (t.wait l).acquire l else t.acquire l

/-- Take a lock unless another thread has it. -/
def tryLock (t : Thread) (l : LockId) : Option Guard × Thread :=
  if (t.mutex l).theirs then (none, t)
  else
    let (g, t) := t.acquire l
    (some g, t)

/-- Take a lock: wait for it where the order of units allows that, and attempt it otherwise. -/
def lockOrdered (t : Thread) (l : LockId) : Option Guard × Thread :=
  if t.owns l || t.mayWaitFor l.unit then
    let (g, t) := t.lock l
    (some g, t)
  else t.tryLock l

/-- Take a lock, giving up once the token is cancelled. The token is looked at before every
attempt, so a cancelled token wins over a free lock. -/
def lockCancellable (t : Thread) (l : LockId) (phase : Phase) :
    Except ResolveError Guard × Thread :=
  match t.token.check phase with
  | .error e => (.error e, t)
  | .ok () =>
    if (t.mutex l).theirs && t.token.pending then
      let w : Wait := ⟨l.unit, t.held⟩
      (.error (.cancelled phase), { t with token := t.token.settle, waits := w :: t.waits })
    else
      let (g, t) := t.lock l
      (.ok g, t)

/-- Make sure that a lock is held, and take it once more. -/
def lockAgain (t : Thread) (l : LockId) : Except Fault Guard × Thread :=
  if t.owns l then
    let (g, t) := t.lock l
    (.ok g, t)
  else (.error (.notHeld l.unit), t)

end Thread

end StagedResolve
