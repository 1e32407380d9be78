/-
The state of everything, and actions on it.

A world is the registry, what has been resolved so far, the locks, the
counters, the running supertype session and the log. Declarations never
change; what phases find out is kept beside them, by symbol, and a
declaration without an entry is in its initial state. Writing needs a
guard of the lock of the unit that is written to.

An action changes the world and either answers or fails. It keeps the
changes it has made when it fails: whatever was committed before a
failure stays committed.
-/
import StagedResolve.Counters
import StagedResolve.Locks
import StagedResolve.Registry
import StagedResolve.Supertypes.Session

namespace StagedResolve

-- ============================================================== worlds

/-- What is written to the log. -/
inductive LogLine where
  /-- A hook saw a phase work on a declaration. -/
  | seen (phase : Phase) (symbol : Symbol)
  /-- A source was built. -/
  | built (path : String)
  deriving DecidableEq, Repr, Inhabited

/-- The printed form of a line of the log. -/
def LogLine.text : LogLine → String
  | seen p s => p.name ++ " " ++ s.text
  | built path => "built " ++ path

/-- The state of everything. -/
structure World where
  registry : Registry
  /-- The states of the declarations that have left their initial state. -/
  states : Table Symbol DeclState
  thread : Thread
  counters : Counters
  session : Session
  log : List LogLine
  deriving DecidableEq, Repr

namespace World

/-- A world in which nothing was resolved yet. -/
def start (registry : Registry) : World :=
  { registry := registry, states := .empty, thread := .start, counters := .zero, session := .start,
    log := [] }

instance : Inhabited World := ⟨start .empty⟩

/-- The state of a declaration of a unit. -/
def state (w : World) (u : CompilationUnit) (d : DeclId) : DeclState :=
  match w.states.find? (u.symbol d) with
  | some s => s
  | none =>
    match u.decl? d with
    | some x => x.initialState
    | none => default

/-- The world with another state for a declaration. -/
def setState (w : World) (u : CompilationUnit) (d : DeclId) (s : DeclState) : World :=
  { w with states := w.states.insert (u.symbol d) s }

/-- A declaration has the state that was set for it. -/
@[simp] theorem state_setState_self (w : World) (u : CompilationUnit) (d : DeclId)
    (s : DeclState) : (w.setState u d s).state u d = s := by
  simp [setState, state]

/-- Setting the state of one declaration leaves every other declaration as it was. -/
theorem state_setState_of_ne (w : World) {u v : CompilationUnit} {d e : DeclId} (s : DeclState)
    (h : u.symbol d ≠ v.symbol e) : (w.setState u d s).state v e = w.state v e := by
  simp [setState, state, Table.find?_insert_of_ne _ _ h]

/-- The phase a declaration itself has reached. -/
def own (w : World) (u : CompilationUnit) (d : DeclId) : Phase := (w.state u d).own

/-- The phase a declaration and everything to be resolved below it have reached. -/
def below (w : World) (u : CompilationUnit) (d : DeclId) : Phase := (w.state u d).below

/-- The slots of a declaration. -/
def slots (w : World) (u : CompilationUnit) (d : DeclId) : Slots := (w.state u d).slots

/-- The supertype clause of a class, or the expansion of an alias, as it stands. -/
def clause (w : World) (u : CompilationUnit) (d : DeclId) : List Slot :=
  let slots := w.slots u d
  if u.kind? d = some .typeAlias then slots.expansion.toList else slots.supertypes

/-- The classes that the slots of a class-like declaration refer to. -/
def committedClasses (w : World) (s : Symbol) : List Symbol :=
  match w.registry.declaration s with
  | .ok (u, d) => ResolvedType.classes (Slot.types (w.clause u d.id))
  | .error _ => []

end World

-- ============================================================= actions

/-- A change of the world that answers or fails. -/
def Action (α : Type) : Type := World → Except Failure α × World

namespace Action

/-- Answer without changing anything. -/
def answer {α : Type} (a : α) : Action α := fun w => (.ok a, w)

/-- One action after the other; the second one does not run if the first one fails. -/
def andThen {α β : Type} (x : Action α) (f : α → Action β) : Action β := fun w =>
  match x w with
  | (.ok a, w) => f a w
  | (.error e, w) => (.error e, w)

instance : Monad Action where
  pure := answer
  bind := andThen

/-- Answering changes nothing. -/
@[simp] theorem pure_run {α : Type} (a : α) (w : World) : (pure a : Action α) w = (.ok a, w) := rfl

/-- An action whose first part answers goes on with its second part, in the world that the first
part left. -/
theorem bind_run_ok {α β : Type} {x : Action α} {a : α} {w w' : World} (h : x w = (.ok a, w'))
    (f : α → Action β) : (x >>= f) w = f a w' := by
  show (match x w with
    | (.ok a, w) => f a w
    | (.error e, w) => (.error e, w)) = f a w'
  rw [h]

/-- An action whose first part fails fails with it, in the world that the first part left. -/
theorem bind_run_error {α β : Type} {x : Action α} {e : Failure} {w w' : World}
    (h : x w = (.error e, w')) (f : α → Action β) : (x >>= f) w = (.error e, w') := by
  show (match x w with
    | (.ok a, w) => f a w
    | (.error e, w) => (.error e, w)) = (.error e, w')
  rw [h]

/-- An action of two parts answers exactly if both parts do. -/
theorem bind_run_eq_ok_iff {α β : Type} {x : Action α} {f : α → Action β} {b : β}
    {w w'' : World} :
    (x >>= f) w = (.ok b, w'') ↔ ∃ a w', x w = (.ok a, w') ∧ f a w' = (.ok b, w'') := by
  rcases hx : x w with ⟨r | a, w'⟩
  · rw [bind_run_error hx]
    constructor
    · intro h
      cases h
    · rintro ⟨a, v, h, -⟩
      cases h
  · rw [bind_run_ok hx]
    constructor
    · intro h
      exact ⟨a, w', rfl, h⟩
    · rintro ⟨a', v, h, hf⟩
      cases h
      exact hf

/-- End with a failure. -/
def stop {α : Type} (f : Failure) : Action α := fun w => (.error f, w)

/-- End with an error of resolving. -/
def fail {α : Type} (e : ResolveError) : Action α := stop (.error e)

/-- End with a fault. -/
def fault {α : Type} (f : Fault) : Action α := stop (.fault f)

/-- Answer with something that may be an error. -/
def ofExcept {α : Type} : Except ResolveError α → Action α
  | .ok a => answer a
  | .error e => fail e

/-- Read something off the world. -/
def read {α : Type} (f : World → α) : Action α := fun w => (.ok (f w), w)

/-- Change the world. -/
def update (f : World → World) : Action Unit := fun w => (.ok (), f w)

/-- Do something for each member of a list, in order. -/
def each {α : Type} (f : α → Action Unit) : List α → Action Unit
  | [] => answer ()
  | a :: rest => andThen (f a) fun _ => each f rest

/-- Answer for each member of a list, in order. -/
def collect {α β : Type} (f : α → Action β) : List α → Action (List β)
  | [] => answer []
  | a :: rest => andThen (f a) fun b => andThen (collect f rest) fun bs => answer (b :: bs)

/-- The first answer that some member of a list gives, in order. -/
def firstSome {α β : Type} (f : α → Action (Option β)) : List α → Action (Option β)
  | [] => answer none
  | a :: rest => andThen (f a) fun
    | some b => answer (some b)
    | none => firstSome f rest

/-- Keep what an action answers or how it fails, and go on. -/
def attempt {α : Type} (x : Action α) : Action (Except Failure α) := fun w =>
  match x w with
  | (r, w) => (.ok r, w)

-- ============================================================ registry

/-- The registered unit with an id. -/
def unit? (id : UnitId) : Action (Option CompilationUnit) := read fun w => w.registry.unit? id

/-- The declaration behind a symbol, with its unit. -/
def declaration (s : Symbol) : Action (CompilationUnit × Declaration) := fun w =>
  ofExcept (w.registry.declaration s) w

/-- The classifier with a key; a source that is built for it is written to the log. -/
def classifier (k : NameKey) : Action (Option Symbol) := fun w =>
  let found := w.registry.classifier k
  let lines := found.built.toList.map LogLine.built
  (.ok found.answer, { w with registry := found.registry, log := w.log ++ lines })

/-- The classifier with a path relative to a package. -/
def classInPackage (package path : String) : Action (Option Symbol) :=
  classifier (.classifier (joinPackage package path))

-- =============================================================== locks

/-- Drop a guard. -/
def release (g : Guard) : Action Unit := update fun w => { w with thread := w.thread.release g }

/-- Run an action under a guard and drop the guard, however the action ends. -/
def holding {α : Type} (g : Guard) (x : Action α) : Action α := fun w =>
  match x w with
  | (r, w) => (r, { w with thread := w.thread.release g })

/-- Take the lock of a unit. -/
def lockUnit (u : UnitId) : Action Guard := fun w =>
  let (g, t) := w.thread.lock (.ofUnit u)
  (.ok g, { w with thread := t })

/-- Take the lock of a unit unless another thread has it. -/
def tryLockUnit (u : UnitId) : Action (Option Guard) := fun w =>
  let (g, t) := w.thread.tryLock (.ofUnit u)
  (.ok g, { w with thread := t })

/-- Take the lock of a unit, waiting only where the order of units allows that. -/
def lockUnitOrdered (u : UnitId) : Action (Option Guard) := fun w =>
  let (g, t) := w.thread.lockOrdered (.ofUnit u)
  (.ok g, { w with thread := t })

/-- Take the lock of a unit unless the token is cancelled first. -/
def lockUnitCancellable (u : UnitId) (phase : Phase) : Action Guard := fun w =>
  match w.thread.lockCancellable (.ofUnit u) phase with
  | (.ok g, t) => (.ok g, { w with thread := t })
  | (.error e, t) => (.error (.error e), { w with thread := t })

/-- Fail in the name of a phase if the request can be cancelled and the token is. -/
def checkCancelled (cancellable : Bool) (phase : Phase) : Action Unit := fun w =>
  if cancellable then ofExcept (w.thread.token.check phase) w else (.ok (), w)

/-- Change a counter. -/
def count (f : Counters → Counters) : Action Unit :=
  update fun w => { w with counters := f w.counters }

-- ============================================================= writing

/-- Change the state of a declaration. The guard has to be one of the unit's own lock. -/
def writeState (g : Guard) (u : CompilationUnit) (d : DeclId) (f : DeclState → DeclState) :
    Action Unit := fun w =>
  if g.lock ≠ .ofUnit u.id then (.error (.fault (.foreignGuard u.id g.unit)), w)
  else if (u.decl? d).isNone then (.error (.fault .indexOutOfBounds), w)
  else (.ok (), w.setState u d (f (w.state u d)))

/-- Change the slots of a declaration. -/
def writeSlots (g : Guard) (u : CompilationUnit) (d : DeclId) (f : Slots → Slots) : Action Unit :=
  writeState g u d fun s => { s with slots := f s.slots }

/-- Raise the phase a declaration itself has reached. -/
def raiseOwn (g : Guard) (u : CompilationUnit) (d : DeclId) (p : Phase) : Action Unit :=
  writeState g u d fun s => { s with own := s.own.raise p }

/-- Raise the phase a declaration and everything to be resolved below it have reached. -/
def raiseBelow (g : Guard) (u : CompilationUnit) (d : DeclId) (p : Phase) : Action Unit :=
  writeState g u d fun s => { s with below := s.below.raise p }

-- ============================================================= session

/-- Read something off the running supertype session. -/
def session {α : Type} (f : Session → α) : Action α := read fun w => f w.session

/-- Change the running supertype session. -/
def updateSession (f : Session → Session) : Action Unit :=
  update fun w => { w with session := f w.session }

end Action

end StagedResolve
