/-
Everything that can go wrong, by cause.

A `ResolveError` is an answer: the caller asked for something that
cannot be had, or the resolution was cancelled, or (the last two causes)
a soft problem was found that is recorded on a declaration as a
`Diagnostic` while resolution goes on. A `RegistryError` refuses a unit.
A `Fault` breaks off the current request because an internal promise was
broken. The wording of each cause is in its `message` and nowhere else.
-/
import StagedResolve.Declaration.Kind
import StagedResolve.Phase
import StagedResolve.Symbol

namespace StagedResolve

-- ================================================= errors of resolving

/-- Why a request to resolve was not granted, or what was found wrong on the way. -/
inductive ResolveError where
  /-- The declaration is nested in executable code and has no container to resolve instead. -/
  | localUnsupported (symbol : Symbol) (kind : DeclKind)
  /-- No registered unit contains the declaration. -/
  | containingUnitNotFound (symbol : Symbol)
  /-- No unit with this id is registered. -/
  | unitNotFound (unit : UnitId)
  /-- The unit has no declaration with this number. -/
  | symbolNotFound (symbol : Symbol)
  /-- A phase met a declaration it has no rule for. -/
  | unexpectedKind (symbol : Symbol) (kind : DeclKind) (phase : Phase)
  /-- Waiting for the unit would break the lock order. -/
  | lockOrderViolation (unit held : UnitId)
  /-- Cancellation was seen, and the phase was not committed. -/
  | cancelled (phase : Phase)
  /-- A name could not be resolved. -/
  | unresolved (name : String) (span : Span)
  /-- A supertype closes an inheritance cycle. -/
  | cyclicSupertype (name : String) (span : Span)
  deriving DecidableEq, Repr, Inhabited

namespace ResolveError

/-- The wording of an error. -/
def message : ResolveError → String
  | localUnsupported s k => k.text ++ " " ++ s.text ++ " is local and has no resolvable container"
  | containingUnitNotFound s => "no compilation unit contains " ++ s.text
  | unitNotFound u => "compilation unit " ++ u.text ++ " is not registered"
  | symbolNotFound s => s.text ++ " does not name a declaration"
  | unexpectedKind s k p => "phase " ++ p.name ++ " cannot handle " ++ k.text ++ " " ++ s.text
  | lockOrderViolation u h =>
    "cannot wait for unit " ++ u.text ++ " while holding unit " ++ h.text
  | cancelled p => "resolution cancelled before committing phase " ++ p.name
  | unresolved n s => "unresolved reference '" ++ n ++ "' at " ++ s.text
  | cyclicSupertype n s => "supertype '" ++ n ++ "' at " ++ s.text ++ " closes an inheritance cycle"

/-- Whether this is an expected condition that callers handle. -/
def isRecoverable : ResolveError → Bool
  | cancelled _ | unresolved .. | cyclicSupertype .. => true
  | _ => false

/-- Whether this is misuse or an internal mistake. -/
def isInternalFault (e : ResolveError) : Bool := !e.isRecoverable

/-- Whether this reports a cancellation. -/
def isCancelled : ResolveError → Bool
  | cancelled _ => true
  | _ => false

end ResolveError

/-- A soft problem recorded on a declaration, with the phase that found it. -/
structure Diagnostic where
  phase : Phase
  error : ResolveError
  deriving DecidableEq, Repr, Inhabited

/-- The printed form of a diagnostic. -/
def Diagnostic.text (d : Diagnostic) : String := d.phase.name ++ ": " ++ d.error.message

-- =============================================== errors of registering

/-- Why a unit was not registered. -/
inductive RegistryError where
  /-- Another unit already declares a classifier of this name. -/
  | duplicateClassifier (name : String) (existing : Symbol)
  /-- The unit to be replaced is not registered. -/
  | unknownUnit (unit : UnitId)
  /-- A unit with this path is already registered. -/
  | duplicatePath (path : String)
  deriving DecidableEq, Repr, Inhabited

/-- The wording of an error. -/
def RegistryError.message : RegistryError → String
  | duplicateClassifier n s =>
    "duplicate classifier: " ++ n ++ " is already declared by " ++ s.text
  | unknownUnit u => "cannot replace " ++ u.text ++ ": unit is not registered"
  | duplicatePath p => "duplicate unit path: " ++ p

/-- Either kind of error, as a caller of the whole library sees it. -/
inductive AnyError where
  | registry (error : RegistryError)
  | resolve (error : ResolveError)
  deriving DecidableEq, Repr, Inhabited

namespace AnyError

/-- The wording of the error. -/
def message : AnyError → String
  | registry e => e.message
  | resolve e => e.message

/-- The error of resolving, if it is one. -/
def resolve? : AnyError → Option ResolveError
  | resolve e => some e
  | registry _ => none

/-- Whether the error reports a cancellation. -/
def isCancelled (e : AnyError) : Bool := e.resolve?.any ResolveError.isCancelled

end AnyError

-- ============================================================ faults

/-- A broken promise between parts of the library. -/
inductive Fault where
  /-- A number was used that names no declaration, node or lock. -/
  | indexOutOfBounds
  /-- A declaration was written to under the lock of another unit. -/
  | foreignGuard (unit guard : UnitId)
  /-- Work was to run under a lock that is not held. -/
  | notHeld (unit : UnitId)
  /-- A walk did not meet its target exactly once. -/
  | targetMissed (target : Symbol) (visits : Nat)
  /-- A phase was committed in a file whose imports are not resolved. -/
  | importsBehind (unit : UnitId) (phase : Phase)
  /-- An enclosing declaration lags behind a committed phase. -/
  | pathMemberBehind (member : Symbol) (reached phase : Phase)
  /-- The target itself lags behind a committed phase. -/
  | targetBehind (target : Symbol) (own below phase : Phase)
  /-- A search took more steps than the declarations it searches allow. -/
  | exhausted
  deriving DecidableEq, Repr, Inhabited

/-- The wording of a fault. -/
def Fault.message : Fault → String
  | indexOutOfBounds => "index out of bounds"
  | foreignGuard u g => u.text ++ " mutated under the lock of " ++ g.text
  | notHeld u => "lock of " ++ u.text ++ " must already be held by the current thread"
  | targetMissed s n => "designation target " ++ s.text ++ " visited " ++ toString n ++ " times"
  | importsBehind u p => "imports of " ++ u.text ++ " not resolved before " ++ p.name
  | pathMemberBehind s r p =>
    "path member " ++ s.text ++ " is at " ++ r.name ++ " after " ++ p.name
  | targetBehind s o b p =>
    "target " ++ s.text ++ " is at " ++ o.name ++ "/" ++ b.name ++ " after " ++ p.name
  | exhausted => "search bound exhausted"

/-- How a request ends that does not end well. -/
inductive Failure where
  | error (error : ResolveError)
  | fault (fault : Fault)
  deriving DecidableEq, Repr, Inhabited

/-- Whether the request ended because it was cancelled. -/
def Failure.isCancelled : Failure → Bool
  | error e => e.isCancelled
  | fault _ => false

end StagedResolve
