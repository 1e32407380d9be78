/-
Computing supertype clauses, from seeds to a fixpoint.

A clause is resolved on the header of its class, and a name in it may be
a classifier that some class around it inherits, so resolving one clause
can need the supertypes of other classes first. They are computed on the
way, unless the session has met them: a class whose computation is still
under way shows no supertypes, which is what ends the recursion. Each
computation begins with a class that the session had not met, so the
nesting never exceeds the number of declarations there are.

The references that come out are followed in rounds until a round finds
no class that the session has not met. A round after the first one needs
a newly computed clause, so the rounds are bounded in the same way.
-/
import StagedResolve.Setup

namespace StagedResolve

namespace Session

/-- The classes that a list of classes refers to and that the session has not met, each once, in
order, after those in `found`. Clauses that had been committed before are not followed. -/
def unmet (s : Session) : List Symbol → (found : List Symbol) → List Symbol
  | [], found => found
  | c :: rest, found =>
    match s.result? c with
    | none => s.unmet rest found
    | some r =>
      if r.committed then s.unmet rest found
      else
        let next := r.classes.foldl
          (fun found b => if s.hasMet b || found.contains b then found else found ++ [b]) found
        s.unmet rest next

/-- The classes to compute next, and the session in which all references have been followed. -/
def follow (s : Session) : List Symbol × Session :=
  (s.unmet (s.order.drop s.expanded) [], { s with expanded := s.order.length })

end Session

namespace Action

/-- A unit that the session needs, with its import table kept in the session. -/
def sessionUnit? (id : UnitId) : Action (Option CompilationUnit) := do
  match ← unit? id with
  | none => return none
  | some u =>
    if ← session fun s => s.imports.contains id then return some u
    else
      let table ← storedOrFreshImports u
      updateSession fun s => { s with imports := s.imports.insert id table }
      return some u

/-- Resolve the entries of a clause, in order. An entry that is resolved already stays as it is. -/
def resolveClause (sc : Scope) (source : SupertypeSource) (place : DeclId) :
    List Slot → Action (List Reference × List ResolveError)
  | [] => return ([], [])
  | .written t :: rest => do
    let (type, errors) ← sc.resolve source place .header t
    let (references, more) ← resolveClause sc source place rest
    return (⟨type, some t⟩ :: references, errors ++ more)
  | .resolved type :: rest => do
    let (references, errors) ← resolveClause sc source place rest
    return (⟨type, none⟩ :: references, errors)
  | .implicit :: rest => resolveClause sc source place rest

/-- The supertypes of one class, given a source for those of others. What is not a class of a
registered unit has none; what was resolved before is read off its slots; a class without a clause
extends the top type. -/
def evaluate (defaults : List String) (source : SupertypeSource) (c : Symbol) :
    Action Computed := do
  match ← sessionUnit? c.unit with
  | none => return .ofCommitted []
  | some u =>
    match u.decl? c.decl with
    | none => return .ofCommitted []
    | some d =>
      if !d.kind.isClassLike then return .ofCommitted []
      else
        let clause ← read fun w => w.clause u c.decl
        let own ← read fun w => w.own u c.decl
        if .supertypes ≤ own || !d.isEligible then return .ofCommitted (Slot.types clause)
        else
          let table ← session fun s => (s.imports.find? c.unit).getD .empty
          let (references, errors) ← resolveClause ⟨u, table, defaults⟩ source c.decl clause
          let isAlias := d.kind == .typeAlias
          let references :=
            if !isAlias && references.isEmpty then [⟨.any, none⟩] else references
          return { references := references, errors := errors, committed := false,
                   isAlias := isAlias, applied := false }

/-- Compute the supertypes of a class that the session has not met; `fuel` bounds the nesting. -/
def compute (defaults : List String) : (fuel : Nat) → Symbol → Action Unit
  | 0, _ => fault .exhausted
  | fuel + 1, c => do
    updateSession fun s => s.enter c
    let source (b : Symbol) : Action (List Symbol) := do
      if !(← session fun s => s.hasMet b) then compute defaults fuel b
      session fun s => s.classes b
    let result ← evaluate defaults source c
    updateSession fun s => s.finish c result

/-- The supertypes of a class through the session, computed if it has not met the class. -/
def sessionSource (defaults : List String) : SupertypeSource := fun c => do
  if !(← session fun s => s.hasMet c) then
    compute defaults (← read fun w => w.registry.searchBound) c
  session fun s => s.classes c

/-- Compute the members of one round that the session has not met, looking at the token from time
to time. -/
def computeRound (config : Config) (cancellable : Bool) (c : Symbol) : Action Unit := do
  if ← session fun s => s.hasMet c then return ()
  compute config.defaultImports (← read fun w => w.registry.searchBound) c
  updateSession fun s => { s with processed := s.processed + 1 }
  let processed ← session (·.processed)
  if processed % max config.interval 1 = 0 then checkCancelled cancellable .supertypes

/-- Compute classes and everything that they refer to, round by round. -/
def computeRounds (config : Config) (cancellable : Bool) : (fuel : Nat) → List Symbol → Action Unit
  | _, [] => return ()
  | 0, _ :: _ => fault .exhausted
  | fuel + 1, work@(_ :: _) => do
    count Counters.countRound
    each (computeRound config cancellable) work
    let (next, s) ← session Session.follow
    updateSession fun _ => s
    computeRounds config cancellable fuel next

end Action

end StagedResolve
