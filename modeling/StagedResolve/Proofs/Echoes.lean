/-
Echoes: runs that answer as another run did.

# One direction

`Echoes p E x y` compares two actions. Whenever the first one answers, the
second one answers the same and leaves a related world, or it fails and
leaves a world in `E`; nothing is said where the first one fails. So the
first action may be a careful one that gives up where the second goes on:
what it finds out nevertheless, the second one finds out too.

# From one source to another

A look-up asks its source of supertypes for the classes that it passes. If
one source echoes another then every look-up through it echoes the look-up
through the other. All other steps of a look-up are the same on both
sides, so they echo themselves where they keep a relation
(`Echoes.of_keeps`).
-/
import StagedResolve.Proofs.Sessions

namespace StagedResolve

namespace Action

variable {α β : Type}

/-- Whatever the first action answers, the second one answers too, unless
it fails. -/
def Echoes (p : World → World → Prop) (E : World → Prop)
    (x y : Action α) : Prop :=
  ∀ v w a v', p v w → x v = (.ok a, v') →
    match y w with
    | (.ok b, w') => b = a ∧ p v' w'
    | (.error _, w') => E w'

end Action

/-- A relation as it is kept by two runs that fail together. -/
def SideBySide.echoing (p : World → World → Prop) (E : World → Prop) :
    SideBySide :=
  { along := p, failed := fun _ w => E w, away := fun _ => False }

namespace Action.Echoes

variable {α β : Type} {p : World → World → Prop} {E : World → Prop}

-- ========================================================== combinators

/-- Two runs of one action that keep a relation. -/
theorem of_keeps {x : Action α} (h : Keeps (.echoing p E) x) :
    Echoes p E x x := by
  intro v w a v' hvw hx
  have hrun := (h.run v w hvw).resolve_left id
  rw [hx] at hrun
  rcases hy : x w with ⟨e | b, w'⟩
  · rw [hy] at hrun
    exact hrun.elim
  · rw [hy] at hrun
    exact ⟨hrun.1.symm, hrun.2⟩

/-- Answering. -/
theorem pure {a : α} : Echoes p E (Pure.pure a) (Pure.pure a) := by
  intro v w b v' hvw hx
  cases hx
  exact ⟨rfl, hvw⟩

/-- Nothing is asked of an echo of a failure. -/
theorem of_stop {f : Failure} {y : Action α} :
    Echoes p E (Action.stop f) y := by
  intro v w a v' _ hx
  cases hx

/-- One action after another. -/
theorem bind {x y : Action α} {f g : α → Action β} (hx : Echoes p E x y)
    (hf : ∀ a, Echoes p E (f a) (g a)) : Echoes p E (x >>= f) (y >>= g) := by
  intro v w b v'' hvw hrun
  obtain ⟨a, v', ha, hb⟩ := bind_run_eq_ok_iff.mp hrun
  have hecho := hx v w a v' hvw ha
  rcases hy : y w with ⟨e | a', w'⟩
  · rw [hy] at hecho
    rw [bind_run_error hy]
    exact hecho
  · rw [hy] at hecho
    obtain ⟨rfl, hvw'⟩ := hecho
    rw [bind_run_ok hy]
    exact hf a' v' w' b v'' hvw' hb

/-- A search through a list. -/
theorem firstSome {f g : α → Action (Option β)} {as : List α}
    (h : ∀ a ∈ as, Echoes p E (f a) (g a)) :
    Echoes p E (Action.firstSome f as) (Action.firstSome g as) := by
  induction as with
  | nil => exact pure
  | cons a rest ih =>
      refine bind (h a (List.mem_cons_self ..)) fun r => ?_
      cases r with
      | some b => exact pure
      | none => exact ih fun b hb => h b (List.mem_cons_of_mem _ hb)

-- ============================================================= look-ups

variable {source source' : SupertypeSource}

/-- The search for an inherited classifier. -/
theorem searchInherited (hl : (SideBySide.echoing p E).Lookups)
    (hs : ∀ c, Echoes p E (source c) (source' c)) (name : String)
    (fuel : Nat) (seen stack : List Symbol) :
    Echoes p E (Scope.searchInherited source name fuel seen stack)
      (Scope.searchInherited source' name fuel seen stack) := by
  induction fuel generalizing seen stack with
  | zero => exact of_stop
  | succ fuel ih =>
      cases stack with
      | nil => exact pure
      | cons next stack =>
          unfold Scope.searchInherited
          split
          · exact ih seen stack
          · refine bind (of_keeps (hl.readRegistry fun r =>
              (r.unit? next.unit).bind fun u =>
                (u.nested? next.decl name).map u.symbol)) fun found => ?_
            cases found with
            | some s => exact pure
            | none => exact bind (hs next) fun above => ih _ _

/-- A classifier that a class inherits. -/
theorem inherited? (hl : (SideBySide.echoing p E).Lookups)
    (hs : ∀ c, Echoes p E (source c) (source' c)) (owner : Symbol)
    (name : String) :
    Echoes p E (Scope.inherited? source owner name)
      (Scope.inherited? source' owner name) := by
  refine bind (hs owner) fun above => ?_
  refine bind (of_keeps (hl.readRegistry Registry.searchBound)) fun bound => ?_
  exact searchInherited hl hs name bound _ _

/-- A classifier that a declaration declares or inherits. -/
theorem declaredOrInherited? (hl : (SideBySide.echoing p E).Lookups)
    (hs : ∀ c, Echoes p E (source c) (source' c)) (sc : Scope)
    (name : String) (owner : DeclId) :
    Echoes p E (sc.declaredOrInherited? source name owner)
      (sc.declaredOrInherited? source' name owner) := by
  unfold Scope.declaredOrInherited?
  split
  · exact pure
  · split
    · exact inherited? hl hs _ _
    · exact pure

/-- A name without dots. -/
theorem lookupSimple (hl : (SideBySide.echoing p E).Lookups)
    (hs : ∀ c, Echoes p E (source c) (source' c)) (sc : Scope)
    (place : DeclId) (name : String) (position : Position) :
    Echoes p E (sc.lookupSimple source place name position)
      (sc.lookupSimple source' place name position) := by
  unfold Scope.lookupSimple
  split
  · exact pure
  · refine bind (firstSome fun owner _ =>
      declaredOrInherited? hl hs sc name owner) fun found => ?_
    cases found with
    | some s => exact pure
    | none => exact bind (of_keeps (hl.outside? sc name)) fun _ => pure

/-- A name, dotted or not. -/
theorem lookup (hl : (SideBySide.echoing p E).Lookups)
    (hs : ∀ c, Echoes p E (source c) (source' c)) (sc : Scope)
    (place : DeclId) (name : String) (position : Position) :
    Echoes p E (sc.lookup source place name position)
      (sc.lookup source' place name position) := by
  unfold Scope.lookup
  split
  · next first second rest _ =>
    refine bind (of_keeps (hl.classifier _)) fun whole => ?_
    cases whole with
    | some s => exact pure
    | none =>
        refine bind (lookupSimple hl hs sc place first position)
          fun meaning => ?_
        split
        · exact bind (of_keeps (hl.descend _ _)) fun _ => pure
        · exact pure
  · exact lookupSimple hl hs sc place name position

mutual

/-- A written type. -/
theorem resolve (hl : (SideBySide.echoing p E).Lookups)
    (hs : ∀ c, Echoes p E (source c) (source' c)) (sc : Scope)
    (place : DeclId) (position : Position) :
    ∀ t, Echoes p E (sc.resolve source place position t)
      (sc.resolve source' place position t)
  | ⟨name, args, nullable, span⟩ => by
      unfold Scope.resolve
      refine bind (resolveArgs hl hs sc place args) fun r => ?_
      refine bind (lookup hl hs sc place name position) fun m => ?_
      split
      · exact pure
      · exact pure
      · exact pure

/-- A list of type arguments. -/
theorem resolveArgs (hl : (SideBySide.echoing p E).Lookups)
    (hs : ∀ c, Echoes p E (source c) (source' c)) (sc : Scope)
    (place : DeclId) :
    ∀ ts, Echoes p E (sc.resolveArgs source place ts)
      (sc.resolveArgs source' place ts)
  | [] => by
      unfold Scope.resolveArgs
      exact pure
  | t :: rest => by
      unfold Scope.resolveArgs
      refine bind (resolve hl hs sc place .body t) fun r => ?_
      refine bind (resolveArgs hl hs sc place rest) fun r' => ?_
      exact pure

end

/-- The entries of a clause. -/
theorem resolveClause (hl : (SideBySide.echoing p E).Lookups)
    (hs : ∀ c, Echoes p E (source c) (source' c)) (sc : Scope)
    (place : DeclId) (slots : List Slot) :
    Echoes p E (Action.resolveClause sc source place slots)
      (Action.resolveClause sc source' place slots) := by
  induction slots with
  | nil => exact pure
  | cons slot rest ih =>
      cases slot with
      | written t =>
          refine bind (resolve hl hs sc place .header t) fun r => ?_
          exact bind ih fun _ => pure
      | implicit => exact ih
      | resolved t => exact bind ih fun _ => pure

end Action.Echoes

end StagedResolve
