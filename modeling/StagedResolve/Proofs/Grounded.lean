/-
Grounded worlds: where resolved clauses come from.

Clauses start out as they were written, and only a session resolves them,
one class at a time, when it sets the marker of the class. So a clause
that refers to classes is that of a marked class, and the classes are
known ones (`World.Grounded`).

Nearly everything else that a request does leaves clauses alone, however
high it raises markers (`World.Unmoved`). A condition that survives that
is `Structural`; for such a condition the frames of requests ask for
nothing more, and what is left to look at is how a result is written
back.
-/
import StagedResolve.Proofs.Histories
import StagedResolve.Proofs.WriteBack

namespace StagedResolve

open StagedResolve.Action World

-- ======================================================= clauses left alone

namespace Slots

/-- Two sets of slots say the same about supertypes. -/
def SaysSame (s t : Slots) : Prop :=
  s.supertypes = t.supertypes ∧ s.expansion = t.expansion

variable {r s t : Slots}

/-- A set of slots says what it says. -/
theorem SaysSame.refl (s : Slots) : s.SaysSame s := ⟨rfl, rfl⟩

/-- What a third set says too. -/
theorem SaysSame.trans (h : r.SaysSame s) (h' : s.SaysSame t) :
    r.SaysSame t :=
  ⟨h.1.trans h'.1, h.2.trans h'.2⟩

/-- The other way round. -/
theorem SaysSame.symm (h : s.SaysSame t) : t.SaysSame s :=
  ⟨h.1.symm, h.2.symm⟩

end Slots

namespace World

variable {v w : World} {u : CompilationUnit}

/-- Markers have risen and units were registered, but no clause has
changed, and import tables that were stored name known classes. -/
structure Unmoved (v w : World) : Prop where
  later : v.Onward w
  supertypes : ∀ u d, v.Registered u →
    (w.slots u d).supertypes = (v.slots u d).supertypes
  expansion : ∀ u d, v.Registered u →
    (w.slots u d).expansion = (v.slots u d).expansion
  imports : ∀ u d t, v.Registered u → (w.slots u d).imports = some t →
    (v.slots u d).imports = some t ∨ t.Genuine w
  fresh : ∀ u d, w.Registered u → ¬ v.Registered u →
    w.states.find? (u.symbol d) = none

/-- A clause is read off supertypes and expansion. -/
theorem clause_eq {d : DeclId} (h : (w.slots u d).SaysSame (v.slots u d)) :
    w.clause u d = v.clause u d := by
  unfold clause
  dsimp only
  rw [h.1, h.2]

/-- So is what is beside it. -/
theorem spare_eq {d : DeclId} (h : (w.slots u d).SaysSame (v.slots u d)) :
    w.spare u d = v.spare u d := by
  unfold spare
  dsimp only
  rw [h.1, h.2]

/-- The clause is where it was. -/
theorem Unmoved.clause (h : v.Unmoved w) (hu : v.Registered u)
    (d : DeclId) : w.clause u d = v.clause u d :=
  clause_eq ⟨h.supertypes u d hu, h.expansion u d hu⟩

/-- States and units are as they were. -/
theorem unmoved_of_eq (hr : w.registry = v.registry)
    (hs : w.states = v.states)
    (hd : v.counters.deferred ≤ w.counters.deferred) : v.Unmoved w := by
  have hslots : ∀ u d, w.slots u d = v.slots u d := fun u d => by
    rw [slots, slots, state, state, hs]
  refine ⟨.of_eq hr hs hd, fun u d _ => by rw [hslots],
    fun u d _ => by rw [hslots], fun u d t _ h => Or.inl ?_,
    fun u d hu hnew => absurd ?_ hnew⟩
  · rwa [hslots] at h
  · rwa [Registered, hr] at hu

/-- Looking a classifier up may register a unit. -/
theorem unmoved_classifier (hw : w.Coherent) (k : NameKey) :
    w.Unmoved (Action.classifier k w).2 := by
  have hlater := later_classifier hw k
  refine ⟨hlater, fun _ _ _ => rfl, fun _ _ _ => rfl, fun _ _ _ _ => Or.inl,
    fun u d hu hnew => ?_⟩
  rcases hlater.registry.known u.id u hu with hu | hid
  · exact absurd hu hnew
  · exact hw.fresh (u.symbol d) hid

/-- Hooks leave clauses alone. -/
theorem Touches.unmoved (h : v.Touches w) : v.Unmoved w := by
  refine ⟨h.later, fun u d hu => (h.slots u d hu).supertypes,
    fun u d hu => (h.slots u d hu).expansion, fun u d t hu ht => Or.inl ?_,
    fun u d hu hnew => absurd ?_ hnew⟩
  · rwa [(h.slots u d hu).imports] at ht
  · rwa [Registered, h.registry] at hu

/-- Setting a state with the clause as it was. -/
theorem unmoved_setState {goal : Phase} {d : DeclId} {s : DeclState}
    (hu : w.Registered u) (hs : (w.state u d).Raised goal s)
    (hsupertypes : s.slots.supertypes = (w.slots u d).supertypes)
    (hexpansion : s.slots.expansion = (w.slots u d).expansion)
    (himports : ∀ t, s.slots.imports = some t →
      (w.slots u d).imports = some t ∨ t.Genuine w) :
    w.Unmoved (w.setState u d s) := by
  have hlater := later_setState hu hs
  have hslots : ∀ v e, w.Registered v → (w.setState u d s).slots v e =
      if u = v ∧ d = e then s.slots else w.slots v e := by
    intro v e hv
    rw [slots, state_setState hu hv]
    split
    · rfl
    · rfl
  refine ⟨hlater, fun v e hv => ?_, fun v e hv => ?_, fun v e t hv ht => ?_,
    fun v e hv hnew => absurd hv hnew⟩
  · rw [hslots v e hv]
    split
    · next h =>
      obtain ⟨rfl, rfl⟩ := h
      exact hsupertypes
    · rfl
  · rw [hslots v e hv]
    split
    · next h =>
      obtain ⟨rfl, rfl⟩ := h
      exact hexpansion
    · rfl
  · rw [hslots v e hv] at ht
    split at ht
    · next h =>
      obtain ⟨rfl, rfl⟩ := h
      exact (himports t ht).imp_right fun hk => t.lasting_genuine w _ hlater hk
    · exact Or.inl ht

/-- Committing a walk leaves clauses alone. -/
theorem Rewrites.unmoved {visits : Visits} {p : Phase}
    (h : Rewrites u (visits.committed p) v w) : v.Unmoved w := by
  refine ⟨h.later, fun u' d hu => by rw [h.slots u' d hu],
    fun u' d hu => by rw [h.slots u' d hu], fun u' d t hu ht => Or.inl ?_,
    fun u' d hu hnew => absurd (h.registered_iff.mp hu) hnew⟩
  rwa [h.slots u' d hu] at ht

-- ============================================================== grounded

/-- A world in which whatever clauses refer to was put there by a
session. -/
structure Grounded (w : World) : Prop where
  coherent : w.Coherent
  referring : w.Referring
  marked : ∀ u d, w.Registered u →
    ∀ b ∈ ResolvedType.classes (Slot.types (w.clause u d)),
      ∃ x, u.decl? d = some x ∧ x.kind.isClassLike = true ∧
        x.isEligible = true ∧ .supertypes ≤ w.own u d

/-- The slots of a declaration that nobody has touched are as they were
written. -/
theorem unresolved_of_fresh (hu : u.WellFormed) {d : DeclId}
    (hfresh : w.states.find? (u.symbol d) = none) :
    (w.slots u d).Unresolved := by
  rw [slots, state, hfresh]
  cases hd : u.decl? d with
  | none => exact ⟨rfl, rfl⟩
  | some x => exact hu.unresolved d x hd

/-- Nothing is inherited through slots as they were written. -/
theorem types_clause_of_unresolved {d : DeclId}
    (h : (w.slots u d).Unresolved) : Slot.types (w.clause u d) = [] := by
  unfold clause
  dsimp only
  split
  · exact h.expansion
  · exact h.supertypes

/-- A clause that nobody has touched has no more references than were
written. -/
theorem width_of_fresh {d : DeclId} {x : Declaration}
    (hx : u.decl? d = some x)
    (hfresh : w.states.find? (u.symbol d) = none) :
    Slot.arms (w.clause u d) < x.searchWeight := by
  have hslots : w.slots u d = x.written := by
    rw [slots, state, hfresh, hx]
    rfl
  refine Nat.lt_of_le_of_lt (Slot.arms_le_length _) ?_
  unfold clause Declaration.searchWeight
  rw [hslots]
  dsimp only
  split
  · cases x.written.expansion with
    | none =>
        show 0 < _
        omega
    | some t =>
        show 1 < 1 + _ + 1
        omega
  · omega

/-- Nothing is beside it. -/
theorem types_spare_of_unresolved {d : DeclId}
    (h : (w.slots u d).Unresolved) : Slot.types (w.spare u d) = [] := by
  unfold spare
  dsimp only
  split
  · exact h.supertypes
  · exact h.expansion

/-- What units there are, and what nobody has touched, decide about
grounds. -/
theorem Grounded.of_kept (hv : v.Grounded) (hw : w.Coherent)
    (hold : ∀ u, w.Registered u → v.Registered u →
      (∀ d, (w.slots u d).SaysSame (v.slots u d) ∧ v.own u d ≤ w.own u d) ∧
        ∀ t, (w.slots u .root).imports = some t →
          (v.slots u .root).imports = some t ∨ t.Genuine w)
    (hevolves : v.registry.Evolves w.registry)
    (hup : w.registry.Upright → v.registry.Upright)
    (hfresh : ∀ u d, w.Registered u → ¬ v.Registered u →
      w.states.find? (u.symbol d) = none) : w.Grounded := by
  have hempty : ∀ u d, w.Registered u → ¬ v.Registered u →
      (w.slots u d).Unresolved := fun u d hu hnew =>
    unresolved_of_fresh (hw.wellFormed hu) (hfresh u d hu hnew)
  have hclause : ∀ u d, w.Registered u → v.Registered u →
      w.clause u d = v.clause u d := fun u d hu hreg =>
    clause_eq ((hold u hu hreg).1 d).1
  have hown : ∀ u d, w.Registered u → v.Registered u →
      v.own u d ≤ w.own u d := fun u d hu hreg => ((hold u hu hreg).1 d).2
  constructor
  case coherent => exact hw
  case referring =>
    constructor
    case clause =>
      intro u d hu b hb
      by_cases hreg : v.Registered u
      · rw [hclause u d hu hreg] at hb
        exact (hv.referring.clause u d hreg b hb).evolves hevolves hup
      · rw [types_clause_of_unresolved (hempty u d hu hreg)] at hb
        cases hb
    case width =>
      intro u d x hu hx
      by_cases hreg : v.Registered u
      · rw [hclause u d hu hreg]
        exact hv.referring.width u d x hreg hx
      · exact width_of_fresh hx (hfresh u d hu hreg)
    case spare =>
      intro u d hu
      by_cases hreg : v.Registered u
      · rw [spare_eq ((hold u hu hreg).1 d).1]
        exact hv.referring.spare u d hreg
      · exact types_spare_of_unresolved (hempty u d hu hreg)
    case unmarked =>
      intro u d hu hopen
      by_cases hreg : v.Registered u
      · rw [hclause u d hu hreg]
        exact hv.referring.unmarked u d hreg fun hle =>
          hopen (Phase.le_trans hle (hown u d hu hreg))
      · exact types_clause_of_unresolved (hempty u d hu hreg)
    case imports =>
      intro u t hu ht
      by_cases hreg : v.Registered u
      · rcases (hold u hu hreg).2 t ht with ht | ht
        · exact (hv.referring.imports u t hreg ht).evolves hevolves hup
        · exact ht
      · rw [(hempty u .root hu hreg).imports] at ht
        cases ht
  case marked =>
    intro u d hu b hb
    by_cases hreg : v.Registered u
    · rw [hclause u d hu hreg] at hb
      obtain ⟨x, hx, hk, he, hle⟩ := hv.marked u d hreg b hb
      exact ⟨x, hx, hk, he, Phase.le_trans hle (hown u d hu hreg)⟩
    · rw [types_clause_of_unresolved (hempty u d hu hreg)] at hb
      cases hb

/-- A world in which no clause has moved is grounded where the old one
was. -/
theorem Grounded.unmoved (hv : v.Grounded) (h : v.Unmoved w)
    (hw : w.Coherent) : w.Grounded :=
  hv.of_kept hw
    (fun u _ hu => ⟨fun d => ⟨⟨h.supertypes u d hu, h.expansion u d hu⟩,
      h.later.own u d hu⟩, fun t ht => h.imports u .root t hu ht⟩)
    h.later.registry.toEvolves h.later.upright h.fresh

/-- Registering and replacing units leaves a world grounded. -/
theorem Grounded.reregisters (hv : v.Grounded) (h : v.Reregisters w) :
    w.Grounded := by
  have hslots : ∀ u d, w.slots u d = v.slots u d := fun u d => by
    rw [slots, slots, h.state_eq]
  refine hv.of_kept (h.coherent_world hv.coherent) (fun u _ hu => ⟨fun d =>
    ⟨by rw [hslots]; exact .refl _,
      by rw [own, own, h.state_eq]; exact Phase.le_refl _⟩,
      fun t ht => Or.inl ?_⟩) h.evolves h.upright
    fun u d hu hnew => h.fresh hv.coherent hu hnew d
  rwa [hslots] at ht

/-- A fresh world is grounded. -/
theorem Grounded.start {r : Registry} (hr : (World.start r).Coherent) :
    (World.start r).Grounded := by
  have hempty : ∀ u d, (World.start r).Registered u →
      ((World.start r).slots u d).Unresolved := fun u d hu =>
    unresolved_of_fresh (hr.wellFormed hu) rfl
  have hclause : ∀ u d, (World.start r).Registered u →
      Slot.types ((World.start r).clause u d) = [] := fun u d hu =>
    types_clause_of_unresolved (hempty u d hu)
  constructor
  case coherent => exact hr
  case referring =>
    refine ⟨fun u d hu b hb => ?_, fun u d x _ hx => width_of_fresh hx rfl,
      fun u d hu => types_spare_of_unresolved (hempty u d hu),
      fun u d hu _ => hclause u d hu, fun u t hu ht => ?_⟩
    · rw [hclause u d hu] at hb
      cases hb
    · rw [(hempty u .root hu).imports] at ht
      cases ht
  case marked =>
    intro u d hu b hb
    rw [hclause u d hu] at hb
    cases hb

/-- What was final is final. -/
theorem Done.reregisters {c : Symbol} (hv : v.Done c) (h : v.Reregisters w) :
    w.Done c := by
  obtain ⟨hknown, hmarked⟩ := hv
  refine ⟨hknown.evolves h.evolves, fun u x hu hid hx hk he => ?_⟩
  rcases h.evolves.known u.id u hu with hold | hnew
  · rw [own, state, h.states]
    exact hmarked u x hold hid hx hk he
  · rw [hid] at hnew
    exact absurd hknown (Nat.not_lt.mpr hnew)

-- ============================================================ inheritance

/-- A class refers to another one in its slots. -/
def Inherits (w : World) (a b : Symbol) : Prop := b ∈ w.committedClasses a

instance (w : World) (a b : Symbol) : Decidable (w.Inherits a b) :=
  inferInstanceAs (Decidable (b ∈ w.committedClasses a))

/-- A class inherits what its clause refers to. -/
theorem inherits_iff (hw : w.Coherent) {a b : Symbol} :
    w.Inherits a b ↔ ∃ u, w.Registered u ∧ u.id = a.unit ∧
      (u.decl? a.decl).isSome ∧
        b ∈ ResolvedType.classes (Slot.types (w.clause u a.decl)) := by
  unfold Inherits committedClasses
  constructor
  · intro h
    split at h
    · next u x hx =>
      obtain ⟨hu, hx⟩ := Registry.declaration_eq_ok_iff.mp hx
      obtain ⟨hreg, hid⟩ := hw.registered hu
      rw [(hw.wellFormed hreg).numbered a.decl x hx] at h
      exact ⟨u, hreg, hid, by rw [hx]; rfl, h⟩
    · cases h
  · rintro ⟨u, hu, hid, hsome, hb⟩
    obtain ⟨x, hx⟩ := Option.isSome_iff_exists.mp hsome
    rw [Registry.declaration_eq_ok_iff.mpr ⟨by rw [← hid]; exact hu, hx⟩]
    dsimp only
    rw [(hw.wellFormed hu).numbered a.decl x hx]
    exact hb

/-- In a fresh world nothing is inherited. -/
theorem not_inherits_start {r : Registry} (hr : (World.start r).Coherent)
    {a b : Symbol} : ¬ (World.start r).Inherits a b := by
  intro h
  obtain ⟨u, hu, -, -, hb⟩ := (inherits_iff hr).mp h
  have hempty : ((World.start r).slots u a.decl).Unresolved :=
    unresolved_of_fresh (hr.wellFormed hu) rfl
  rw [types_clause_of_unresolved hempty] at hb
  cases hb

/-- A class that nobody has touched inherits nothing. -/
theorem Inherits.touched (hw : w.Coherent) {a b : Symbol}
    (h : w.Inherits a b) : (w.states.find? a).isSome := by
  obtain ⟨u, hu, hid, -, hb⟩ := (inherits_iff hw).mp h
  cases hs : w.states.find? a with
  | some s => rfl
  | none =>
      have ha : u.symbol a.decl = a := by
        rw [CompilationUnit.symbol, hid]
      have hempty : (w.slots u a.decl).Unresolved :=
        unresolved_of_fresh (hw.wellFormed hu) (by rw [ha]; exact hs)
      rw [types_clause_of_unresolved hempty] at hb
      cases hb

/-- Inheritance does not change while no clause moves. -/
theorem Unmoved.inherits_iff (h : v.Unmoved w) (hv : v.Coherent)
    (hw : w.Coherent) {a b : Symbol} : w.Inherits a b ↔ v.Inherits a b := by
  rw [World.inherits_iff hw, World.inherits_iff hv]
  constructor
  · rintro ⟨u, hu, hid, hsome, hb⟩
    by_cases hreg : v.Registered u
    · rw [h.clause hreg] at hb
      exact ⟨u, hreg, hid, hsome, hb⟩
    · have hempty := unresolved_of_fresh (hw.wellFormed hu)
        (h.fresh u a.decl hu hreg)
      rw [types_clause_of_unresolved hempty] at hb
      cases hb
  · rintro ⟨u, hu, hid, hsome, hb⟩
    refine ⟨u, h.later.registered hu, hid, hsome, ?_⟩
    rw [h.clause hu]
    exact hb

/-- What a class of a registered unit refers to is read off its clause, which
is empty where there is no declaration. -/
theorem Grounded.committedClasses_eq (hw : w.Grounded) {c : Symbol}
    (hu : w.Registered u) (hid : u.id = c.unit) : w.committedClasses c =
      ResolvedType.classes (Slot.types (w.clause u c.decl)) := by
  have hunit : w.registry.unit? c.unit = some u := by
    rw [← hid]
    exact hu
  unfold committedClasses
  cases hx : u.decl? c.decl with
  | some x =>
      rw [Registry.declaration_eq_ok_iff.mpr ⟨hunit, hx⟩]
      dsimp only
      rw [(hw.coherent.wellFormed hu).numbered c.decl x hx]
  | none =>
      have hempty : ResolvedType.classes (Slot.types (w.clause u c.decl)) =
          [] := by
        refine List.eq_nil_iff_forall_not_mem.mpr fun b hb => ?_
        obtain ⟨x, hx', -⟩ := hw.marked u c.decl hu b hb
        rw [hx] at hx'
        cases hx'
      rw [hempty]
      split
      · next v x hx' =>
        obtain ⟨hv, hx'⟩ := Registry.declaration_eq_ok_iff.mp hx'
        obtain rfl : v = u := Option.some.inj (hv.symm.trans hunit)
        rw [hx] at hx'
        cases hx'
      · rfl

/-- Where there is no unit there is nothing to refer to. -/
theorem committedClasses_of_absent (hw : w.Coherent) {c : Symbol}
    (h : ∀ u, w.Registered u → u.id ≠ c.unit) : w.committedClasses c = [] := by
  unfold committedClasses
  split
  · next u x hx =>
    obtain ⟨hu, hid⟩ := hw.registered (Registry.declaration_eq_ok_iff.mp hx).1
    exact absurd hid (h u hu)
  · rfl

/-- A class refers to what it referred to if its clause is the same, in a unit
that was there before or that nobody has touched. -/
theorem Grounded.committedClasses_congr (hv : v.Grounded) (hw : w.Grounded)
    (h : v.Onward w) {c : Symbol}
    (hold : ∀ u, v.Registered u → u.id = c.unit →
      w.clause u c.decl = v.clause u c.decl)
    (hfresh : ∀ u, w.Registered u → ¬ v.Registered u →
      w.states.find? (u.symbol c.decl) = none) :
    w.committedClasses c = v.committedClasses c := by
  by_cases hthere : ∃ u, v.Registered u ∧ u.id = c.unit
  · obtain ⟨u, hu, hid⟩ := hthere
    rw [hw.committedClasses_eq (h.registered hu) hid,
      hv.committedClasses_eq hu hid, hold u hu hid]
  · have habsent : ∀ u, v.Registered u → u.id ≠ c.unit :=
      fun u hu hid => hthere ⟨u, hu, hid⟩
    rw [committedClasses_of_absent hv.coherent habsent]
    by_cases hnew : ∃ u, w.Registered u ∧ u.id = c.unit
    · obtain ⟨u, hu, hid⟩ := hnew
      have hempty : (w.slots u c.decl).Unresolved :=
        unresolved_of_fresh (hw.coherent.wellFormed hu)
          (hfresh u hu fun hreg => habsent u hreg hid)
      rw [hw.committedClasses_eq hu hid, types_clause_of_unresolved hempty]
      rfl
    · exact committedClasses_of_absent hw.coherent
        fun u hu hid => hnew ⟨u, hu, hid⟩

/-- So it does while no clause moves. -/
theorem Unmoved.committedClasses (h : v.Unmoved w) (hv : v.Grounded)
    (hw : w.Grounded) (c : Symbol) :
    w.committedClasses c = v.committedClasses c :=
  hv.committedClasses_congr hw h.later (fun _ hu _ => h.clause hu c.decl)
    fun u hu hnew => h.fresh u c.decl hu hnew

/-- Registering and replacing units adds nothing to inheritance. -/
theorem Reregisters.inherits (h : v.Reregisters w) (hv : v.Coherent)
    {a b : Symbol} (hab : w.Inherits a b) : v.Inherits a b := by
  have hw := h.coherent_world hv
  obtain ⟨u, hu, hid, hsome, hb⟩ := (World.inherits_iff hw).mp hab
  refine (World.inherits_iff hv).mpr ⟨u, ?_, hid, hsome, ?_⟩
  · refine (h.evolves.known u.id u hu).resolve_right fun hnew => ?_
    have hempty := unresolved_of_fresh (w := w) (d := a.decl)
      (hw.wellFormed hu) (by rw [h.states]; exact hv.fresh (u.symbol _) hnew)
    rw [types_clause_of_unresolved hempty] at hb
    cases hb
  · rwa [clause, slots, state, h.states] at hb

/-- A class whose clause is not final inherits nothing. -/
theorem Grounded.done_of_inherits (hw : w.Grounded) {a b : Symbol}
    (h : w.Inherits a b) : w.Done a := by
  obtain ⟨u, hu, hid, -, hb⟩ := (inherits_iff hw.coherent).mp h
  obtain ⟨x, hx, -, -, hle⟩ := hw.marked u a.decl hu b hb
  have hknown : w.registry.Known a := by
    have := hw.coherent.known hu a.decl
    rwa [CompilationUnit.symbol, hid] at this
  exact .of_unit hknown hu hid fun _ _ _ _ => hle

-- ======================================================== filling a clause

end World

namespace Computed

variable {r : Computed} {s : Slots}

/-- The slots of a class once a result was filled in. -/
theorem fill_eq (r : Computed) (s : Slots) : ∃ ds, r.fill s = { s with
    supertypes := if r.isAlias then s.supertypes
      else r.types.map Slot.resolved
    expansion := if r.isAlias then (r.types.map Slot.resolved).head?
      else s.expansion
    diagnostics := ds } := by
  unfold fill
  dsimp only
  split
  · exact Slots.report_eq .supertypes r.errors { s with
      expansion := (r.types.map Slot.resolved).head? }
  · exact Slots.report_eq .supertypes r.errors { s with
      supertypes := r.types.map Slot.resolved }

/-- The supertypes once a result was filled in. -/
theorem supertypes_fill : (r.fill s).supertypes =
    if r.isAlias then s.supertypes else r.types.map Slot.resolved := by
  obtain ⟨ds, hds⟩ := r.fill_eq s
  rw [hds]

/-- The expansion once a result was filled in. -/
theorem expansion_fill : (r.fill s).expansion =
    if r.isAlias then (r.types.map Slot.resolved).head? else s.expansion := by
  obtain ⟨ds, hds⟩ := r.fill_eq s
  rw [hds]

/-- Filling a result in leaves the import table. -/
theorem imports_fill : (r.fill s).imports = s.imports := by
  obtain ⟨ds, hds⟩ := r.fill_eq s
  rw [hds]

end Computed

/-- The types of resolved slots. -/
theorem Slot.types_map_resolved (l : List ResolvedType) :
    Slot.types (l.map Slot.resolved) = l := by
  induction l with
  | nil => rfl
  | cons t rest ih =>
      rw [List.map_cons, Slot.types, List.filterMap_cons]
      exact congrArg _ ih

namespace World

variable {v w : World}

variable {u : CompilationUnit} {x : Declaration} {c : Symbol} {r : Computed}

/-- Only the slots of the class that was filled in have changed. -/
theorem slots_filled (hu : w.Registered u) (d : DeclId) {v : CompilationUnit}
    (hv : w.Registered v) (e : DeclId) (hne : ¬ (u = v ∧ d = e)) :
    (w.filled u d r).slots v e = w.slots v e := by
  rw [slots, filled, state_setState hu hv, if_neg hne]
  rfl

/-- So no other clause has. -/
theorem clause_filled (hu : w.Registered u) (d : DeclId) {v : CompilationUnit}
    (hv : w.Registered v) (e : DeclId) (hne : ¬ (u = v ∧ d = e)) :
    (w.filled u d r).clause v e = w.clause v e := by
  refine clause_eq ?_
  rw [slots_filled hu d hv e hne]
  exact .refl _

/-- Nor has what is beside others. -/
theorem spare_filled (hu : w.Registered u) (d : DeclId) {v : CompilationUnit}
    (hv : w.Registered v) (e : DeclId) (hne : ¬ (u = v ∧ d = e)) :
    (w.filled u d r).spare v e = w.spare v e := by
  refine spare_eq ?_
  rw [slots_filled hu d hv e hne]
  exact .refl _

/-- No import table has changed. -/
theorem imports_filled (hu : w.Registered u) (d : DeclId)
    {v : CompilationUnit} (hv : w.Registered v) (e : DeclId) :
    ((w.filled u d r).slots v e).imports = (w.slots v e).imports := by
  rw [slots, filled, state_setState hu hv]
  split
  · next h =>
    obtain ⟨rfl, rfl⟩ := h
    exact Computed.imports_fill
  · rfl

/-- The new clause is what was filled in: all of it, or the first type of an
alias. -/
theorem clause_filled_self_eq (hx : u.decl? c.decl = some x)
    (hr : r.isAlias = true ↔ x.kind = .typeAlias) :
    (w.filled u c.decl r).clause u c.decl =
      (if r.isAlias = true then r.types.take 1 else r.types).map
        Slot.resolved := by
  have hkind : u.kind? c.decl = some x.kind := by
    rw [CompilationUnit.kind?, hx]
    rfl
  unfold clause
  dsimp only
  rw [hkind, slots, filled, state_setState_self, Computed.supertypes_fill,
    Computed.expansion_fill]
  by_cases hk : x.kind = .typeAlias
  · rw [if_pos (congrArg some hk), hr.mpr hk, if_pos rfl, if_pos rfl]
    cases r.types with
    | nil => rfl
    | cons t rest => rfl
  · have halias : ¬ r.isAlias = true := fun h => hk (hr.mp h)
    rw [if_neg fun h => hk (Option.some.inj h), if_neg halias, if_neg halias]

/-- So nothing is in it that was not filled in. -/
theorem clause_filled_self (hx : u.decl? c.decl = some x)
    (hr : r.isAlias = true ↔ x.kind = .typeAlias) :
    ((w.filled u c.decl r).clause u c.decl).Sublist
      (r.types.map Slot.resolved) := by
  rw [clause_filled_self_eq hx hr]
  refine List.Sublist.map _ ?_
  split
  · exact List.take_sublist 1 _
  · exact .refl _

/-- And all that was, if an alias has one type at most. -/
theorem classes_filled (hx : u.decl? c.decl = some x)
    (hr : r.isAlias = true ↔ x.kind = .typeAlias)
    (hone : r.isAlias = true → r.references.length ≤ 1) :
    ResolvedType.classes (Slot.types ((w.filled u c.decl r).clause u c.decl)) =
      r.classes := by
  have hall : (if r.isAlias = true then r.types.take 1 else r.types) =
      r.types := by
    split
    · next halias =>
      refine List.take_of_length_le ?_
      rw [Computed.types, List.length_map]
      exact hone halias
    · rfl
  rw [clause_filled_self_eq hx hr, hall, Slot.types_map_resolved]
  rfl

/-- What is beside it is left. -/
theorem spare_filled_self (hx : u.decl? c.decl = some x)
    (hr : r.isAlias = true ↔ x.kind = .typeAlias) :
    (w.filled u c.decl r).spare u c.decl = w.spare u c.decl := by
  have hkind : u.kind? c.decl = some x.kind := by
    rw [CompilationUnit.kind?, hx]
    rfl
  unfold spare
  dsimp only
  rw [hkind, slots, filled, state_setState_self, Computed.supertypes_fill,
    Computed.expansion_fill]
  by_cases hk : x.kind = .typeAlias
  · rw [if_pos (congrArg some hk), if_pos (congrArg some hk), hr.mpr hk,
      if_pos rfl]
  · have halias : ¬ r.isAlias = true := fun h => hk (hr.mp h)
    rw [if_neg fun h => hk (Option.some.inj h),
      if_neg fun h => hk (Option.some.inj h), if_neg halias]

/-- The new clause refers to what the result did. -/
theorem mem_classes_filled (hx : u.decl? c.decl = some x)
    (hr : r.isAlias = true ↔ x.kind = .typeAlias) {b : Symbol}
    (hb : b ∈ ResolvedType.classes
      (Slot.types ((w.filled u c.decl r).clause u c.decl))) :
    b ∈ r.classes := by
  have hsub := ((clause_filled_self (w := w) hx hr).filterMap
    Slot.type?).filterMap ResolvedType.class?
  have hmem := hsub.subset hb
  rw [← Slot.types, Slot.types_map_resolved] at hmem
  exact hmem

/-- It has no more references. -/
theorem arms_filled (hx : u.decl? c.decl = some x)
    (hr : r.isAlias = true ↔ x.kind = .typeAlias) :
    Slot.arms ((w.filled u c.decl r).clause u c.decl) ≤ r.classes.length :=
  calc Slot.arms ((w.filled u c.decl r).clause u c.decl)
      ≤ Slot.arms (r.types.map Slot.resolved) :=
        (clause_filled_self hx hr).countP_le
    _ = r.classes.length := Slot.arms_resolved r.types

/-- Filling in the result of an open class leaves a world grounded. -/
theorem Grounded.filled (hw : w.Grounded) (hu : w.Registered u)
    (hx : u.decl? c.decl = some x) (hk : x.kind.isClassLike = true)
    (he : x.isEligible = true) (hfits : w.Fits x r) :
    (w.filled u c.decl r).Grounded := by
  have hlater := later_setState hu (raised_filled w u c.decl r)
  constructor
  case coherent =>
    exact hw.coherent.setState hu (raised_filled w u c.decl r)
  case referring =>
    constructor
    case clause =>
      intro v d hv b hmem
      by_cases h : u = v ∧ c.decl = d
      · obtain ⟨rfl, rfl⟩ := h
        exact hfits.classes b (mem_classes_filled hx hfits.isAlias hmem)
      · rw [clause_filled hu c.decl hv d h] at hmem
        exact hw.referring.clause v d hv b hmem
    case width =>
      intro v d y hv hy
      by_cases h : u = v ∧ c.decl = d
      · obtain ⟨rfl, rfl⟩ := h
        obtain rfl : y = x := Option.some.inj (hy.symm.trans hx)
        exact Nat.lt_of_le_of_lt (arms_filled hx hfits.isAlias) hfits.width
      · rw [clause_filled hu c.decl hv d h]
        exact hw.referring.width v d y hv hy
    case spare =>
      intro v d hv
      by_cases h : u = v ∧ c.decl = d
      · obtain ⟨rfl, rfl⟩ := h
        rw [spare_filled_self hx hfits.isAlias]
        exact hw.referring.spare u c.decl hv
      · rw [spare_filled hu c.decl hv d h]
        exact hw.referring.spare v d hv
    case unmarked =>
      intro v d hv hopen
      by_cases h : u = v ∧ c.decl = d
      · obtain ⟨rfl, rfl⟩ := h
        exact absurd (supertypes_le_filled w u c.decl r) hopen
      · rw [clause_filled hu c.decl hv d h]
        exact hw.referring.unmarked v d hv fun hle =>
          hopen (Phase.le_trans hle (hlater.own v d hv))
    case imports =>
      intro v t hv ht
      exact t.lasting_genuine w _ hlater
        (hw.referring.imports v t hv (imports_filled hu c.decl hv .root ▸ ht))
  case marked =>
    intro v d hv b hmem
    by_cases h : u = v ∧ c.decl = d
    · obtain ⟨rfl, rfl⟩ := h
      refine ⟨x, hx, hk, he, ?_⟩
      rw [own, World.filled, state_setState_self]
      exact Phase.goal_le_raise _ _
    · rw [clause_filled hu c.decl hv d h] at hmem
      obtain ⟨y, hy, hky, hey, hle⟩ := hw.marked v d hv b hmem
      exact ⟨y, hy, hky, hey, Phase.le_trans hle (hlater.own v d hv)⟩

end World

-- ================================================== structural conditions

/-- A condition that nothing breaks that leaves clauses alone. -/
structure Structural (J : World → Prop) : Prop where
  coherent : ∀ w, J w → w.Coherent
  unmoved : ∀ v w, J v → v.Unmoved w → w.Coherent → J w

namespace Structural

variable {J : World → Prop} {u : CompilationUnit}

/-- Such a condition survives everything that moves no marker. -/
theorem idle (hJ : Structural J) : Idle J where
  coherent := hJ.coherent
  classifier := fun w k hw => hJ.unmoved w _ hw
    (unmoved_classifier (hJ.coherent w hw) k) ((hJ.coherent w hw).classifier k)
  counters := fun w c hc hw => hJ.unmoved w _ hw (unmoved_of_eq rfl rfl hc)
    ((Steady.coherent_self .bodies).counters w c hc (hJ.coherent w hw))
  touches := fun v w hv h => hJ.unmoved v w hv h.unmoved
    ((hJ.coherent v hv).touches h)
  slots := fun w _ _ s hw hu _ hs => hJ.unmoved w _ hw
    (unmoved_setState hu (.of_slots .raw _ s) hs.supertypes hs.expansion
      fun _ ht => Or.inl (hs.imports ▸ ht))
    ((hJ.coherent w hw).setState hu (.of_slots .raw _ s))
  session := fun w s hw => hJ.unmoved w _ hw
    (unmoved_of_eq rfl rfl (Nat.le_refl _))
    ((Steady.coherent_self .bodies).session w s (hJ.coherent w hw))
  thread := fun w t hw => hJ.unmoved w _ hw
    (unmoved_of_eq rfl rfl (Nat.le_refl _))
    ((Steady.coherent_self .bodies).thread w t (hJ.coherent w hw))

/-- It survives markers being raised. -/
theorem raise (hJ : Structural J) {goal : Phase} {w : World} {d : DeclId}
    {s : DeclState} (hw : J w) (hu : w.Registered u)
    (hs : (w.state u d).Raised goal s) (hslots : s.slots = w.slots u d) :
    J (w.setState u d s) := by
  refine hJ.unmoved w _ hw (unmoved_setState hu hs ?_ ?_ fun t ht => Or.inl ?_)
    ((hJ.coherent w hw).setState hu hs)
  · rw [hslots]
  · rw [hslots]
  · rwa [hslots] at ht

/-- It survives what is written to a file. -/
theorem keepsFile (hJ : Structural J) (hu : ∀ w, J w → w.Registered u) :
    KeepsFile J u where
  imports := fun w table errors hw _ ht => by
    obtain ⟨ds, hds⟩ := Slots.report_eq .imports errors
      { w.slots u .root with imports := some table }
    rw [hds]
    refine hJ.unmoved w _ hw (unmoved_setState (hu w hw)
      (.of_slots .raw _ _) rfl rfl fun t h => Or.inr ?_)
      ((hJ.coherent w hw).setState (hu w hw) (.of_slots .raw _ _))
    cases h
    exact ht
  raise := fun w p hw _ => hJ.raise hw (hu w hw)
    (.of_own _ (Phase.le_refl p)) rfl

/-- What lasts may be added. -/
theorem and_lasting (hJ : Structural J) {R : World → Prop} (hR : Lasting R) :
    Structural fun w => J w ∧ R w where
  coherent := fun w hw => hJ.coherent w hw.1
  unmoved := fun v w hv h hw =>
    ⟨hJ.unmoved v w hv.1 h hw, hR v w h.later hv.2⟩

/-- Several such conditions at once are such a condition. -/
theorem all {ι : Type} [Inhabited ι] {F : ι → World → Prop}
    (h : ∀ i, Structural (F i)) : Structural fun w => ∀ i, F i w where
  coherent := fun w hw => (h default).coherent w (hw default)
  unmoved := fun v w hv hvw hw i => (h i).unmoved v w (hv i) hvw hw

/-- So is one of them. -/
theorem some {ι : Type} {F : ι → World → Prop}
    (h : ∀ i, Structural (F i)) : Structural fun w => ∃ i, F i w where
  coherent := fun w ⟨i, hw⟩ => (h i).coherent w hw
  unmoved := fun v w ⟨i, hv⟩ hvw hw => ⟨i, (h i).unmoved v w hv hvw hw⟩

end Structural

/-- Being grounded is such a condition. -/
theorem World.Grounded.structural : Structural World.Grounded :=
  ⟨fun _ hw => hw.coherent, fun _ _ hv h hw => hv.unmoved h hw⟩

end StagedResolve
