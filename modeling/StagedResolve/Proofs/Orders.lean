/-
Orders: when the order of requests does not matter for supertypes.

# What decides about a clause

Under a sound recursion every clause has a meaning that depends on the
registered units alone. Whatever requests come, in whatever order, each
clause is either as it was written or it is what it means, with the
references replaced that lie on a cycle (`Recursion.Spells`). So two
worlds that requests have led to agree about every class that was
resolved in both.

# What keeps it

A step that resolves no clause and marks no class leaves it
(`Recursion.Leaves`), and a walk marks only classes that it has run
sessions for. A session begins with a world that spells clauses as they
mean, learns what further ones mean, and writes that back; what it leaves
is closed, since all that it writes refers to classes that it met. Where
something was put off nothing is claimed.
-/
import StagedResolve.Proofs.Clauses
import StagedResolve.Proofs.Learning

namespace StagedResolve

open StagedResolve.Action World Relation

namespace Recursion

variable {p : Recursion} {v w : World} {u : CompilationUnit} {d : DeclId}

-- ======================================================= leaving things alone

/-- No clause was changed and no class marked, and import tables that were
stored are right. -/
structure Leaves (p : Recursion) (v w : World) : Prop where
  unmoved : v.Unmoved w
  registry : w.registry = v.registry
  imports : ∀ u t, v.Registered u → (w.slots u .root).imports = some t →
    (v.slots u .root).imports = some t ∨ p.Tabulates u t
  marked : ∀ u d, v.Registered u → u.HasClause d →
    .supertypes ≤ w.own u d → .supertypes ≤ v.own u d

/-- States and units are as they were. -/
theorem Leaves.of_eq (hr : w.registry = v.registry)
    (hs : w.states = v.states)
    (hd : v.counters.deferred ≤ w.counters.deferred) : p.Leaves v w := by
  refine ⟨unmoved_of_eq hr hs hd, hr, fun u t _ h => Or.inl ?_,
    fun u d _ _ h => ?_⟩
  · rwa [slots, state_eq hs] at h
  · rwa [World.own, state_eq hs] at h

/-- A state is set with the clause as it was. -/
theorem Leaves.setState {goal : Phase} {s : DeclState} (hu : w.Registered u)
    (hs : (w.state u d).Raised goal s)
    (hmeans : s.slots.SaysSame (w.slots u d))
    (himports : ∀ t, s.slots.imports = some t →
      (w.slots u d).imports = some t ∨ (t.Genuine w ∧ p.Tabulates u t))
    (hmarked : u.HasClause d → .supertypes ≤ s.own →
      .supertypes ≤ w.own u d) : p.Leaves w (w.setState u d s) := by
  refine ⟨unmoved_setState hu hs hmeans.1 hmeans.2 fun t ht =>
    (himports t ht).imp_right And.left, rfl, fun v t hv ht => ?_,
    fun v e hv he hle => ?_⟩
  · rw [slots, state_setState hu hv] at ht
    split at ht
    · next h =>
      obtain ⟨rfl, rfl⟩ := h
      exact (himports t ht).imp_right And.right
    · exact Or.inl ht
  · rw [World.own, state_setState hu hv] at hle
    split at hle
    · next h =>
      obtain ⟨rfl, rfl⟩ := h
      exact hmarked he hle
    · exact hle

/-- A condition that survives everything that leaves clauses alone. -/
structure Placid (p : Recursion) (J : World → Prop) : Prop where
  underlies : ∀ w, J w → p.Underlies w
  leaves : ∀ v w, J v → p.Leaves v w → w.Coherent → J w

namespace Placid

variable {J : World → Prop}

/-- Such a condition survives looking up and hooks. -/
theorem idle (hJ : p.Placid J) (hp : p.Sound) : Idle J where
  coherent := fun w hw => (hJ.underlies w hw).grounded.coherent
  classifier := fun w k hw => by
    -- there is nothing left to be built
    rw [classifier_of_settled ((hJ.underlies w hw).registry ▸ hp.settled)]
    exact hw
  counters := fun w c hc hw => hJ.leaves w _ hw (.of_eq rfl rfl hc)
    ((Steady.coherent_self .bodies).counters w c hc
      (hJ.underlies w hw).grounded.coherent)
  touches := fun v w hv h => hJ.leaves v w hv ⟨h.unmoved, h.registry,
      fun u _ hu ht => Or.inl ((h.slots u .root hu).imports ▸ ht),
      fun u d hu _ hle => h.own u d hu ▸ hle⟩
    ((hJ.underlies v hv).grounded.coherent.touches h)
  slots := fun w u d s hw hu _ hs => hJ.leaves w _ hw
    (.setState hu (.of_slots .raw _ s) ⟨hs.supertypes, hs.expansion⟩
      (fun _ ht => Or.inl (hs.imports ▸ ht)) fun _ hle => hle)
    ((hJ.underlies w hw).grounded.coherent.setState hu (.of_slots .raw _ s))
  session := fun w s hw => hJ.leaves w _ hw
    (.of_eq rfl rfl (Nat.le_refl _))
    ((Steady.coherent_self .bodies).session w s
      (hJ.underlies w hw).grounded.coherent)
  thread := fun w t hw => hJ.leaves w _ hw (.of_eq rfl rfl (Nat.le_refl _))
    ((Steady.coherent_self .bodies).thread w t
      (hJ.underlies w hw).grounded.coherent)

/-- What is no class may be marked. -/
theorem raise (hJ : p.Placid J) {goal : Phase} {s : DeclState} (hw : J w)
    (hu : w.Registered u) (hs : (w.state u d).Raised goal s)
    (hslots : s.slots = w.slots u d) (hd : ¬ u.HasClause d) :
    J (w.setState u d s) := by
  refine hJ.leaves w _ hw (.setState hu hs ?_ (fun t ht => Or.inl ?_)
    fun h => absurd h hd)
    ((hJ.underlies w hw).grounded.coherent.setState hu hs)
  · rw [hslots]
    exact ⟨rfl, rfl⟩
  · rwa [hslots] at ht

/-- What lasts may be added. -/
theorem and_lasting (hJ : p.Placid J) {R : World → Prop} (hR : Lasting R) :
    p.Placid fun w => J w ∧ R w where
  underlies := fun w hw => hJ.underlies w hw.1
  leaves := fun v w hv h hw =>
    ⟨hJ.leaves v w hv.1 h hw, hR v w h.unmoved.later hv.2⟩

end Placid

/-- A world of the same units stays one. -/
theorem Underlies.leaves (hv : p.Underlies v) (h : p.Leaves v w)
    (hw : w.Coherent) : p.Underlies w where
  grounded := hv.grounded.unmoved h.unmoved hw
  registry := h.registry.trans hv.registry
  imports := fun u t hu ht => by
    rw [World.Registered, h.registry] at hu
    exact (h.imports u t hu ht).elim (hv.imports u t hu) id

/-- A class that goes through the phases has a final clause exactly if it
is marked. -/
theorem done_iff (hw : w.Coherent) (hu : w.Registered u)
    (hd : u.HasClause d) :
    w.Done (u.symbol d) ↔ .supertypes ≤ w.own u d :=
  ⟨fun h => h.marked_self hu hd,
    fun h => .of_unit (hw.known hu d) hu rfl fun _ _ _ _ => h⟩

/-- Clauses are spelled as they were. -/
theorem Spells.leaves (hv : p.Spells v) (h : p.Leaves v w) : p.Spells w := by
  have hreg : ∀ {u}, w.Registered u → v.Registered u := fun hu => by
    rwa [World.Registered, h.registry] at hu
  have hsame : ∀ u d, v.Registered u →
      (w.slots u d).SaysSame (v.slots u d) := fun u d hu =>
    ⟨h.unmoved.supertypes u d hu, h.unmoved.expansion u d hu⟩
  refine ⟨fun u d hu hopen => ?_, fun u d hu hd hle => ?_⟩
  · refine (hsame u d (hreg hu)).trans (hv.unmarked u d (hreg hu) fun hd => ?_)
    exact hopen ⟨hd.1, Phase.le_trans hd.2 (h.unmoved.later.own u d (hreg hu))⟩
  · obtain ⟨m, q, hm, hcut, hmeans⟩ := hv.marked u d (hreg hu) hd
      (h.marked u d (hreg hu) hd hle)
    exact ⟨m, q, hm, hcut, (hsame u d (hreg hu)).trans hmeans⟩

/-- What is final still refers to nothing that is not. -/
theorem Completes.leaves (hv : p.Completes v) (hp : p.Sound)
    (hunderlies : p.Underlies v) (h : p.Leaves v w) (hw : w.Coherent) :
    p.Completes w := by
  refine ⟨hv.toSpells.leaves h, fun a b hab ha => ?_⟩
  refine lasting_done b v w h.unmoved.later (hv.closed a b hab ?_)
  obtain ⟨u, d, hu, rfl, hd⟩ := hp.hasClause
    (hab.isClass hp.coherent hp.settled).2
  have hu : v.Registered u := by rwa [World.Registered, hunderlies.registry]
  rw [done_iff hw (h.unmoved.later.registered hu) hd] at ha
  exact (done_iff hunderlies.grounded.coherent hu hd).mpr
    (h.marked u _ hu hd ha)

/-- What holds between any two steps: the world is one of the units of the
recursion, and as long as nothing was put off its clauses are spelled as
they should. -/
structure Governs (p : Recursion) (w : World) : Prop where
  underlies : p.Underlies w
  completes : w.counters.deferred = 0 → p.Completes w

/-- That survives everything that leaves clauses alone. -/
theorem Governs.placid (hp : p.Sound) : p.Placid p.Governs where
  underlies := fun _ hw => hw.underlies
  leaves := fun v w hv h hw => by
    refine ⟨hv.underlies.leaves h hw, fun hzero => ?_⟩
    have hle := h.unmoved.later.deferred
    exact (hv.completes (by omega)).leaves hp hv.underlies h hw

-- ============================================================ writing back

/-- What holds while the results of a session are written back that was
closed in some world. -/
structure Rewriting (p : Recursion) (v w : World) : Prop where
  underlies : p.Underlies w
  later : v.Onward w
  spells : w.counters.deferred = 0 → p.Spells w
  fresh : ∀ u d, w.Registered u → u.HasClause d →
    .supertypes ≤ w.own u d → .supertypes ≤ v.own u d ∨
      ∃ q, v.session.result? (u.symbol d) = some q ∧ q.isPending = true

namespace Rewriting

/-- Nothing has been written yet. -/
theorem start (hv : p.Governs v) : p.Rewriting v v where
  underlies := hv.underlies
  later := .refl v
  spells := fun hzero => (hv.completes hzero).toSpells
  fresh := fun _ _ _ _ hle => Or.inl hle

/-- It survives everything that leaves clauses alone. -/
theorem placid (p : Recursion) (v : World) : p.Placid (p.Rewriting v) where
  underlies := fun _ hw => hw.underlies
  leaves := fun w w' hw h hw' => by
    refine ⟨hw.underlies.leaves h hw', hw.later.trans h.unmoved.later,
      fun hzero => ?_, fun u d hu hd hle => ?_⟩
    · have hle := h.unmoved.later.deferred
      exact (hw.spells (by omega)).leaves h
    · have hu : w.Registered u := by rwa [World.Registered, h.registry] at hu
      exact hw.fresh u d hu hd (h.marked u d hu hd hle)

/-- What a session has found out whose results are written back. -/
def Cuts (p : Recursion) (v : World) : Prop :=
  v.counters.deferred = 0 → ∀ c q, v.session.result? c = some q →
    q.isPending = true →
    p.meaning? c = some q ∧ p.Cut c q (v.session.cutResult c q)

/-- A result that is written back spells its clause as it should. -/
theorem filled (hw : p.Rewriting v w) (hcuts : Cuts p v)
    (hu : w.Registered u) {x : Declaration} {q : Computed}
    (hd : u.HasClause d) (hx : u.decl? d = some x)
    (hq : v.session.result? (u.symbol d) = some q)
    (hpending : q.isPending = true)
    (hfits : w.Fits x (v.session.cutResult (u.symbol d) q))
    (hlt : ¬ .supertypes ≤ w.own u d) :
    p.Rewriting v (w.filled u d (v.session.cutResult (u.symbol d) q)) := by
  have hlater := later_setState hu
    (raised_filled w u d (v.session.cutResult (u.symbol d) q))
  have hother : ∀ u' d', w.Registered u' → ¬ (u = u' ∧ d = d') →
      (w.filled u d (v.session.cutResult (u.symbol d) q)).state u' d' =
        w.state u' d' := fun u' d' hu' hne => by
    rw [World.filled, state_setState hu hu', if_neg hne]
  have hself : (w.filled u d (v.session.cutResult (u.symbol d) q)).slots u d =
      (v.session.cutResult (u.symbol d) q).fill (w.slots u d) := by
    rw [slots, World.filled, state_setState_self]
  have hmarked : .supertypes ≤
      (w.filled u d (v.session.cutResult (u.symbol d) q)).own u d := by
    rw [World.own, World.filled, state_setState_self]
    exact Phase.goal_le_raise _ _
  have he := hd.eligible
  rw [CompilationUnit.isEligible, hx] at he
  have hk := hd.classLike
  rw [CompilationUnit.isClassLike, CompilationUnit.kind?, hx] at hk
  constructor
  case underlies =>
    refine ⟨hw.underlies.grounded.filled (c := u.symbol d) hu hx hk he hfits,
      hw.underlies.registry, fun u' t hu' ht => ?_⟩
    rw [imports_filled hu d hu'] at ht
    exact hw.underlies.imports u' t hu' ht
  case later => exact hw.later.trans hlater
  case spells =>
    intro hzero
    have hw' : p.Spells w := hw.spells hzero
    refine ⟨fun u' d' hu' hopen => ?_, fun u' d' hu' hd' hle => ?_⟩
    · have hne : ¬ (u = u' ∧ d = d') := by
        rintro ⟨rfl, rfl⟩
        exact hopen ⟨hd, hmarked⟩
      rw [World.own, hother u' d' hu' hne] at hopen
      rw [slots, hother u' d' hu' hne]
      exact hw'.unmarked u' d' hu' hopen
    · by_cases h : u = u' ∧ d = d'
      · obtain ⟨rfl, rfl⟩ := h
        have hle := hw.later.deferred
        obtain ⟨hm, hcut⟩ := hcuts (Nat.le_zero.mp (hzero ▸ hle)) _ q hq hpending
        refine ⟨q, _, hm, hcut, ?_⟩
        rw [hself]
        exact (hw'.unmarked u d hu fun h => hlt h.2).fill _
      · rw [World.own, hother u' d' hu' h] at hle
        obtain ⟨m, q', hm, hcut, hmeans⟩ := hw'.marked u' d' hu' hd' hle
        refine ⟨m, q', hm, hcut, ?_⟩
        rwa [slots, hother u' d' hu' h]
  case fresh =>
    intro u' d' hu' hd' hle
    by_cases h : u = u' ∧ d = d'
    · obtain ⟨rfl, rfl⟩ := h
      exact Or.inr ⟨q, hq, hpending⟩
    · rw [World.own, hother u' d' hu' h] at hle
      exact hw.fresh u' d' hu' hd' hle

/-- It survives results being written back. -/
theorem tended (hp : p.Sound) (hcuts : Cuts p v) (own : UnitId) (t : Thread) :
    Tended (p.Rewriting v) fun c r => (∃ q, v.session.result? c = some q ∧
      q.isPending = true ∧ r = v.session.cutResult c q) ∧
        t.Free own c.unit :=
  { (placid p v).idle hp with
    referring := fun _ hw => hw.underlies.grounded.referring
    members := members_triple fun w u d s hw hu hd hs hslots =>
      (placid p v).raise hw hu hs hslots fun hclass =>
        hclass.not_passed (hw.underlies.grounded.coherent.wellFormed hu) hd
    fill := by
      rintro w u x c r hw hu hid hx hk he ⟨⟨q, hq, hpending, rfl⟩, -⟩ hfits hlt
      obtain ⟨unit, d⟩ := c
      obtain rfl : u.id = unit := hid
      have hclass : u.isClassLike d = true := by
        rw [CompilationUnit.isClassLike, CompilationUnit.kind?, hx]
        exact hk
      have heligible : u.isEligible d = true := by
        rw [CompilationUnit.isEligible, hx]
        exact he
      have hplace := hp.place u d (by rwa [← hw.underlies.registry]) hclass
        heligible
      exact hw.filled hcuts hu ⟨hclass, heligible, hplace⟩ hx hq hpending hfits
        hlt }

/-- When everything has been dealt with the world is as it should be. -/
theorem governs (hw : p.Rewriting v w) (hp : p.Sound) (hv : p.Governs v)
    (hcuts : Cuts p v) {own : UnitId} {t : Thread}
    (hclosed : v.Closed own t)
    (hdealt : ∀ c r, v.session.result? c = some r → Kept own t c w) :
    p.Governs w := by
  refine ⟨hw.underlies, fun hzero => ⟨hw.spells hzero, fun a b hab ha => ?_⟩⟩
  have hzero' : v.counters.deferred = 0 :=
    Nat.le_zero.mp (hzero ▸ hw.later.deferred)
  obtain ⟨u, d, hu, rfl, hd⟩ := hp.hasClause
    (hab.isClass hp.coherent hp.settled).2
  have hu' : w.Registered u := by
    rwa [World.Registered, hw.underlies.registry]
  have hu : v.Registered u := by
    rwa [World.Registered, hv.underlies.registry]
  rw [done_iff hw.underlies.grounded.coherent hu' hd] at ha
  rcases hw.fresh u d hu' hd ha with hold | ⟨q, hq, hpending⟩
  · refine lasting_done b v w hw.later ((hv.completes hzero').closed _ b hab ?_)
    exact (done_iff hv.underlies.grounded.coherent hu hd).mpr hold
  · -- what was written refers to what was met
    rw [Refers, edges_eq (hcuts hzero' _ q hq hpending).1] at hab
    have hcommitted := Computed.not_committed hpending
    have hmet := (hclosed.followed.classes _ q hq hcommitted b hab).resolve_right
      List.not_mem_nil
    obtain ⟨r, hr⟩ := hclosed.followed.result? hmet
    rcases hdealt b r hr with hdone | ⟨-, -, hpos⟩
    · exact hdone
    · omega

end Rewriting

-- ============================================================ import tables

namespace Tables

/-- Writing to anything but import tables leaves them right. -/
theorem writeState {g : Guard} {f : DeclState → DeclState}
    (hu : p.registry.unit? u.id = some u)
    (hf : ∀ s, (f s).slots.imports = s.slots.imports) (d : DeclId) :
    Triple p.Tables (Action.writeState g u d f) (fun _ => p.Tables)
      fun _ => True := by
  refine .of_runs (fun w _ w' hw hrun => ?_) fun _ _ _ _ _ => trivial
  unfold Action.writeState at hrun
  split at hrun
  · cases hrun
  · split at hrun
    · cases hrun
    · cases hrun
      have hreg : w.Registered u := by rwa [World.Registered, hw.registry]
      refine ⟨hw.registry, fun v t hv ht => ?_, hw.session⟩
      rw [slots, state_setState hreg hv] at ht
      split at ht
      · next h =>
        obtain ⟨rfl, rfl⟩ := h
        rw [hf] at ht
        exact hw.stored u t hv ht
      · exact hw.stored v t hv ht

/-- Writing the result of a class back leaves them right. -/
theorem applyTo {g : Guard} (hu : p.registry.unit? u.id = some u)
    (c : Symbol) :
    Triple p.Tables (Action.applyTo g u c) (fun _ => p.Tables)
      fun _ => True := by
  have hown : ∀ d, Triple p.Tables (Action.raiseOwn g u d .supertypes)
      (fun _ => p.Tables) fun _ => True := writeState hu fun _ => rfl
  have hbelow : ∀ d, Triple p.Tables (Action.raiseBelow g u d .supertypes)
      (fun _ => p.Tables) fun _ => True := writeState hu fun _ => rfl
  refine .read_then fun found => ?_
  cases found with
  | none => exact .pure fun _ hw => hw
  | some r =>
      refine .read_then fun own => ?_
      split
      · exact .pure fun _ hw => hw
      · refine .bind (writeState hu (fun _ => Computed.imports_fill) _)
          fun _ => .bind (hown _) fun _ => .read_then fun isSeed => ?_
        split
        · exact .each fun d _ => .bind (hown d) fun _ => hbelow d
        · exact .pure fun _ hw => hw

/-- Dropping a guard leaves them right. -/
theorem holding {g : Guard} {x : Action Unit}
    (h : Triple p.Tables x (fun _ => p.Tables) fun _ => True) :
    Triple p.Tables (Action.holding g x) (fun _ => p.Tables)
      fun _ => True :=
  Triple.holding h (fun _ _ hw => hw.of_eq rfl rfl rfl) fun _ _ => trivial

/-- So does writing the results for one unit back. -/
theorem applyUnit (hp : p.Sound) {ctx : Context}
    (hu : p.registry.unit? ctx.unit.id = some ctx.unit) (id : UnitId)
    (classes : List Symbol) :
    Triple p.Tables (Action.applyUnit ctx id classes) (fun _ => p.Tables)
      fun _ => True := by
  unfold Action.applyUnit
  split
  · exact .each fun c _ => applyTo hu c
  · have hunit : Triple p.Tables (Action.sessionUnit? id) (fun found w =>
        p.Tables w ∧ found = p.registry.unit? id) fun _ => True := by
      refine .of_runs (fun w found w' hw hrun => ?_) fun _ _ _ _ _ => trivial
      obtain ⟨hfound, htables, -⟩ := hw.sessionUnit? hp hrun
      exact ⟨htables, hfound⟩
    refine .bind hunit fun found => .assume fun hfound => ?_
    cases found with
    | none => exact .pure fun _ hw => hw
    | some u =>
        have hreg : p.registry.unit? u.id = some u := by
          rw [hp.coherent.named id u hfound.symm]
          exact hfound.symm
        refine .bind (Q := fun _ => p.Tables) (fun w hw => ?_) fun guard => ?_
        · exact hw.of_eq rfl rfl rfl
        · cases guard with
          | none => exact .update fun w hw => hw.of_eq rfl rfl rfl
          | some g =>
              exact holding (.each fun c _ => applyTo hreg c)

/-- So does writing all results back. -/
theorem applyResults (hp : p.Sound) {ctx : Context}
    (hu : p.registry.unit? ctx.unit.id = some ctx.unit) :
    Triple p.Tables (Action.applyResults ctx) (fun _ => p.Tables)
      fun _ => True := by
  refine .read_then fun pending => .each fun id _ => ?_
  refine .bind (applyUnit hp hu id _) fun _ => .update fun w hw => ?_
  exact hw.of_eq rfl rfl (Session.imports_modifyEach _ _ _)

end Tables

-- ================================================================= sessions

/-- What a session knows between two calls. -/
structure Knows (p : Recursion) (w : World) : Prop where
  tables : ∀ u t, w.Registered u → w.session.imports.find? u.id = some t →
    p.Tabulates u t
  result : ∀ c r, w.session.result? c = some r → p.Shows c r

namespace Knows

/-- That depends on the units and the session alone. -/
theorem of_eq (h : p.Knows v) (hr : w.registry = v.registry)
    (hs : w.session = v.session) : p.Knows w where
  tables := fun u t hu ht => by
    rw [World.Registered, hr] at hu
    rw [hs] at ht
    exact h.tables u t hu ht
  result := fun c r hc => h.result c r (hs ▸ hc)

/-- A session that has computed nothing knows nothing wrong. -/
theorem start (w : World) : p.Knows { w with session := .start } where
  tables := fun _ _ _ h => by cases h
  result := fun _ _ h => by cases h

/-- It is what the next call begins with. -/
theorem learns {own : UnitId} {t : Thread} (h : p.Knows w)
    (hw : p.Underlies w) (hrest : Rested own t w) : p.LearnsAll w w where
  registry := rfl
  states := rfl
  deferred := rfl
  tables := ⟨hw.registry, hw.imports, h.tables⟩
  result := fun c r hr => by
    refine ⟨h.result c r hr, fun hpending => ?_⟩
    have happlied := (hrest.kept c r hr (Computed.not_committed hpending)).1
    rw [Computed.isPending, happlied, Bool.not_true, Bool.and_false] at hpending
    cases hpending
  underWay := hrest.followed.idle

/-- It is what a call ends with whose results were written back. -/
theorem written {v₀ : World} (hv : p.LearnsAll v₀ v)
    (hcuts : ∀ c q, v.session.result? c = some q → q.isPending = true →
      p.Cut c q (v.session.cutResult c q))
    (htables : p.Tables w)
    (hrevises : v.session.Revises v.session.written w.session) :
    p.Knows w where
  tables := htables.session
  result := fun c r hr => by
    rw [hrevises.result] at hr
    obtain ⟨q, hq, rfl⟩ := Option.map_eq_some_iff.mp hr
    have hshows := (hv.result c q hq).1
    unfold Session.written
    split
    · next hpending =>
      have hm := hshows.pending hpending
      have hcut := hcuts c q hq hpending
      refine ⟨fun h => ?_, fun b hb => ?_, fun hcycle => ?_⟩
      · rw [Computed.isPending, Bool.not_true, Bool.and_false] at h
        cases h
      · exact hshows.classes b (hcut.mem_classes hb)
      · rw [edges_eq hm]
        exact hcut.classes_eq hm hcycle
    · exact hshows

end Knows

/-- A session between two calls. What it knows is claimed only if nothing
was put off. -/
def AtRest (p : Recursion) (own : UnitId) (t : Thread) (w : World) : Prop :=
  Rested own t w ∧ (w.counters.deferred = 0 → p.Knows w)

variable {own : UnitId} {t : Thread}

/-- Looking up and hooks leave a session at rest. -/
theorem calm_atRest (hp : p.Sound) {I : World → Prop} (hI : Idle I)
    (hunits : ∀ w, I w → p.Underlies w) :
    Calm fun w => I w ∧ p.AtRest own t w := by
  have hrested : Calm fun w => I w ∧ Rested own t w := calm_rested hI
  have hknows : ∀ {v w}, p.AtRest own t v → v.Onward w →
      w.registry = v.registry → w.session = v.session →
      w.counters.deferred = 0 → p.Knows w := fun hv hlater hr hs hzero =>
    (hv.2 (Nat.le_zero.mp (hzero ▸ hlater.deferred))).of_eq hr hs
  constructor
  case toStatic =>
    refine ⟨fun w hw => hI.coherent w hw.1, fun w k hw => ?_,
      fun w c hc hw => ?_⟩
    · rw [classifier_of_settled ((hunits w hw.1).registry ▸ hp.settled)]
      exact hw
    · obtain ⟨hw', hrest⟩ := hrested.counters w c hc ⟨hw.1, hw.2.1⟩
      exact ⟨hw', hrest, hknows hw.2 (.of_eq rfl rfl hc) rfl rfl⟩
  case touches =>
    intro v w hv h
    obtain ⟨hw', hrest⟩ := hrested.touches v w ⟨hv.1, hv.2.1⟩ h
    exact ⟨hw', hrest, hknows hv.2 h.later h.registry h.session⟩
  case slots =>
    intro w u d s hw hu hd hs
    obtain ⟨hw', hrest⟩ := hrested.slots w u d s ⟨hw.1, hw.2.1⟩ hu hd hs
    exact ⟨hw', hrest,
      hknows hw.2 (later_setState hu (.of_slots .raw _ s)) rfl rfl⟩

/-- A world in the middle of a request for a unit. -/
def Serves (p : Recursion) (u : CompilationUnit) (w : World) : Prop :=
  p.Governs w ∧ w.Registered u

/-- That survives everything that leaves clauses alone. -/
theorem Serves.placid (hp : p.Sound) (u : CompilationUnit) :
    p.Placid (p.Serves u) :=
  (Governs.placid hp).and_lasting (lasting_registered u)

/-- All rounds are over, and what they found is right. -/
structure Ready (p : Recursion) (ctx : Context) (t : Thread) (v : World) :
    Prop where
  serves : p.Serves ctx.unit v
  alike : t.Alike v.thread
  closed : Closed ctx.unit.id t v
  found : v.counters.deferred = 0 → ∃ v₀, p.Completes v₀ ∧
    v₀.counters.deferred = 0 ∧ p.LearnsAll v₀ v

/-- All rounds of a call find what they should. -/
theorem computeRounds_ready (hp : p.Sound) {ctx : Context}
    (hdefaults : p.defaults = ctx.setup.config.defaultImports)
    {R : World → Prop} (hR : Lasting R) (bound : Nat) (seeds : List Symbol) :
    Triple (fun w => ((p.Serves ctx.unit w ∧ p.AtRest ctx.unit.id t w) ∧
        R w) ∧ ∀ c ∈ seeds, w.registry.Known c)
      (computeRounds ctx.setup.config ctx.cancellable bound seeds)
      (fun _ v => (p.Ready ctx t v ∧ R v) ∧
        ∀ c ∈ seeds, v.session.hasMet c = true) (p.Serves ctx.unit) := by
  rintro w ⟨⟨⟨hw, hrest, hknows⟩, hRw⟩, hknown⟩
  have hI := (Serves.placid hp ctx.unit).idle hp
  have hlasting : Lasting fun v => R v ∧
      w.counters.deferred ≤ v.counters.deferred :=
    hR.and fun _ _ h hv => Nat.le_trans hv h.deferred
  have hcompute := computeRounds_closed ctx.unit.id t
    (hI.and_lasting hlasting).toDetached
    (fun v hv => hv.1.1.underlies.grounded.referring)
    ctx.setup.config ctx.cancellable bound seeds
  have hfind : Triple (fun w' => w' = w)
      (computeRounds ctx.setup.config ctx.cancellable bound seeds)
      (fun _ v => w.counters.deferred = 0 → p.LearnsAll w v) fun _ => True := by
    by_cases hzero : w.counters.deferred = 0
    · refine (computeRounds_learns hp hw.1.underlies
        (hw.1.completes hzero).toSpells hdefaults _ bound seeds).conseq ?_
        (fun _ _ hv _ => hv) fun _ _ => True.intro
      rintro _ rfl
      exact (hknows hzero).learns hw.1.underlies hrest
    · exact (Triple.trivial _ _).post fun _ _ _ h => absurd h hzero
  refine ((hcompute.pre ?_).both hfind).conseq (fun _ h => h) ?_
    (fun _ hv => hv.1.1) w rfl
  · rintro _ rfl
    exact ⟨⟨⟨hw, hRw, Nat.le_refl _⟩, hrest⟩, hknown⟩
  · rintro _ v ⟨⟨⟨hv, hRv, hle⟩, ht, hclosed, hmet⟩, hlearned⟩
    refine ⟨⟨⟨hv, ht, hclosed, fun hzero => ?_⟩, hRv⟩, hmet⟩
    have hzero' : w.counters.deferred = 0 := by omega
    exact ⟨w, hw.1.completes hzero', hzero', hlearned hzero'⟩

/-- What was found cuts clauses where it should. -/
theorem Ready.cuts {ctx : Context} (hv : p.Ready ctx t v) :
    Rewriting.Cuts p v := by
  intro hzero c q hq hpending
  obtain ⟨v₀, hv₀, hzero', hlearned⟩ := hv.found hzero
  exact ⟨(hlearned.result c q hq).1.pending hpending,
    hlearned.cut hv₀ hv.closed hzero' hq hpending⟩

/-- Writing back what was found leaves a session at rest. -/
theorem Ready.apply_triple (hp : p.Sound) {ctx : Context}
    (hguard : ctx.guard.lock = .ofUnit ctx.unit.id) {R : World → Prop}
    (hR : Lasting R) (hv : p.Ready ctx t v) (hRv : R v) :
    Triple (· = v) (do
        updateSession Session.breakCycles
        applyResults ctx)
      (fun _ u => ((p.Serves ctx.unit u ∧ p.AtRest ctx.unit.id t u) ∧ R u) ∧
        ∀ c r, v.session.result? c = some r → Kept ctx.unit.id t c u)
      fun _ => False := by
  have happly := WritesBack.apply_triple (t := t)
    (J := fun u => p.Rewriting v u ∧ R u ∧ u.Registered ctx.unit)
    ⟨.start hv.serves.1, hRv, hv.serves.2⟩ hv.serves.2 hguard hv.alike hv.closed
    ((Rewriting.tended hp hv.cuts ctx.unit.id t).and_lasting
      (hR.and (lasting_registered ctx.unit)))
    fun c r hr hpending => ⟨r, hr, hpending, rfl⟩
  -- tables are looked at only if there is something to say about them
  have htables : Triple (· = v) (do
      updateSession Session.breakCycles
      applyResults ctx) (fun _ u => v.counters.deferred = 0 → p.Tables u)
      fun _ => True := by
    by_cases hzero : v.counters.deferred = 0
    · obtain ⟨v₀, -, -, hlearned⟩ := hv.found hzero
      refine .bind (Q := fun _ => p.Tables) (.update ?_) fun _ =>
        (Tables.applyResults hp ?_).post fun _ _ hu _ => hu
      · rintro _ rfl
        exact hlearned.tables.of_eq rfl rfl (Session.imports_breakCycles _)
      · rw [← hv.serves.1.underlies.registry]
        exact hv.serves.2
    · exact (Triple.trivial _ _).post fun _ _ _ h => absurd h hzero
  refine (happly.both htables).conseq (fun _ h => h) ?_ fun _ h => h.1
  rintro _ u ⟨⟨⟨hu, hRu, hreg⟩, hrest, hrevises, hdealt⟩, htables⟩
  refine ⟨⟨⟨⟨hu.governs hp hv.serves.1 hv.cuts hv.closed hdealt, hreg⟩, hrest,
    fun hzero => ?_⟩, hRu⟩, hdealt⟩
  have hzero' : v.counters.deferred = 0 :=
    Nat.le_zero.mp (hzero ▸ hu.later.deferred)
  obtain ⟨v₀, -, -, hlearned⟩ := hv.found hzero'
  exact .written hlearned (fun c q hq hpending =>
    (hv.cuts hzero' c q hq hpending).2) (htables hzero') hrevises

/-- A call of a session ends as it began, with all that it was asked for
final or put off. -/
theorem resolveSupertypes_triple (hp : p.Sound) {ctx : Context}
    (hdefaults : p.defaults = ctx.setup.config.defaultImports)
    (hguard : ctx.guard.lock = .ofUnit ctx.unit.id) {R : World → Prop}
    (hR : Lasting R) (seeds : List Symbol) :
    Triple (fun w => ((p.Serves ctx.unit w ∧ p.AtRest ctx.unit.id t w) ∧
        R w) ∧ ∀ c ∈ seeds, w.registry.Known c)
      (resolveSupertypes ctx seeds)
      (fun _ w => ((p.Serves ctx.unit w ∧ p.AtRest ctx.unit.id t w) ∧ R w) ∧
        ∀ c ∈ seeds, Kept ctx.unit.id t c w) (p.Serves ctx.unit) := by
  have hI := (Serves.placid hp ctx.unit).idle hp
  refine .bind (.update fun w hw => ?_) fun _ => .read_then fun bound =>
    .bind (computeRounds_ready (t := t) hp hdefaults hR bound seeds)
      fun _ => ?_
  · obtain ⟨⟨⟨hw, hrest, hknows⟩, hRw⟩, hknown⟩ := hw
    refine ⟨⟨⟨hI.session w _ hw, hrest.ask seeds, fun hzero => ?_⟩,
      hR w _ (.of_eq rfl rfl (Nat.le_refl _)) hRw⟩, hknown⟩
    exact ⟨(hknows hzero).tables, (hknows hzero).result⟩
  · rintro v ⟨⟨hv, hRv⟩, hmet⟩
    refine ((hv.apply_triple hp hguard hR hRv).conseq (fun _ h => h)
      (fun _ u hu => ⟨hu.1, fun c hc => ?_⟩) fun _ h => h.elim) v rfl
    obtain ⟨r, hr⟩ := hv.closed.followed.result? (hmet c hc)
    exact hu.2 c r hr

/-- So sessions survive in the walk of a phase. -/
theorem sessions (hp : p.Sound) {c : Context}
    (hdefaults : p.defaults = c.setup.config.defaultImports)
    (hguard : c.guard.lock = .ofUnit c.unit.id) :
    Sessions (p.Serves c.unit) (p.AtRest c.unit.id t) c where
  calm := calm_atRest hp ((Serves.placid hp c.unit).idle hp)
    fun _ hw => hw.1.underlies
  registered := fun _ hw => hw.2
  session := by
    intro d R hR
    unfold PhaseRule.classSupertypes
    split
    · refine (resolveSupertypes_triple hp hdefaults hguard hR
        [c.unit.symbol d]).conseq (fun w hw => ⟨hw, fun b hb => ?_⟩)
          (fun _ w hw => ⟨hw.1, fun _ => ?_⟩) fun _ hw => hw
      · rw [List.mem_singleton.mp hb]
        exact hw.1.1.1.underlies.grounded.coherent.known hw.1.1.2 d
      · exact (hw.2 _ (List.mem_singleton_self _)).resolve_right fun h =>
          h.1 rfl
    · next hk => exact .pure fun w hw => ⟨hw, fun h => absurd h hk⟩

-- ================================================================= requests

/-- What a walk of the supertype phase has visited may be marked. -/
theorem Leaves.commit {rule : PhaseRule} {c : Context} {visits : Visits}
    {goal : Designation} (hv : v.Registered goal.unit)
    (hrule : rule.phase = .supertypes)
    (hroute : Walk.Route rule c (Walk.SessionDone rule goal.unit goal) goal
      .root visits v)
    (h : World.Rewrites goal.unit (visits.committed .supertypes) v w) :
    p.Leaves v w := by
  refine ⟨h.unmoved, h.registry, fun u t hu ht => Or.inl ?_,
    fun u d hu hd hle => ?_⟩
  · rwa [h.slots u .root hu] at ht
  · by_cases hcu : u = goal.unit
    · subst hcu
      rcases (h.le_own_iff hv).mp hle with hle | ⟨hvisit, -⟩
      · exact hle
      · exact (hroute.done d hvisit hd.classLike (Or.inl hrule)).marked_self hu
          hd
    · rwa [World.own, h.state u d hu, if_neg hcu] at hle

variable {setup : Setup} {goal : Designation} {g : Guard} {phase : Phase}
  {cancellable : Bool}

/-- A phase up to the supertype phase. -/
theorem runPhase (hp : p.Sound)
    (hdefaults : p.defaults = setup.config.defaultImports)
    (hquiet : setup.Quiet) (hg : g.lock = .ofUnit goal.unit.id)
    (hphase : phase ≤ .supertypes) :
    Advances (fun w => p.Serves goal.unit w ∧ t.Alike w.thread)
      (Action.runPhase setup goal g cancellable phase) (fun _ _ => True)
      (p.Serves goal.unit) := by
  have hplacid := Serves.placid hp goal.unit
  refine Sessions.runPhase (S := p.AtRest goal.unit.id t) (hplacid.idle hp)
    (fun _ hw => hw.1.alike) (fun w _ ht => ⟨.start ht, fun _ => .start w⟩) ?_
    (fun _ hw => hw.2) hg hquiet (lasting_const True) (fun _ _ _ => trivial) ?_
  · rintro c rfl hunit rfl
    rw [← hunit] at hg ⊢
    exact sessions hp hdefaults hg
  · rintro rule c visits w w' hrule - hw hroute - h
    obtain rfl := Phase.phase_of_rule? hrule
    have hsupertypes : rule.phase = .supertypes := Phase.position_inj
      (Nat.le_antisymm hphase (Phase.supertypes_le_of_rule? hrule))
    rw [hsupertypes] at h
    exact ⟨hplacid.leaves w w' hw (.commit hw.2 hsupertypes hroute h)
      (h.coherent hw.1.underlies.grounded.coherent hw.2), trivial⟩

/-- The file itself may be marked. -/
theorem raisesFile (hp : p.Sound) (u : CompilationUnit) (t : Thread) :
    RaisesFile (fun w => p.Serves u w ∧ t.Alike w.thread) u where
  raise := by
    rintro w q ⟨hw, ht⟩ hd
    refine ⟨(Serves.placid hp u).raise hw hw.2 (.of_own _ (Phase.le_refl q))
      rfl fun hclass => ?_, ht⟩
    -- the file is no class
    obtain ⟨x, hx⟩ := Option.isSome_iff_exists.mp hd
    have hk := hclass.classLike
    rw [CompilationUnit.isClassLike, CompilationUnit.kind?, hx, Option.map_some,
      (hw.1.underlies.grounded.coherent.wellFormed hw.2).file x hx] at hk
    cases hk

/-- Resolving the imports of a file stores the right table. -/
theorem resolveImports (hp : p.Sound) (u : CompilationUnit) :
    Triple (fun w => p.Serves u w ∧ t.Alike w.thread)
      (Action.resolveImports g u)
      (fun _ w => p.Serves u w ∧ t.Alike w.thread) (p.Serves u) := by
  have hplacid := Serves.placid hp u
  have hI := (hplacid.idle hp).alike t
  -- the table that comes out is known, and it is the right one
  have htable : Triple (fun w => p.Serves u w ∧ t.Alike w.thread)
      (importTable u) (fun r w => (p.Serves u w ∧ t.Alike w.thread) ∧
        (r.1.Genuine w ∧ p.Tabulates u r.1)) (p.Serves u) := by
    have hright : Triple (fun w => p.Serves u w ∧ t.Alike w.thread)
        (importTable u) (fun r _ => p.Tabulates u r.1) fun _ => True := by
      refine .of_runs (fun w r w' hw hrun => ?_) fun _ _ _ _ _ => trivial
      rw [importTable_run hp.settled hw.1.1.underlies.registry,
        Prod.mk.injEq] at hrun
      exact ⟨r.2, hrun.1⟩
    have hlive := (importTable_advances (E := p.Serves u) hI.toStatic u).triple
    exact (hlive.both hright).conseq (fun _ hw => hw)
      (fun _ w hw => ⟨hw.1.1, hw.1.2.genuine (hI.coherent w hw.1.1), hw.2⟩)
      fun _ hw => hw.1
  refine .read_bind fun own => ?_
  split
  · exact .pure fun _ hw => hw.1
  · refine .bind (htable.pre fun _ hw => hw.1) fun r => ?_
    refine .bind (writeState_triple (Q := fun w => p.Serves u w ∧ t.Alike w.thread)
      (fun _ hw => hw.1.1) fun w hw hd => ?_) fun _ => ?_
    · obtain ⟨⟨hw, ht⟩, hknown, htab⟩ := hw
      obtain ⟨ds, hds⟩ := Slots.report_eq .imports r.2
        { w.slots u .root with imports := some r.1 }
      refine ⟨hplacid.leaves w _ hw (.setState hw.2 (.of_slots .raw _ _) ?_
        (fun t' h => Or.inr ?_) fun _ hle => hle)
        (hw.1.underlies.grounded.coherent.setState hw.2 (.of_slots .raw _ _)),
        ht⟩
      · dsimp only
        rw [← World.slots, hds]
        exact ⟨rfl, rfl⟩
      · dsimp only at h
        rw [← World.slots, hds] at h
        cases h
        exact ⟨hknown, htab⟩
    · exact .bind ((raisesFile hp u t).raiseFile.conseq (fun _ hw => hw)
        (fun _ _ hw => hw.1) fun _ hw => hw.1) fun _ => .pure fun _ hw => hw

/-- What is done under the lock of the unit. -/
theorem resolveLocked (hp : p.Sound)
    (hdefaults : p.defaults = setup.config.defaultImports)
    (hquiet : setup.Quiet) (hg : g.lock = .ofUnit goal.unit.id)
    (hphase : phase ≤ .supertypes) :
    Triple (fun w => p.Serves goal.unit w ∧ t.Alike w.thread)
      (Action.resolveLocked setup goal phase cancellable g)
      (fun _ w => p.Serves goal.unit w ∧ t.Alike w.thread)
      (p.Serves goal.unit) := by
  have hI := ((Serves.placid hp goal.unit).idle hp).alike t
  refine resolveLocked_triple (resolveImports hp goal.unit)
    (fun _ hw => hw.1) (fun _ => ?_) (fun _ _ hw _ => hw)
    (fun _ w hw _ => hI.counters w _ (Nat.le_refl _) hw) fun _ current => ?_
  · exact (hI.resolveFileAnnotations (hI.fileWork fun _ hw => hw.1.2)
      (raisesFile hp goal.unit t)).conseq (fun _ hw => hw)
      (fun _ _ hw => hw.1) fun _ hw => hw.1
  · refine (AdvancesBy.keeps (runPhases_advances (S := Onward)
      (T := fun _ _ => True) (fun _ hw => hw.1)
      (fun _ => lasting_const True) fun q hq =>
        runPhase hp hdefaults hquiet hg
          (Phase.le_trans (Phase.le_of_mem_stepsTo hq) hphase))).pre
      fun _ hw => hw.1

/-- A request for a phase up to the supertype phase. -/
theorem request {allowLocal : Bool} {s : Symbol} (hp : p.Sound)
    (hdefaults : p.defaults = setup.config.defaultImports)
    (hquiet : setup.Quiet) (hphase : phase ≤ .supertypes) :
    Triple p.Governs (Action.request setup allowLocal s phase cancellable)
      (fun _ => p.Governs) p.Governs := by
  have hI := (Governs.placid hp).idle hp
  refine hI.request (fun _ hw => hw) fun u x goal _ _ hgoal => ?_
  obtain rfl := CompilationUnit.unit_of_designateWith hgoal
  have hserves := (Serves.placid hp goal.unit).idle hp
  refine (hserves.resolveDesignation (Q := p.Serves goal.unit)
    (fun w hw _ => hserves.counters w _ (Nat.le_refl _) hw)
    (.pre ?_ fun w hw => hw.1)).conseq (fun _ hw => hw) (fun _ _ hw => hw.1)
      fun _ hw => hw.1
  refine hserves.resolveUnderLock hserves.thread fun g hg w hw => ?_
  exact ((resolveLocked (t := w.thread) hp hdefaults hquiet hg hphase).post
    fun _ _ hw => hw.1) w ⟨hw, .refl _⟩

-- =============================================================== the start

/-- Nothing was resolved yet. -/
theorem Governs.start (hp : p.Sound) : p.Governs p.world := by
  have hcoherent : p.world.Coherent := .start hp.coherent
  have hraw : ∀ u d, u.HasClause d → ¬ .supertypes ≤ p.world.own u d := by
    intro u d hd
    rw [(raw_of_fresh (w := p.world) rfl hd.eligible).1]
    decide
  refine ⟨⟨.start hcoherent, rfl, fun u t hu ht => ?_⟩, fun _ =>
    ⟨⟨fun _ _ _ _ => ⟨rfl, rfl⟩, fun u d _ hd hle => absurd hle (hraw u d hd)⟩,
      fun a b hab ha => ?_⟩⟩
  · rw [(slots_world hp.coherent hu .root).imports] at ht
    cases ht
  · obtain ⟨u, d, hu, rfl, hd⟩ := hp.hasClause
      (hab.isClass hp.coherent hp.settled).2
    exact absurd ((done_iff hcoherent hu hd).mp ha) (hraw u d hd)

end Recursion

-- =============================================================== histories

/-- The call asks for nothing beyond the supertype phase, or is one of
other threads. -/
def Call.AsksClauses : Call → Prop
  | .resolve _ _ phase _ => phase ≤ .supertypes
  | .otherTakes _ | .otherReleases _ | .setToken _ => True
  | _ => False

/-- The worlds that such calls lead to when nothing was resolved before. -/
inductive ReachesFrom (setup : Setup) (r : Registry) : World → Prop where
  | start : ReachesFrom setup r (.start r)
  | step (w : World) (call : Call) (h : ReachesFrom setup r w)
      (hcall : call.AsksClauses) : ReachesFrom setup r (call.run setup w)

/-- Such calls keep what a sound recursion governs. -/
theorem ReachesFrom.governs {setup : Setup} (hquiet : setup.Quiet)
    {p : Recursion} (hp : p.Sound)
    (hdefaults : p.defaults = setup.config.defaultImports) {w : World}
    (h : ReachesFrom setup p.registry w) : p.Governs w := by
  have hI := (Recursion.Governs.placid hp).idle hp
  induction h with
  | start => exact .start hp
  | step w call _ hcall ih =>
      cases call with
      | resolve allowLocal s phase cancellable =>
          exact (Recursion.request hp hdefaults hquiet hcall).world ih
      | otherTakes | otherReleases | setToken => exact hI.thread w _ ih
      | addUnit | replaceUnit | addSource | lookUp | resolveFile =>
          exact hcall.elim

/-- Where plain recursion gives every clause a meaning without asking for
classes on cycles, supertypes do not depend on what was asked for in which
order: two worlds that any requests led to agree about every declaration
that stands at the supertype phase in both, as long as nothing was put
off. -/
theorem supertypes_eq_of_sound {setup : Setup} (hquiet : setup.Quiet)
    {p : Recursion} (hp : p.Sound)
    (hdefaults : p.defaults = setup.config.defaultImports) {v w : World}
    (hv : ReachesFrom setup p.registry v)
    (hw : ReachesFrom setup p.registry w)
    (hvzero : v.counters.deferred = 0) (hwzero : w.counters.deferred = 0)
    {u : CompilationUnit} {d : DeclId} (hu : p.registry.unit? u.id = some u)
    (hvd : .supertypes ≤ v.own u d) (hwd : .supertypes ≤ w.own u d) :
    (v.slots u d).supertypes = (w.slots u d).supertypes ∧
      (v.slots u d).expansion = (w.slots u d).expansion := by
  have hv := hv.governs hquiet hp hdefaults
  have hw := hw.governs hquiet hp hdefaults
  have huv : v.Registered u := by
    rwa [World.Registered, hv.underlies.registry]
  have huw : w.Registered u := by
    rwa [World.Registered, hw.underlies.registry]
  show (v.slots u d).SaysSame (w.slots u d)
  by_cases hd : u.HasClause d
  · obtain ⟨m, q, hm, hcut, hmeans⟩ := (hv.completes hvzero).marked u d huv hd hvd
    obtain ⟨m', q', hm', hcut', hmeans'⟩ :=
      (hw.completes hwzero).marked u d huw hd hwd
    cases hm.symm.trans hm'
    exact (hmeans.trans (hcut.fill_eq hcut' _)).trans hmeans'.symm
  · exact ((hv.completes hvzero).unmarked u d huv fun h => hd h.1).trans
      ((hw.completes hwzero).unmarked u d huw fun h => hd h.1).symm

/-- A class looks a name up in what another one inherits from, which in
turn is looked up in the package. -/
def UnitSpec.inheritedName : UnitSpec :=
  .ofEntries "a.kt" [.member 0 (.classNamed "A" ["B"]),
    .member 1 (.classNamed "D" ["N"]), .member 0 (.classNamed "B" []),
    .member 3 (.classNamed "N" [])]

/-- The inner class first or the outer class first: both come to stand at
the supertype phase, and say the same. -/
theorem supertypes_eq_of_sound_inheritedName :
    let r := (World.after (.plain .default) [.addUnit .inheritedName]).registry
    let ask (d : DeclId) (w : World) : World :=
      (Action.resolve (.plain .default) ⟨⟨0⟩, d⟩ .supertypes false w).2
    let v := ask ⟨1⟩ (ask ⟨2⟩ (.start r))
    let w := ask ⟨2⟩ (ask ⟨1⟩ (.start r))
    ∃ u, r.unit? ⟨0⟩ = some u ∧ v.own u ⟨2⟩ = .supertypes ∧
      w.own u ⟨2⟩ = .supertypes ∧ v.committedClasses ⟨⟨0⟩, ⟨2⟩⟩ = [⟨⟨0⟩, ⟨4⟩⟩] ∧
      (v.slots u ⟨2⟩).supertypes = (w.slots u ⟨2⟩).supertypes ∧
      (v.slots u ⟨2⟩).expansion = (w.slots u ⟨2⟩).expansion := by
  intro r ask v w
  have hquiet := Setup.quiet_plain .default
  have hr : r.Coherent :=
    ((Reaches.after _ [.addUnit .inheritedName]).coherent hquiet).registry
  obtain ⟨u, hu, hvd, hwd⟩ : ∃ u ∈ r.unit? ⟨0⟩,
      v.own u ⟨2⟩ = .supertypes ∧ w.own u ⟨2⟩ = .supertypes := by
    decide +kernel
  let p : Recursion := ⟨r, Config.default.defaultImports, fun _ => false, 3⟩
  have hp : p.Sound := .of_rank hr (by decide +kernel)
    (fun c => if c.decl.index ≤ 2 then 1 else 0) (by decide +kernel)
  have hask : ∀ (d : DeclId) (w : World), ReachesFrom (.plain .default) r w →
      ReachesFrom (.plain .default) r (ask d w) := fun d w hw =>
    hw.step _ (.resolve false ⟨⟨0⟩, d⟩ .supertypes false) (Phase.le_refl _)
  refine ⟨u, hu, hvd, hwd, by decide +kernel,
    supertypes_eq_of_sound hquiet hp rfl (hask _ _ (hask _ _ .start))
      (hask _ _ (hask _ _ .start)) (by decide +kernel) (by decide +kernel)
      (by rw [hr.named _ u hu]; exact hu) (hvd.symm ▸ Phase.le_refl _)
      (hwd.symm ▸ Phase.le_refl _)⟩

-- ================================================ clauses that need each other

/-- A class and an object that extend inner classes of each other, whose
clauses are looked up in what the outer ones inherit. -/
def UnitSpec.entangled : UnitSpec :=
  .ofEntries "a.kt" [.member 0 (.classNamed "PA" ["QB.B"]),
    .member 1 (.classNamed "A" ["N"]), .member 0 (.classNamed "QB" ["PA.A"]),
    .member 3 (.classNamed "B" ["M"]), .member 0 (.classNamed "M" []),
    .member 5 (.classNamed "N" []), .member 0 (.classNamed "N" []),
    .member 7 (.classNamed "M" [])]

/-- The clause of the inner class that is asked for second is looked up
while that of the first is still being resolved and gives nothing to
inherit names from. So it is what the order makes of it. -/
theorem not_supertypes_eq :
    let r := (World.after (.plain .default) [.addUnit .entangled]).registry
    let ask (d : DeclId) (w : World) : World :=
      (Action.resolve (.plain .default) ⟨⟨0⟩, d⟩ .supertypes false w).2
    let v := ask ⟨4⟩ (ask ⟨2⟩ (.start r))
    let w := ask ⟨2⟩ (ask ⟨4⟩ (.start r))
    v.counters.deferred = 0 ∧ w.counters.deferred = 0 ∧
      ∃ u, r.unit? ⟨0⟩ = some u ∧ ∀ d ∈ [⟨2⟩, ⟨4⟩],
        v.own u d = .supertypes ∧ w.own u d = .supertypes ∧
          (v.slots u d).supertypes ≠ (w.slots u d).supertypes := by
  intro r ask v w
  obtain ⟨u, hu, h⟩ : ∃ u ∈ r.unit? ⟨0⟩, ∀ d ∈ [⟨2⟩, ⟨4⟩],
      v.own u d = .supertypes ∧ w.own u d = .supertypes ∧
        (v.slots u d).supertypes ≠ (w.slots u d).supertypes := by
    decide +kernel
  exact ⟨by decide +kernel, by decide +kernel, u, hu, h⟩

-- ============================================ what else order can decide about

/-- Some declarations of the first unit are asked for, one after the
other. -/
def Registry.askedFor (r : Registry) (ds : List DeclId) : World :=
  ds.foldl (fun w d => (Action.resolve (.plain .default) ⟨⟨0⟩, d⟩ .supertypes
    false w).2) (.start r)

/-- Classes have to be in their place. Every clause has a meaning here, and
no class is on a cycle; but the one in the body of an enum entry is marked
with its clause as it was written if the enum is reached first. -/
theorem not_supertypes_eq_of_misplaced :
    let r := (World.after (.plain .default) [.addUnit .enumBody]).registry
    let p : Recursion := ⟨r, Config.default.defaultImports, fun _ => false, 1⟩
    let v := r.askedFor [⟨1⟩, ⟨4⟩]
    let w := r.askedFor [⟨4⟩, ⟨1⟩]
    v.counters.deferred = 0 ∧ w.counters.deferred = 0 ∧
      ∃ u ∈ r.unit? ⟨0⟩, (∀ d ∈ u.declIds, u.isClassLike d = true →
        (p.meaning? (u.symbol d)).isSome ∧
          ∀ b ∈ p.edges (u.symbol d), d.index < b.decl.index) ∧
        ¬ u.InClasses ⟨4⟩ ∧
        v.own u ⟨4⟩ = .supertypes ∧ w.own u ⟨4⟩ = .supertypes ∧
        (v.slots u ⟨4⟩).supertypes ≠ (w.slots u ⟨4⟩).supertypes := by
  decide +kernel

/-- Two classes that extend each other, and a class that looks a name up in
what its outer class inherits from them. -/
def UnitSpec.nameOnCircle : UnitSpec :=
  .ofEntries "a.kt" [.member 0 (.classNamed "A" ["B"]),
    .member 0 (.classNamed "B" ["A"]), .member 2 (.classNamed "N" []),
    .member 0 (.classNamed "D" ["A"]), .member 4 (.classNamed "E" ["N"]),
    .member 0 (.classNamed "N" []), .member 0 (.classNamed "C" ["D.E"])]

/-- Supertypes of classes on a cycle must not be asked for. Every clause has
a meaning here, every class is in its place, and no look-up comes by a
class that is still being computed; but the circle is cut when it is
written back, so what can be inherited over it depends on whether that has
been done before. -/
theorem not_supertypes_eq_of_circular :
    let r := (World.after (.plain .default) [.addUnit .nameOnCircle]).registry
    let p : Recursion := ⟨r, Config.default.defaultImports, fun _ => false, 3⟩
    let v := r.askedFor [⟨7⟩, ⟨1⟩]
    let w := r.askedFor [⟨1⟩, ⟨7⟩]
    v.counters.deferred = 0 ∧ w.counters.deferred = 0 ∧
      ∃ u ∈ r.unit? ⟨0⟩, (∀ d ∈ u.declIds, u.isClassLike d = true →
        u.InClasses d ∧ (p.meaning? (u.symbol d)).isSome) ∧
        v.own u ⟨5⟩ = .supertypes ∧ w.own u ⟨5⟩ = .supertypes ∧
        (v.slots u ⟨5⟩).supertypes ≠ (w.slots u ⟨5⟩).supertypes := by
  decide +kernel

end StagedResolve
