/-
Hierarchies: why committed inheritance has no cycles, and where it can
have one.

# What a session relies on

A session does not follow the references of a clause that was committed
before. That is right as long as whatever such a clause refers to was
committed too: then nothing that is written now can be reached from it.
So a cycle would have to run through classes of the session alone, and
those the session has broken.

# Putting off

A class that is put off leaves clauses behind that refer to an open one
(`World.PutOff`). Within the request this does no harm, because its unit
stays blocked until the request is over (`World.Kept`). But the next
request may find the lock free, and then the new clause of the class can
close a cycle through the old ones, which are not followed.

That is the only way. Beside the classes that were put off before a
request began no cycle is closed in it (`World.Ordered`), so a call
leaves an acyclic hierarchy exactly if none of those classes inherits
from itself afterwards (`Careful`); and as long as nothing was put off
there are none.
-/
import StagedResolve.Proofs.Grounded
import StagedResolve.Proofs.Reachability
import StagedResolve.Proofs.SessionWalks

namespace StagedResolve

open StagedResolve.Action World Relation

namespace World

-- ============================================================= hierarchies

/-- No class inherits, through others, from itself. -/
def Acyclic (w : World) : Prop := ∀ a, ¬ TransGen w.Inherits a a

/-- A class that others inherit from and whose own clause is not final. -/
def PutOff (w : World) (b : Symbol) : Prop :=
  (∃ a, w.Inherits a b) ∧ ¬ w.Done b

/-- A class inherits from another one that is not late. -/
def InheritsBeside (late : Symbol → Prop) (w : World) (a b : Symbol) : Prop :=
  w.Inherits a b ∧ ¬ late b

/-- Every cycle runs through a late class. -/
def AcyclicBeside (late : Symbol → Prop) (w : World) : Prop :=
  ∀ a, ¬ TransGen (w.InheritsBeside late) a a

/-- The clause of a class is final, or it was put off: in this request, or,
if it is late, in an earlier one. -/
def Excused (late : Symbol → Prop) (own : UnitId) (t : Thread) (b : Symbol)
    (w : World) : Prop :=
  Kept own t b w ∨ (late b ∧ 0 < w.counters.deferred)

/-- What holds in the middle of a request. -/
structure Ordered (late : Symbol → Prop) (own : UnitId) (t : Thread)
    (w : World) : Prop where
  grounded : w.Grounded
  acyclic : w.AcyclicBeside late
  excused : ∀ a b, w.Inherits a b → w.Excused late own t b

variable {late : Symbol → Prop} {own : UnitId} {t : Thread} {v w : World}

/-- It stays excused. -/
theorem lasting_excused (late : Symbol → Prop) (own : UnitId) (t : Thread)
    (b : Symbol) : Lasting fun w => w.Excused late own t b := by
  intro v w h hv
  refine hv.imp (lasting_kept own t b v w h) fun hb => ⟨hb.1, ?_⟩
  exact Nat.lt_of_lt_of_le hb.2 h.deferred

/-- There are no cycles where every class is above what it inherits from. -/
theorem acyclic_of_rank (hw : w.Coherent) (rank : Symbol → Nat)
    (h : ∀ a ∈ w.states.keys, ∀ b ∈ w.committedClasses a, rank b < rank a) :
    w.Acyclic := by
  have hstep : ∀ a b, w.Inherits a b → rank b < rank a := fun a b hab =>
    h a (Table.mem_keys_of_find? (hab.touched hw)) b hab
  have hpath : ∀ a b, TransGen w.Inherits a b → rank b < rank a := by
    intro a b hab
    induction hab with
    | single hab => exact hstep _ _ hab
    | tail _ hbc ih => exact Nat.lt_trans (hstep _ _ hbc) ih
  exact fun a ha => Nat.lt_irrefl _ (hpath a a ha)

/-- A path leads through a late class or is beside all of them. -/
theorem transGen_beside_or (late : Symbol → Prop) {a b : Symbol}
    (h : TransGen w.Inherits a b) :
    (∃ c, late c ∧ TransGen w.Inherits a c ∧ ReflTransGen w.Inherits c b) ∨
      TransGen (w.InheritsBeside late) a b := by
  have hstep : ∀ {a b}, w.Inherits a b →
      late b ∨ w.InheritsBeside late a b := fun {a b} hab =>
    or_iff_not_imp_left.mpr fun hb => ⟨hab, hb⟩
  induction h with
  | single hab =>
      exact (hstep hab).imp (fun hb => ⟨_, hb, .single hab, .refl⟩) .single
  | tail hac hcb ih =>
      rcases hstep hcb with hb | hbeside
      · exact Or.inl ⟨_, hb, hac.tail hcb, .refl⟩
      · refine ih.imp ?_ fun hac => hac.tail hbeside
        rintro ⟨d, hd, had, hdc⟩
        exact ⟨d, hd, had, hdc.tail hcb⟩

/-- Where every cycle runs through a late class and no late class is on
one, there is none. -/
theorem AcyclicBeside.acyclic (h : w.AcyclicBeside late)
    (hlate : ∀ b, late b → ¬ TransGen w.Inherits b b) : w.Acyclic := by
  intro a ha
  rcases transGen_beside_or late ha with ⟨c, hc, hac, hca⟩ | hbeside
  · exact hlate c hc (TransGen.trans_right hca hac)
  · exact h a hbeside

/-- Nothing that leaves clauses alone changes that. -/
theorem Ordered.structural (late : Symbol → Prop) (own : UnitId)
    (t : Thread) : Structural (Ordered late own t) where
  coherent := fun _ hw => hw.grounded.coherent
  unmoved := fun v w hv h hw => by
    have hiff : ∀ a b, w.Inherits a b ↔ v.Inherits a b := fun _ _ =>
      h.inherits_iff hv.grounded.coherent hw
    refine ⟨hv.grounded.unmoved h hw, fun a ha => hv.acyclic a ?_,
      fun a b hab => ?_⟩
    · exact TransGen.mono (fun a b hab => ⟨(hiff a b).mp hab.1, hab.2⟩) _ _ ha
    · exact lasting_excused late own t b v w h.later
        (hv.excused a b ((hiff a b).mp hab))

-- ======================================================== writing results

/-- A class that was written back since `v`: it was open then, and what it
inherits from now survived the cut. -/
def Rewritten (own : UnitId) (t : Thread) (v w : World) (a : Symbol) : Prop :=
  ¬ Kept own t a v ∧ ∀ b, w.Inherits a b → v.session.Survives a b

/-- What holds while the results of a session are written back. -/
structure Writing (own : UnitId) (t : Thread) (v w : World) : Prop where
  grounded : w.Grounded
  later : v.Onward w
  inherits : ∀ a, (∀ b, w.Inherits a b → v.Inherits a b) ∨
    Rewritten own t v w a

/-- Nothing that leaves clauses alone changes that. -/
theorem Writing.structural (own : UnitId) (t : Thread) (v : World) :
    Structural (Writing own t v) where
  coherent := fun _ hw => hw.grounded.coherent
  unmoved := fun w w' hw h hw' => by
    have hiff : ∀ a b, w'.Inherits a b ↔ w.Inherits a b := fun _ _ =>
      h.inherits_iff hw.grounded.coherent hw'
    refine ⟨hw.grounded.unmoved h hw', hw.later.trans h.later, fun a => ?_⟩
    refine (hw.inherits a).imp (fun ha b hb => ha b ((hiff a b).mp hb)) ?_
    exact fun ha => ⟨ha.1, fun b hb => ha.2 b ((hiff a b).mp hb)⟩

/-- Results of a session whose units are free can be written back. -/
theorem Writing.tended (own : UnitId) (t : Thread) (v : World) :
    Tended (Writing own t v) fun c r => (∃ q, v.session.result? c = some q ∧
      q.isPending = true ∧ r = v.session.cutResult c q) ∧
        t.Free own c.unit :=
  { (Writing.structural own t v).idle with
    referring := fun _ hw => hw.grounded.referring
    members := members_triple fun w u d s hw hu _ hs hslots =>
      (Writing.structural own t v).raise hw hu hs hslots
    fill := by
      rintro w u x c r hw hu hid hx hk he ⟨⟨q, hq, hp, rfl⟩, hfree⟩ hfits hlt
      have hlater := later_setState hu
        (raised_filled w u c.decl (v.session.cutResult c q))
      have hgrounded := hw.grounded.filled hu hx hk he hfits
      refine ⟨hgrounded, hw.later.trans hlater, fun a => ?_⟩
      by_cases hac : a = c
      · subst hac
        refine Or.inr ⟨?_, fun b hab => ⟨q, hq, hp, ?_⟩⟩
        · -- the class was open before, and its unit is not blocked
          rintro (hdone | ⟨hne, hblocked, -⟩)
          · refine hlt ((lasting_done a v w hw.later hdone).marked u x hu hid
              hx hk he)
          · exact hfree.elim hne fun h => h hblocked
        · obtain ⟨u', hu', hid', -, hmem⟩ :=
            (inherits_iff hgrounded.coherent).mp hab
          obtain rfl : u' = u := hu'.eq hu (hid'.trans hid.symm)
          exact mem_classes_filled hx hfits.isAlias hmem
      · have hsub : ∀ b, (w.filled u c.decl (v.session.cutResult c q)).Inherits
            a b → w.Inherits a b := by
          intro b hab
          obtain ⟨u', hu', hid', hsome, hmem⟩ :=
            (inherits_iff hgrounded.coherent).mp hab
          refine (inherits_iff hw.grounded.coherent).mpr
            ⟨u', hu', hid', hsome, ?_⟩
          rwa [clause_filled hu c.decl hu' a.decl] at hmem
          rintro ⟨rfl, hdecl⟩
          have hunit : a.unit = c.unit := hid'.symm.trans hid
          cases a
          cases c
          cases hunit
          cases hdecl
          exact hac rfl
        refine (hw.inherits a).imp (fun ha b hb => ha b (hsub b hb)) ?_
        exact fun ha => ⟨ha.1, fun b hb => ha.2 b (hsub b hb)⟩ }

/-- Beside late classes, what was kept leads to what was kept, by what was
there before. -/
theorem Writing.kept_of_reaches (hv : v.Ordered late own t)
    (hw : Writing own t v w) {a b : Symbol} (ha : Kept own t a v)
    (h : ReflTransGen (w.InheritsBeside late) a b) :
    Kept own t b v ∧ ReflTransGen (v.InheritsBeside late) a b := by
  induction h with
  | refl => exact ⟨ha, .refl⟩
  | tail _ hstep ih =>
      obtain ⟨hb, hreach⟩ := ih
      have hold := (hw.inherits _).resolve_right (fun h => h.1 hb) _ hstep.1
      refine ⟨(hv.excused _ _ hold).resolve_right fun h => hstep.2 h.1, ?_⟩
      exact hreach.tail ⟨hold, hstep.2⟩

/-- Everything that a class of the session refers to was met, and is kept
or pending. -/
theorem Closed.kept_or_pending (hc : v.Closed own t) {a b : Symbol}
    (h : v.session.Survives a b) : Kept own t b v ∨
      ∃ r, v.session.result? b = some r ∧ r.isPending = true := by
  obtain ⟨r, hr, hp, hb⟩ := h
  have hb := ((Session.faithful_cutResult _).classes a r).subset hb
  have hcommitted := Computed.not_committed hp
  have hmet := (hc.followed.classes a r hr hcommitted b hb).resolve_right
    List.not_mem_nil
  obtain ⟨q, hq⟩ := hc.followed.result? hmet
  cases hq' : q.committed with
  | true => exact Or.inl (Or.inl ((hc.remembers.result b q hq).committed hq'))
  | false =>
      cases ha : q.applied with
      | true => exact Or.inl (hc.kept b q hq hq' ha)
      | false => exact Or.inr ⟨q, hq, by simp [Computed.isPending, hq', ha]⟩

/-- A class that was not written back, and was open, inherits nothing. -/
theorem Writing.not_inherits (hv : v.Ordered late own t) {a b : Symbol}
    (ha : ∀ b, w.Inherits a b → v.Inherits a b) (hopen : ¬ Kept own t a v) :
    ¬ w.Inherits a b := fun h =>
  hopen (Or.inl (hv.grounded.done_of_inherits (ha b h)))

/-- On the way between classes that were open there are only references
that survived the cut. -/
theorem Writing.survives_of_reaches (hv : v.Ordered late own t)
    (hw : Writing own t v w) {a b : Symbol} (hb : ¬ Kept own t b v)
    (h : TransGen (w.InheritsBeside late) a b) :
    TransGen v.session.Survives a b := by
  have hopen : ∀ {x}, ReflTransGen (w.InheritsBeside late) x b →
      ¬ Kept own t x v := fun hx hk => hb (hw.kept_of_reaches hv hk hx).1
  have hstep : ∀ {x y}, ReflTransGen (w.InheritsBeside late) x b →
      w.InheritsBeside late x y → v.session.Survives x y := by
    intro x y hx hxy
    refine ((hw.inherits x).resolve_left fun hold => ?_).2 y hxy.1
    exact not_inherits hv hold (hopen hx) hxy.1
  induction h using TransGen.head_induction_on with
  | single hab => exact .single (hstep (.single hab) hab)
  | head hac hcb ih => exact .head (hstep (.head hac hcb.to_reflTransGen) hac) ih

/-- Writing back the results of a session whose cycles are broken closes
no cycle beside late classes. -/
theorem Writing.ordered (hv : v.Ordered late own t) (hc : v.Closed own t)
    (hw : Writing own t v w)
    (hdealt : ∀ c r, v.session.result? c = some r → r.committed = false →
      Kept own t c w) : w.Ordered late own t := by
  refine ⟨hw.grounded, fun a ha => ?_, fun a b hab => ?_⟩
  · by_cases hk : Kept own t a v
    · -- a cycle of old classes was there before
      obtain ⟨b, hab, hba⟩ := TransGen.head'_iff.mp ha
      have hold : v.InheritsBeside late a b :=
        ⟨(hw.inherits a).resolve_right (fun h => h.1 hk) b hab.1, hab.2⟩
      have hb := (hv.excused a b hold.1).resolve_right fun h => hab.2 h.1
      have hreach := (hw.kept_of_reaches hv hb hba).2
      exact hv.acyclic a (TransGen.head'_iff.mpr ⟨b, hold, hreach⟩)
    · exact Session.not_circular hc.followed hc.remembers.listed a
        (hw.survives_of_reaches hv hk ha)
  · rcases hw.inherits a with hold | ⟨-, hnew⟩
    · exact lasting_excused late own t b v w hw.later
        (hv.excused a b (hold b hab))
    · rcases hc.kept_or_pending (hnew b hab) with hk | ⟨r, hr, hp⟩
      · exact Or.inl (lasting_kept own t b v w hw.later hk)
      · exact Or.inl (hdealt b r hr (Computed.not_committed hp))

/-- The order of a hierarchy survives whole sessions. -/
theorem Ordered.writesBack (late : Symbol → Prop) (own : UnitId)
    (t : Thread) : WritesBack (Ordered late own t) own t :=
  { (Ordered.structural late own t).idle with
    referring := fun _ hw => hw.grounded.referring
    write := fun v hv hc => ⟨Writing own t v, _, Writing.tended own t v,
      ⟨hv.grounded, .refl v, fun _ => Or.inl fun _ h => h⟩,
      fun _ r hr hp => ⟨r, hr, hp, rfl⟩,
      fun _ hw hdealt => hw.ordered hv hc hdealt⟩ }

-- ========================================================== one request

namespace Ordered

variable {setup : Setup} {goal : Designation} {g : Guard}
  {cancellable : Bool} {phase : Phase}

/-- The phases of a request keep a hierarchy in order. -/
theorem runPhases (hquiet : setup.Quiet) (hg : g.lock = .ofUnit goal.unit.id)
    (phases : List Phase) :
    Triple (fun w => (w.Ordered late goal.unit.id t ∧
        w.Registered goal.unit) ∧ t.Alike w.thread)
      (Action.runPhases setup goal g cancellable phases)
      (fun _ w => (w.Ordered late goal.unit.id t ∧ w.Registered goal.unit) ∧
        t.Alike w.thread)
      fun w => w.Ordered late goal.unit.id t ∧ w.Registered goal.unit := by
  have hregistered := lasting_registered goal.unit
  have hstructural :=
    (Ordered.structural late goal.unit.id t).and_lasting hregistered
  have hwrites :=
    (Ordered.writesBack late goal.unit.id t).and_lasting hregistered
  refine AdvancesBy.keeps (runPhases_advances (S := Onward)
    (T := fun _ _ => True) (fun _ hw => hw.1) (fun _ => lasting_const True)
    fun p _ => ?_)
  refine hwrites.runPhase hstructural.idle (fun _ hw => hw.2) hg hquiet
    (lasting_const True) (fun _ _ _ => trivial) fun _ _ v w w' _ _ hw _ _ h => ⟨?_, trivial⟩
  exact hstructural.unmoved w w' hw h.unmoved
    (h.coherent hw.1.grounded.coherent hw.2)

/-- So does all that is done under the lock of the unit. -/
theorem resolveLocked (hquiet : setup.Quiet)
    (hg : g.lock = .ofUnit goal.unit.id) :
    Triple (fun w => (w.Ordered late goal.unit.id t ∧
        w.Registered goal.unit) ∧ t.Alike w.thread)
      (Action.resolveLocked setup goal phase cancellable g)
      (fun _ w => (w.Ordered late goal.unit.id t ∧ w.Registered goal.unit) ∧
        t.Alike w.thread)
      fun w => w.Ordered late goal.unit.id t ∧ w.Registered goal.unit := by
  have hstructural := (Ordered.structural late goal.unit.id t).and_lasting
    (lasting_registered goal.unit)
  have hI := hstructural.idle.alike t
  refine hI.resolveLocked (fun _ hw => hw.1)
    (hI.fileWork fun _ hw => hw.1.2) ((hstructural.keepsFile fun _ hw => hw.2).alike t)
    fun _ current => ?_
  exact (runPhases hquiet hg _).pre fun _ hw => hw.1.1

/-- A request that begins in order ends in order. -/
theorem request {allowLocal : Bool} {s : Symbol} (hquiet : setup.Quiet) :
    Triple (fun w => ∀ own t, w.Ordered late own t)
      (Action.request setup allowLocal s phase cancellable)
      (fun _ w => ∃ own t, w.Ordered late own t)
      fun w => ∃ own t, w.Ordered late own t := by
  have hall : Structural fun w => ∀ own t, w.Ordered late own t :=
    .all fun own => .all fun t => Ordered.structural late own t
  have hsome : Structural fun w => ∃ own t, w.Ordered late own t :=
    .some fun own => .some fun t => Ordered.structural late own t
  have hweaken : ∀ w : World, (∀ own t, w.Ordered late own t) →
      ∃ own t, w.Ordered late own t := fun w hw =>
    ⟨default, default, hw default default⟩
  refine hall.idle.request hweaken fun u x goal _ _ hgoal => ?_
  obtain rfl := CompilationUnit.unit_of_designateWith hgoal
  have hbegin := hall.and_lasting (lasting_registered goal.unit)
  refine hsome.idle.resolveDesignation (fun w hw _ => ?_) (.pre ?_ fun w hw =>
    hw.1)
  · exact hsome.idle.counters w _ (Nat.le_refl _) (hweaken w hw.1)
  refine resolveUnderLock_triple hbegin.idle.thread hsome.idle.thread
    hsome.idle.thread (fun w hw => hweaken w hw.1) fun g hg => ?_
  rintro w ⟨hw, hu⟩
  refine ((resolveLocked (t := w.thread) hquiet hg).conseq (fun _ hw => hw)
    (fun _ w hw => ?_) fun w hw => ?_) w ⟨⟨hw _ _, hu⟩, .refl _⟩
  · exact ⟨_, _, hw.1.1⟩
  · exact ⟨_, _, hw.1⟩

end Ordered

-- ========================================================= between requests

/-- What holds between calls: there are no cycles, and where a class was
left open that others inherit from, that was counted. -/
structure Arranged (w : World) : Prop where
  grounded : w.Grounded
  acyclic : w.Acyclic
  putOff : ∀ b, w.PutOff b → 0 < w.counters.deferred

namespace Arranged

/-- Nothing is inherited at the start. -/
theorem start {r : Registry} (hr : (World.start r).Coherent) :
    (World.start r).Arranged where
  grounded := .start hr
  acyclic := fun a ha => by
    obtain ⟨b, hab, -⟩ := TransGen.head'_iff.mp ha
    exact not_inherits_start hr hab
  putOff := fun b ⟨⟨a, hab⟩, _⟩ => absurd hab (not_inherits_start hr)

/-- Nothing that leaves clauses alone changes that. -/
theorem structural : Structural Arranged where
  coherent := fun _ hw => hw.grounded.coherent
  unmoved := fun v w hv h hw => by
    have hiff : ∀ a b, w.Inherits a b ↔ v.Inherits a b := fun _ _ =>
      h.inherits_iff hv.grounded.coherent hw
    refine ⟨hv.grounded.unmoved h hw, fun a ha => hv.acyclic a ?_, ?_⟩
    · exact TransGen.mono (fun a b hab => (hiff a b).mp hab) _ _ ha
    · rintro b ⟨⟨a, hab⟩, hopen⟩
      refine Nat.lt_of_lt_of_le (hv.putOff b ⟨⟨a, (hiff a b).mp hab⟩, ?_⟩)
        h.later.deferred
      exact fun hdone => hopen (lasting_done b v w h.later hdone)

/-- Nor does registering and replacing units. -/
theorem reregisters (hv : v.Arranged) (h : v.Reregisters w) :
    w.Arranged := by
  have hc := hv.grounded.coherent
  refine ⟨hv.grounded.reregisters h, fun a ha => hv.acyclic a ?_, ?_⟩
  · exact TransGen.mono (fun a b hab => h.inherits hc hab) _ _ ha
  · rintro b ⟨⟨a, hab⟩, hopen⟩
    rw [h.counters]
    refine hv.putOff b ⟨⟨a, h.inherits hc hab⟩, fun hdone => hopen ?_⟩
    exact hdone.reregisters h

/-- At the beginning of a request only classes that were put off are late. -/
theorem ordered (hw : w.Arranged) (own : UnitId) (t : Thread) :
    w.Ordered w.PutOff own t where
  grounded := hw.grounded
  acyclic := fun a ha =>
    hw.acyclic a (TransGen.mono (fun _ _ h => h.1) _ _ ha)
  excused := fun a b hab => by
    by_cases hdone : w.Done b
    · exact Or.inl (Or.inl hdone)
    · have hb : w.PutOff b := ⟨⟨a, hab⟩, hdone⟩
      exact Or.inr ⟨hb, hw.putOff b hb⟩

/-- At its end there is no cycle if none was closed at a late class. -/
theorem of_ordered (hw : w.Ordered late own t)
    (hlate : ∀ b, late b → ¬ TransGen w.Inherits b b) : w.Arranged where
  grounded := hw.grounded
  acyclic := hw.acyclic.acyclic hlate
  putOff := by
    rintro b ⟨⟨a, hab⟩, hopen⟩
    rcases hw.excused a b hab with (hdone | ⟨-, -, hpos⟩) | ⟨-, hpos⟩
    · exact absurd hdone hopen
    · exact hpos
    · exact hpos

end Arranged

end World

-- ============================================================== histories

/-- No class that was put off before a call inherits from itself after it. -/
def Careful (setup : Setup) (w : World) (call : Call) : Prop :=
  ∀ b, w.PutOff b → ¬ TransGen (call.run setup w).Inherits b b

/-- Careful calls keep hierarchies free of cycles. -/
theorem Reaches.arranged {setup : Setup} (hquiet : setup.Quiet) {w : World}
    (h : Reaches setup (Careful setup) w) : w.Arranged := by
  have hsteady := World.Arranged.structural.idle
  refine (h.invariant hquiet ?_ ?_ hsteady.thread ?_ ?_).2
  · exact fun r hr => .start hr
  · exact fun v w _ hv h => hv.reregisters h
  · intro w allowLocal s phase cancellable _ hw hcareful
    obtain ⟨own, t, hordered⟩ :=
      (World.Ordered.request hquiet).world hw.ordered
    exact .of_ordered hordered hcareful
  · intro w id _ hw
    refine (hsteady.resolveFile fun u => ?_).world hw
    exact (World.Arranged.structural.and_lasting
      (lasting_registered u)).keepsFile fun _ hw => hw.2

/-- A call cannot close a cycle while nothing was put off. -/
theorem World.Arranged.careful {setup : Setup} {w : World}
    (hw : w.Arranged) (hzero : w.counters.deferred = 0) (call : Call) :
    Careful setup w call := fun b hb _ => by
  have hpos := hw.putOff b hb
  omega

/-- As long as nothing was put off all calls were careful. -/
theorem Reaches.careful {setup : Setup} (hquiet : setup.Quiet) {w : World}
    (h : Reaches setup anyCall w) (hzero : w.counters.deferred = 0) :
    Reaches setup (Careful setup) w := by
  induction h with
  | start r h => exact .start r h
  | step w call hw _ ih =>
      have hle := call.deferred_le hquiet (hw.coherent hquiet)
      have hzero' : w.counters.deferred = 0 := by omega
      exact .step w call (ih hzero')
        (((ih hzero').arranged hquiet).careful hzero' call)

/-- Committed inheritance has no cycles, whatever is registered, replaced,
looked up and asked for in whatever order, and whichever locks others
hold, as long as nothing was put off. Where something was, there are none
either unless a call closes one at a class that an earlier call put off;
and a call that does so leaves a cycle. -/
theorem acyclic_of_careful {setup : Setup} (hquiet : setup.Quiet) :
    (∀ w, Reaches setup anyCall w → w.counters.deferred = 0 → w.Acyclic) ∧
      ∀ w, Reaches setup (Careful setup) w → w.Acyclic ∧
        ∀ call, (call.run setup w).Acyclic ↔ Careful setup w call := by
  refine ⟨fun w h hzero => ((h.careful hquiet hzero).arranged hquiet).acyclic,
    fun w h => ⟨(h.arranged hquiet).acyclic, fun call => ⟨?_, ?_⟩⟩⟩
  · exact fun hacyclic b _ => hacyclic b
  · exact fun hcareful => ((h.step w call hcareful).arranged hquiet).acyclic

/-- A base class in a unit of its own. -/
def UnitSpec.base : UnitSpec :=
  .ofEntries "lib.kt" [.member 0 (.classNamed "Base" [])]

/-- A class that extends it. -/
def UnitSpec.derived : UnitSpec :=
  .ofEntries "main.kt" [.member 0 (.classNamed "Derived" ["Base"])]

/-- The base class is put off while another thread has its unit, and later
asked for itself. -/
theorem acyclic_of_careful_base :
    let taken := World.after (.plain .default) [.addUnit .base,
      .addUnit .derived, .otherTakes (.ofUnit ⟨0⟩)]
    let late := (Action.resolve (.plain .default) ⟨⟨1⟩, ⟨1⟩⟩ .supertypes false
      taken).2
    let free := (Action.updateThread (fun t => t.otherReleases (.ofUnit ⟨0⟩))
      late).2
    let w := (Action.resolve (.plain .default) ⟨⟨0⟩, ⟨1⟩⟩ .supertypes false
      free).2
    late.counters.deferred = 1 ∧ w.Inherits ⟨⟨1⟩, ⟨1⟩⟩ ⟨⟨0⟩, ⟨1⟩⟩ ∧
      w.Acyclic := by
  intro taken late free w
  have hquiet := Setup.quiet_plain .default
  have htaken : Reaches (.plain .default) (Careful (.plain .default)) taken :=
    (Reaches.after _ _).careful hquiet (by decide +kernel)
  have hlate : Reaches (.plain .default) (Careful (.plain .default)) late :=
    htaken.step _ (.resolve false ⟨⟨1⟩, ⟨1⟩⟩ .supertypes false)
      ((htaken.arranged hquiet).careful (by decide +kernel) _)
  -- now a class was put off, and its unit comes before that of the other
  have hfree : Reaches (.plain .default) (Careful (.plain .default)) free := by
    refine hlate.step _ (.otherReleases (.ofUnit ⟨0⟩)) fun b _ => ?_
    refine World.acyclic_of_rank ?_ (fun c => c.unit.index) (by decide +kernel) b
    exact (Reaches.step _ _ hlate.any trivial).coherent hquiet
  have hw : Reaches (.plain .default) (Careful (.plain .default)) w := by
    refine hfree.step _ (.resolve false ⟨⟨0⟩, ⟨1⟩⟩ .supertypes false)
      fun b _ => ?_
    refine World.acyclic_of_rank ?_ (fun c => c.unit.index) (by decide +kernel) b
    exact (Reaches.step _ _ hfree.any trivial).coherent hquiet
  exact ⟨by decide +kernel, by decide +kernel,
    ((acyclic_of_careful hquiet).2 w hw).1⟩

-- ============================================================== a late cycle

/-- Three units whose classes extend each other in a circle, the last of
which is registered late. -/
def UnitSpec.circle (path : String) (name base : String) : UnitSpec :=
  .ofEntries path [.member 0 (.classNamed name [base])]

/-- The class D is put off while what it extends is not there yet. When it
is asked for again its clause is not checked against that of A, which was
written when D was put off. -/
theorem not_acyclic_circle :
    ∃ w, Reaches (.plain .default) anyCall w ∧ ¬ w.Acyclic := by
  refine ⟨_, Reaches.after (.plain .default) [.addUnit (.circle "d.kt" "D" "B"),
    .addUnit (.circle "a.kt" "A" "D"), .otherTakes (.ofUnit ⟨0⟩),
    .resolve false ⟨⟨1⟩, ⟨1⟩⟩ .supertypes false, .otherReleases (.ofUnit ⟨0⟩),
    .addUnit (.circle "b.kt" "B" "A"),
    .resolve false ⟨⟨2⟩, ⟨1⟩⟩ .supertypes false,
    .resolve false ⟨⟨0⟩, ⟨1⟩⟩ .supertypes false], fun h => h ⟨⟨0⟩, ⟨1⟩⟩ ?_⟩
  refine .head (b := ⟨⟨2⟩, ⟨1⟩⟩) (by decide +kernel) ?_
  refine .head (b := ⟨⟨1⟩, ⟨1⟩⟩) (by decide +kernel) ?_
  exact .single (by decide +kernel)

end StagedResolve
