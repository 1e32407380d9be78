/-
Deferral: what putting results off leaves of a request.

# The same request, while others are busy

A request is made twice from one state, the second time while other threads
hold the locks of some units. Where the thread may not wait for those, the
second run puts off what its sessions have found out about their classes
(`Thread.CutsOff`). Both runs are followed side by side: they are in a
contest (`Contest.ofThreads`), and what the second one cannot get at is what
it is cut off from.

# Where it does harm

The supertype phase does not notice. Its session keeps what it has put off,
so it never has to read a clause that it could not write. Later phases look
names up in the hierarchy as it was committed, and there the clause of a
class that was put off still is as it was. So it takes that the first run
has not changed what the classes of those units refer to (`Harmless`); and
as long as nothing is put off at all the runs are the same. The last phase
begins sessions of its own, so nothing is said of it unless nothing was put
off.
-/
import StagedResolve.Proofs.Contention
import StagedResolve.Proofs.Staging

namespace StagedResolve

open StagedResolve.Action World

-- ============================================================ other threads

namespace Thread

variable {r s t : Thread} {l l' : LockId} {own id : UnitId}

/-- The thread once others have taken the locks of some units. -/
def othersTake (t : Thread) (ids : List UnitId) : Thread :=
  ids.foldl (fun t id => t.otherTakes (.ofUnit id)) t

/-- That leaves the token. -/
theorem token_othersTake (t : Thread) (ids : List UnitId) :
    (t.othersTake ids).token = t.token := by
  unfold othersTake
  induction ids generalizing t with
  | nil => rfl
  | cons id rest ih => exact ih (t.otherTakes (.ofUnit id))

/-- While it holds the lock of its own unit the thread can neither take the
lock of another one nor wait for it. -/
def CutsOff (t : Thread) (own id : UnitId) : Prop :=
  (t.lock (.ofUnit own)).2.Blocked (.ofUnit id)

/-- The mutexes once a lock was taken. -/
theorem lock_mutex (t : Thread) (l l' : LockId) : (t.lock l).2.mutex l' =
    if l = l' then ⟨(t.mutex l).ours + 1, false⟩ else t.mutex l' := by
  unfold lock
  cases htheirs : (t.mutex l).theirs with
  | true =>
      rw [if_pos rfl, mutex_insert (t.wait l) l l' _ _ rfl,
        mutex_insert t l l _ (t.wait l) rfl, mutex_insert t l l' _ (t.wait l) rfl,
        if_pos rfl]
      split
      · rfl
      · rfl
  | false =>
      rw [if_neg Bool.false_ne_true, mutex_insert t l l' _ _ rfl, ← htheirs]

/-- What is held once a lock was taken. -/
theorem lock_held (t : Thread) (l : LockId) :
    (t.lock l).2.held = if t.owns l then t.held else l.unit :: t.held := by
  unfold lock
  split
  · show (if (t.wait l).owns l then _ else _) = _
    rw [owns, mutex_insert t l l _ (t.wait l) rfl, if_pos rfl]
    rfl
  · rfl

/-- A thread is cut off from units whose locks others hold, and never from its
own one. -/
theorem CutsOff.theirs (h : t.CutsOff own id) :
    (t.mutex (.ofUnit id)).theirs = true ∧ id ≠ own := by
  have htheirs := Blocked.theirs h
  rw [lock_mutex] at htheirs
  split at htheirs
  · cases htheirs
  · next hne => exact ⟨htheirs, fun heq => hne (heq ▸ rfl)⟩

namespace Freer

theorem refl (t : Thread) : t.Freer t := ⟨rfl, fun _ => rfl, fun _ => id⟩

theorem trans (h : r.Freer s) (h' : s.Freer t) : r.Freer t :=
  ⟨h.held.trans h'.held, fun l => (h.ours l).trans (h'.ours l),
    fun l hl => h'.theirs l (h.theirs l hl)⟩

/-- Only locks count. -/
theorem of_eq (hm : s.mutexes = t.mutexes) (hh : s.held = t.held) : s.Freer t := by
  have hmutex : ∀ l, s.mutex l = t.mutex l := fun l => by rw [mutex, mutex, hm]
  exact ⟨hh, fun l => by rw [hmutex], fun l hl => by rwa [← hmutex]⟩

/-- The same thread is as free. -/
theorem of_same (h : s.Same t) : s.Freer t :=
  ⟨h.held, fun l => by rw [h.mutex], fun l hl => by rwa [← h.mutex]⟩

/-- Others take no locks from the thread. -/
theorem othersTake (t : Thread) (ids : List UnitId) :
    t.Freer (t.othersTake ids) := by
  have htake : ∀ (t : Thread) l, t.Freer (t.otherTakes l) := fun t l => by
    have hmutex : ∀ l', (t.otherTakes l).mutex l' =
        if l = l' then { t.mutex l with theirs := true } else t.mutex l' :=
      fun l' => mutex_insert t l l' _ _ rfl
    refine ⟨rfl, fun l' => ?_, fun l' hl' => ?_⟩ <;> rw [hmutex] <;> split
    · next heq => rw [heq]
    · rfl
    · rfl
    · exact hl'
  unfold Thread.othersTake
  induction ids generalizing t with
  | nil => exact refl t
  | cons id rest ih => exact (htake t _).trans (ih _)

/-- The guard says the same. -/
theorem guard (h : s.Freer t) (l : LockId) : (s.lock l).1 = (t.lock l).1 := by
  rw [lock_guard, lock_guard, h.owns]

/-- Taking the same lock. -/
theorem lock (h : s.Freer t) (l : LockId) : (s.lock l).2.Freer (t.lock l).2 := by
  refine ⟨?_, fun l' => ?_, fun l' hl' => ?_⟩
  · rw [lock_held, lock_held, h.owns, h.held]
  · rw [lock_mutex, lock_mutex, h.ours]
    split
    · rfl
    · exact h.ours l'
  · rw [lock_mutex] at hl' ⊢
    split
    · next heq =>
      rw [if_pos heq] at hl'
      cases hl'
    · next hne =>
      rw [if_neg hne] at hl'
      exact h.theirs l' hl'

end Freer

end Thread

-- ======================================================= the two runs at once

namespace Contest

variable {k : Contest} {setup : Setup} {cancellable : Bool}
  {goal : Designation} {g : Guard} {v₀ w₀ v w v' w' : World} {p : Phase}

/-- The contest of two threads that take the lock of the same unit. -/
def ofThreads (r : Registry) (own : UnitId) (s t : Thread) : Contest where
  first := (s.lock (.ofUnit own)).2
  second := (t.lock (.ofUnit own)).2
  beyond id :=
    if ((t.lock (.ofUnit own)).2.lockOrdered (.ofUnit id)).1.isNone then r.unit? id
    else none
  heeds := true

/-- Beyond reach is what the second thread is cut off from. -/
theorem beyond_ofThreads {r : Registry} {own id : UnitId} {s t : Thread}
    {u : CompilationUnit} : (ofThreads r own s t).beyond id = some u ↔
      t.CutsOff own id ∧ r.unit? id = some u := by
  unfold ofThreads Thread.CutsOff
  dsimp only
  split
  · next h =>
    exact iff_and_self.mpr fun _ =>
      (Thread.blocked_of_lockOrdered (Option.isNone_iff_eq_none.mp h)).1
  · next h =>
    refine iff_of_false nofun fun hcut => h ?_
    rw [hcut.1.lockOrdered]
    rfl

/-- It is a fair one, if others hold the locks of nothing but units. -/
theorem fair_ofThreads {r : Registry} (hr : r.Coherent) {s t : Thread}
    (hst : s.Freer t) (hheld : ∀ id, (t.mutex (.ofUnit id)).theirs = true →
      (r.unit? id).isSome = true) (own : UnitId) : (ofThreads r own s t).Fair where
  named := fun id u hu => hr.named id u (beyond_ofThreads.mp hu).2
  freer := hst.lock _
  blocked := fun _ _ hu => (beyond_ofThreads.mp hu).1
  known := fun id hid hnone => by
    obtain ⟨u, hu⟩ := Option.isSome_iff_exists.mp (hheld id (Thread.CutsOff.theirs hid).1)
    exact absurd (hnone.symm.trans (beyond_ofThreads.mpr ⟨hid, hu⟩)) nofun

-- ================================================= nothing is beyond reach

/-- Where both runs can get at every unit, and both put off the same or nothing
more is said about them, they do the same. -/
theorem phases {X : World → World → Prop} {away : World → Prop}
    (hnone : ∀ id, k.beyond id = none) (hfreer : k.first.Freer k.second)
    (hhooks : ∀ h ∈ setup.hooks, h.Blind)
    (hheeds : cancellable = true → k.heeds = true) (hX : k.Watches X away)
    (hsession : ∀ v w (f : Session → Session), X v w →
      X { v with session := f v.session } { w with session := f w.session })
    (hblocked : ∀ id v w, k.second.Blocked (.ofUnit id) → X v w →
      k.first.Blocked (.ofUnit id) ∨
        away { w with counters := w.counters.countDeferred }) :
    (SideBySide.contest k X away).Phases setup cancellable := by
  have hnamed : k.Named := fun id u hu => absurd ((hnone id).symm.trans hu) nofun
  have hshares := shares hnamed hX hhooks hheeds
  exact {
    toLookups := hshares.toLookups
    stop := hshares.stop
    state := fun v w u d h _ => hshares.state v w u d h (hnone _)
    write := fun g u d f _ => hshares.write g u d f (hnone _)
    count := hshares.count
    check := hshares.check
    hooks := hshares.hooks
    named := fun v w id u h hu => h.1.coherent.named id u hu
    session := fun v w h => h.1.session
    update := fun f => .update (fun w hw => hX.gone _ _ hw (Nat.le_refl _)) fun v w h =>
      ⟨{ h.1 with session := congrArg f h.1.session }, hsession v w f h.2⟩
    elsewhere := fun id u classes => by
      refine ⟨fun w hw => gone_elsewhere hnamed hX (hnone _) classes hw,
        fun v w ⟨hvw, hXvw⟩ => ?_⟩
      by_cases hid : k.second.Blocked (.ofUnit id)
      · have hw := elsewhere_of_blocked (u := u) classes (hvw.second.blocked_iff.mp hid)
        show away (elsewhere id u classes w).2 ∨ (SideBySide.contest k X away).Meets
          (elsewhere id u classes v) (elsewhere id u classes w)
        rw [hw]
        rcases hblocked id v w hid hXvw with hfirst | haway
        · -- both put it off
          rw [elsewhere_of_blocked classes (hvw.first.blocked_iff.mp hfirst)]
          exact (hX.count v w _ (fun _ => Nat.le_succ _) hXvw).imp_right
            fun hX' => ⟨rfl, { hvw with }, hX'⟩
        · exact Or.inl haway
      · exact meets_elsewhere hnamed hfreer hX (hnone _) hid classes hvw hXvw }

-- ==================================================== the phases, one by one

/-- The supertype phase does not notice what it cannot write. -/
theorem Fair.runPhase_supertypes (hk : k.Fair) (hplain : k.Plain)
    (hhooks : ∀ h ∈ setup.hooks, h.Blind) (hu : k.Common goal.unit)
    (hheeds : cancellable = true → k.heeds = true)
    (hsame : v₀.states = w₀.states) (g : Guard) :
    Leads (.contest k (k.Still v₀ w₀) fun _ => False)
      (.contest k (k.Met w₀) fun _ => False)
      (runPhase setup goal g cancellable .supertypes) := by
  have hp := shares hk.named (k.watches_still v₀ w₀) hhooks hheeds
  have hq := shares hk.named (hk.named.watches_met w₀) hhooks hheeds
  have hpq : (SideBySide.contest k (k.Still v₀ w₀) fun _ => False).Weakens
      (.contest k (k.Met w₀) fun _ => False) :=
    ⟨fun _ _ h => ⟨h.1, h.2.met hk.named hsame⟩, fun _ _ h => h, fun _ h => h, id⟩
  have hstart : Keeps (.contest k (k.Still v₀ w₀) fun _ => False)
      (updateSession fun _ => .start) :=
    .update (fun _ => id) fun _ _ h => ⟨{ h.1 with session := rfl }, h.2⟩
  refine hp.runPhase hq hu hpq (hstart.leads.post hpq) g
    fun c rule hrule hsetup hunit hb => ?_
  cases hrule
  have hc : k.Common c.unit := hunit ▸ hu
  have hclass : ∀ d, Keeps (.contest k (k.Met w₀) fun _ => False)
      (PhaseRule.classSupertypes c d) := fun d => by
    unfold PhaseRule.classSupertypes
    split
    · exact hk.keeps_resolveSupertypes hplain hc (hb ▸ hheeds) _
    · exact .pure
  exact
    { stop := hq.stop
      own := fun _ _ d h => hq.own h hc d
      below := fun _ _ d h => hq.below h hc d
      header := fun d _ => hclass d
      member := fun d _ => hclass d
      hooks := fun d _ => hq.runHooks hsetup _ d }

/-- A later phase before the last one does not notice either, if the clauses
out there refer to the same classes, or if it looks nothing up. -/
theorem Named.runPhase_later (hk : k.Named)
    (hhooks : ∀ h ∈ setup.hooks, h.Blind) (hu : k.Common goal.unit)
    (hheeds : cancellable = true → k.heeds = true) (g : Guard)
    (hp : .supertypes < p ∧ p < .bodies)
    (hlevel : p = .sealedInheritors ∨ k.Level v₀ w₀) :
    Keeps (.contest k (k.Still v₀ w₀) fun _ => False)
      (runPhase setup goal g cancellable p) := by
  have hq := shares hk (k.watches_still v₀ w₀) hhooks hheeds
  have hstart : Keeps (.contest k (k.Still v₀ w₀) fun _ => False)
      (updateSession fun _ => .start) :=
    .update (fun _ => id) fun _ _ h => ⟨{ h.1 with session := rfl }, h.2⟩
  refine (hq.runPhase hq hu (.refl _) hstart.leads g fun c rule hrule hsetup hunit _ => ?_).keeps
  have hc : k.Common c.unit := hunit ▸ hu
  rcases hlevel with rfl | hlevel
  · cases hrule
    exact
      { stop := hq.stop
        own := fun _ _ d h => hq.own h hc d
        below := fun _ _ d h => hq.below h hc d
        header := fun _ _ => .pure
        member := fun _ _ => .pure
        hooks := fun d _ => hq.runHooks hsetup _ d }
  · have hwork := hq.work hc fun _ _ s h =>
      committedClasses_eq h.1 (h.2.level hk hlevel) s
    refine .of_rule hrule hwork.tasks (fun _ _ d h => hq.own h hc d)
      (fun _ _ d h => hq.below h hc d) (fun q d _ => hq.runHooks hsetup q d) ?_
    rintro d (rfl | ⟨rfl, -⟩)
    · exact absurd hp.1 (Nat.lt_irrefl _)
    · exact absurd hp.2 (Nat.lt_irrefl _)

/-- Nor do several of them. -/
theorem Named.runPhases_later (hk : k.Named)
    (hhooks : ∀ h ∈ setup.hooks, h.Blind) (hu : k.Common goal.unit)
    (hheeds : cancellable = true → k.heeds = true) (g : Guard)
    {phases : List Phase} (hphases : ∀ q ∈ phases, .supertypes < q ∧ q < .bodies)
    (hlevel : (∀ q ∈ phases, q = .sealedInheritors) ∨ k.Level v₀ w₀) :
    Keeps (.contest k (k.Still v₀ w₀) fun _ => False)
      (runPhases setup goal g cancellable phases) := by
  have hq := shares hk (k.watches_still v₀ w₀) hhooks hheeds
  exact .each fun q hmem => .bind (hq.check q) fun _ =>
    hk.runPhase_later hhooks hu hheeds g (hphases q hmem) (hlevel.imp_left fun h => h q hmem)

/-- What they leave of the units out there, which is all that was there. -/
theorem untouched_of_runPhases (hk : k.Named)
    (hhooks : ∀ h ∈ setup.hooks, h.Blind) (hu : k.Common goal.unit)
    (hheeds : cancellable = true → k.heeds = true)
    {phases : List Phase} (hphases : ∀ q ∈ phases, .supertypes < q ∧ q < .bodies)
    (h : World.Beside k v w)
    (hv : runPhases setup goal g cancellable phases v = (.ok (), v'))
    {c : Symbol} (hc : k.beyond c.unit ≠ none) :
    v'.states.find? c = v.states.find? c := by
  -- the first run beside itself
  have hself : World.Beside ⟨k.first, k.first, k.beyond, k.heeds⟩ v v :=
    { registry := rfl
      coherent := h.registry ▸ h.coherent
      session := rfl
      log := rfl
      token := fun _ => rfl
      first := h.first
      second := h.first
      there := h.registry ▸ h.there
      common := fun _ _ => rfl
      imports := fun _ _ _ => rfl }
  have hlevel : Level ⟨k.first, k.first, k.beyond, k.heeds⟩ v v := fun _ _ _ _ _ _ => rfl
  have hkeeps := Named.runPhases_later (k := ⟨k.first, k.first, k.beyond, k.heeds⟩)
    hk hhooks hu hheeds g hphases (Or.inr hlevel)
  have hend := hkeeps.leads.ok ⟨hself, fun _ _ => ⟨rfl, rfl⟩⟩ hv hv id
  exact (hend.2.2 c hc).1

-- ============================================================ what comes after

section runs

variable {phases : List Phase}

/-- Clauses refer to the same classes as long as nothing is written. -/
theorem Level.congr (h : k.Level v w) (hk : k.Named)
    (hv : ∀ c : Symbol, k.beyond c.unit ≠ none →
      v'.states.find? c = v.states.find? c)
    (hw : ∀ c : Symbol, k.beyond c.unit ≠ none →
      w'.states.find? c = w.states.find? c) : k.Level v' w' :=
  Still.level (fun c hc => ⟨hv c hc, hw c hc⟩) hk h

/-- The phases after the supertype phase, up to where the first run ends. -/
theorem Named.beside_of_later (hk : k.Named)
    (hhooks : ∀ h ∈ setup.hooks, h.Blind) (hu : k.Common goal.unit)
    (hheeds : cancellable = true → k.heeds = true)
    (hphases : ∀ q ∈ phases, .supertypes < q ∧ q < .bodies)
    (h : World.Beside k v w) (huntouched : ∀ c : Symbol, k.beyond c.unit ≠ none →
      w.states.find? c = w₀.states.find? c)
    (hlevel : (∀ q ∈ phases, q = .sealedInheritors) ∨ k.Level v' w₀)
    (hv : runPhases setup goal g cancellable phases v = (.ok (), v'))
    (hw : runPhases setup goal g cancellable phases w = (.ok (), w')) :
    World.Beside k v' w' := by
  have hlevel : (∀ q ∈ phases, q = .sealedInheritors) ∨ k.Level v w :=
    hlevel.imp_right fun hlevel => hlevel.congr hk
      (fun _ hc => (untouched_of_runPhases hk hhooks hu hheeds hphases h hv hc).symm)
      huntouched
  exact ((hk.runPhases_later hhooks hu hheeds g hphases hlevel).leads.ok
    ⟨h, fun _ _ => ⟨rfl, rfl⟩⟩ hv hw id).2.1

/-- The phases of a request. -/
theorem Fair.beside_of_runPhases (hk : k.Fair) (hplain : k.Plain)
    (hhooks : ∀ h ∈ setup.hooks, h.Blind) (hu : k.Common goal.unit)
    (hheeds : cancellable = true → k.heeds = true) {x : Phase}
    (hp : p < .bodies) (hsame : v₀.states = w₀.states)
    (h : World.Beside k v w) (hstill : k.Still v₀ w₀ v w)
    (hlevel : .types ≤ p → k.Level v' w₀)
    (hv : runPhases setup goal g cancellable ((max x .lastFileWide).stepsTo p) v =
      (.ok (), v'))
    (hw : runPhases setup goal g cancellable ((max x .lastFileWide).stepsTo p) w =
      (.ok (), w')) :
    World.Beside k v' w' := by
  have hsteps : ∀ before {rest}, (max x .lastFileWide).stepsTo p = before ++ rest →
      (∀ q ∈ rest, .supertypes < q) → (∀ q ∈ rest, .supertypes < q ∧ q < .bodies) ∧
        ((∀ q ∈ rest, q = .sealedInheritors) ∨ k.Level v' w₀) := by
    intro before rest heq hrest
    have hle : ∀ q ∈ rest, q ≤ p := fun q hq => Phase.le_of_mem_stepsTo
      (heq ▸ List.mem_append_right before hq)
    refine ⟨fun q hq => ⟨hrest q hq, Nat.lt_of_le_of_lt (hle q hq) hp⟩, ?_⟩
    by_cases htypes : .types ≤ p
    · exact Or.inr (hlevel htypes)
    · refine Or.inl fun q hq => ?_
      have hlow := Nat.lt_of_le_of_lt (hle q hq) (Phase.lt_of_not_le htypes)
      have hhigh := hrest q hq
      revert hlow hhigh
      cases q <;> decide
  by_cases hx : x < .supertypes
  · rcases Phase.stepsTo_eq_nil_or_cons hx (p := p) with hnil | ⟨rest, hcons⟩
    · rw [hnil] at hv hw
      cases hv
      cases hw
      exact h
    · have hup := Phase.stepsTo_pairwise (max x .lastFileWide) p
      obtain ⟨hphases, hlevel⟩ := hsteps [.supertypes] hcons
        (List.pairwise_cons.mp (hcons ▸ hup)).1
      rw [hcons] at hv hw
      obtain ⟨⟨⟩, v₁, hv₁, hv⟩ := bind_run_eq_ok_iff.mp hv
      obtain ⟨⟨⟩, w₁, hw₁, hw⟩ := bind_run_eq_ok_iff.mp hw
      have hshares := shares hk.named (k.watches_still v₀ w₀) hhooks hheeds
      have hfirst := (hshares.check .supertypes).leads.bind (fun _ =>
        hk.runPhase_supertypes hplain hhooks hu hheeds hsame g)
        ⟨fun _ _ h => ⟨h.1, h.2.met hk.named hsame⟩, fun _ _ h => h, fun _ h => h, id⟩
      obtain ⟨-, h₁, hmet⟩ := hfirst.ok ⟨h, hstill⟩ hv₁ hw₁ id
      exact hk.named.beside_of_later hhooks hu hheeds hphases h₁ hmet.untouched hlevel hv hw
  · -- the supertype phase was passed before
    obtain ⟨hphases, hlevel⟩ := hsteps [] rfl fun q hq =>
      Nat.lt_of_le_of_lt (Phase.le_of_not_lt hx)
        (Phase.max_lt_iff.mp (Phase.mem_stepsTo_iff.mp hq).1.1).1
    exact hk.named.beside_of_later hhooks hu hheeds hphases h (fun c hc => (hstill c hc).2)
      hlevel hv hw

/-- All that is done once the unit is locked. -/
theorem Fair.beside_of_resolveLocked (hk : k.Fair) (hplain : k.Plain)
    (hhooks : ∀ h ∈ setup.hooks, h.Blind) (hu : k.Common goal.unit)
    (hheeds : cancellable = true → k.heeds = true)
    (hp : p < .bodies) (hsame : v.states = w.states) (h : World.Beside k v w)
    (hlevel : .types ≤ p → k.Level v' w)
    (hv : resolveLocked setup goal p cancellable g v = (.ok (), v'))
    (hw : resolveLocked setup goal p cancellable g w = (.ok (), w')) :
    World.Beside k v' w' := by
  have hshares := shares hk.named (k.watches_still v w) hhooks hheeds
  have hstart : (SideBySide.contest k (k.Still v w) fun _ => False).along v w :=
    ⟨h, fun _ _ => ⟨rfl, rfl⟩⟩
  cases hfile : goal.isFile with
  | true =>
      have hbegun : k.Level v w := fun _ _ _ x hid _ => congrArg
        (fun slots => ResolvedType.classes (Slot.types slots))
        (hk.named.clause_eq hid (fun _ _ => by rw [hsame]) x.id).1
      exact ((hshares.resolveLocked_file hu (fun _ _ s h => committedClasses_eq h.1
        (h.2.level hk.named hbegun) s) hfile p g).leads.ok hstart hv hw id).2.1
  | false =>
      obtain ⟨a, v₁, hv₁, -⟩ := bind_run_eq_ok_iff.mp hv
      obtain ⟨b, w₁, hw₁, -⟩ := bind_run_eq_ok_iff.mp hw
      obtain ⟨-, h₁⟩ := (hshares.resolveImports hu g).leads.ok hstart hv₁ hw₁ id
      rw [resolveLocked_run hfile hv₁, hshares.current h₁ hu] at hv
      rw [resolveLocked_run hfile hw₁] at hw
      split at hv
      · next hle =>
        rw [if_pos hle] at hw
        cases hv
        cases hw
        exact { h₁.1 with }
      · next hle =>
        rw [if_neg hle] at hw
        exact hk.beside_of_runPhases hplain hhooks hu hheeds hp hsame h₁.1 h₁.2 hlevel hv hw

end runs

end Contest

-- ==================================================================== requests

/-- What a request from `v` for a phase has led to in `v'`, where units that a
thread is cut off from cannot matter to it: classes there are inside of
nothing but classes, and what they refer to has not changed if names were
looked up after the supertype phase. -/
structure Thread.Harmless (t : Thread) (own : UnitId) (p : Phase) (v v' : World) :
    Prop where
  early : p < .bodies
  place : ∀ id u d, t.CutsOff own id → v.registry.unit? id = some u →
    u.isClassLike d = true → u.isEligible d = true → u.InClasses d
  level : .types ≤ p → ∀ c : Symbol, t.CutsOff own c.unit →
    v'.committedClasses c = v.committedClasses c

section requests

variable {setup : Setup} {cancellable : Bool} {goal : Designation} {p : Phase}
  {v v' w' : World} {t : Thread}

/-- Under the lock, both requests leave the same in the unit that is locked,
unless what was put off does harm. -/
theorem World.Coherent.state_eq_of_resolveLocked (hv : v.Coherent)
    (hhooks : ∀ h ∈ setup.hooks, h.Blind)
    (htoken : v.thread.token = t.token) (hfreer : v.thread.Freer t)
    (hheld : ∀ id, (t.mutex (.ofUnit id)).theirs = true →
      (v.registry.unit? id).isSome = true)
    (hlater : ∀ u, v.Registered u → v'.Registered u) {g : Guard}
    (hfree : Action.resolveLocked setup goal p cancellable g { v with
      thread := (v.thread.lock (.ofUnit goal.unit.id)).2 } = (.ok (), v'))
    (hbusy : Action.resolveLocked setup goal p cancellable g { v with
      thread := (t.lock (.ofUnit goal.unit.id)).2 } = (.ok (), w'))
    (hharm : w'.counters.deferred = v.counters.deferred ∨
      t.Harmless goal.unit.id p v v') (d : DeclId) :
    v'.state goal.unit d = w'.state goal.unit d := by
  set k := Contest.ofThreads v.registry goal.unit.id v.thread t
  have htoken : (v.thread.lock (.ofUnit goal.unit.id)).2.token =
      (t.lock (.ofUnit goal.unit.id)).2.token :=
    ((v.thread.token_lock _).trans htoken).trans (t.token_lock _).symm
  rcases hharm with hnone | hharm
  · have hphases : (SideBySide.contest ⟨k.first, k.second, fun _ => none, true⟩
        (fun _ w => w.counters.deferred = v.counters.deferred)
        fun w => v.counters.deferred < w.counters.deferred).Phases setup cancellable :=
      Contest.phases (fun _ => rfl) (hfreer.lock _) hhooks (fun _ => rfl)
        (Contest.watches_deferred _ _) (fun _ _ _ h => h)
        fun _ _ w _ h => Or.inr (Nat.lt_succ_of_le (Nat.le_of_eq h.symm))
    obtain ⟨-, hend, -⟩ := (hphases.resolveLocked goal p g).leads.ok
      ⟨.of_threads hv.registry (.refl _) (.refl _) (fun _ => htoken) nofun, rfl⟩
      hfree hbusy (Nat.not_lt_of_le (Nat.le_of_eq hnone))
    exact hend.state rfl d
  · have hk : k.Fair := Contest.fair_ofThreads hv.registry hfreer hheld _
    have hbeyond : ∀ {id u}, k.beyond id = some u →
        t.CutsOff goal.unit.id id ∧ v.registry.unit? id = some u :=
      Contest.beyond_ofThreads.mp
    have hplain : k.Plain := by
      intro id u e hid hclass hpassed
      obtain ⟨hcut, hreg⟩ := hbeyond hid
      have heligible : u.isEligible e = true := by
        obtain ⟨-, -, -, -, -, -, -, he⟩ := hpassed
        exact he
      exact CompilationUnit.HasClause.not_passed (hv.registry.wellFormed id u hreg)
        ⟨hclass, heligible, hharm.place id u e hcut hreg hclass heligible⟩ hpassed
    have hcommon : k.Common goal.unit := by
      cases hid : k.beyond goal.unit.id with
      | none => exact hid
      | some u => exact absurd rfl (hbeyond hid).1.theirs.2
    refine (hk.beside_of_resolveLocked
      (v := { v with thread := (v.thread.lock (.ofUnit goal.unit.id)).2 })
      (w := { v with thread := (t.lock (.ofUnit goal.unit.id)).2 }) hplain hhooks
      hcommon (fun _ => rfl) hharm.early rfl (.of_threads hv.registry (.refl _)
        (.refl _) (fun _ => htoken) fun id u hid => (hbeyond hid).2)
      (fun htypes id u e x hid hx => ?_) hfree hbusy).state hcommon d
    -- what is declared in a unit that the thread is cut off from
    obtain ⟨hcut, hreg⟩ := hbeyond hid
    obtain ⟨hreg, rfl⟩ := hv.registered hreg
    have hlevel := hharm.level htypes (u.symbol e) hcut
    have hdecl : ∀ z : World, z.Registered u →
        z.registry.declaration (u.symbol e) = .ok (u, x) := fun z hz =>
      Registry.declaration_eq_ok_iff.mpr ⟨hz, hx⟩
    rw [World.committedClasses, World.committedClasses, hdecl v hreg,
      hdecl v' (hlater u hreg)] at hlevel
    exact hlevel

/-- So do requests for a designation. -/
theorem World.Coherent.state_eq_of_resolveDesignation (hv : v.Coherent)
    (hhooks : ∀ h ∈ setup.hooks, h.Blind) (htoken : v.thread.token = t.token)
    (hfreer : v.thread.Freer t)
    (hheld : ∀ id, (t.mutex (.ofUnit id)).theirs = true →
      (v.registry.unit? id).isSome = true)
    (hlater : ∀ u, v.Registered u → v'.Registered u)
    (hfree : Action.resolveDesignation setup goal p cancellable v = (.ok (), v'))
    (hbusy : Action.resolveDesignation setup goal p cancellable
      { v with thread := t } = (.ok (), w'))
    (hharm : w'.counters.deferred = v.counters.deferred ∨
      t.Harmless goal.unit.id p v v') (d : DeclId) :
    v'.state goal.unit d = w'.state goal.unit d := by
  by_cases hle : p ≤ v.current goal
  · have hle' : p ≤ { v with thread := t }.current goal := hle
    cases (resolveDesignation_of_le_current hle).symm.trans hfree
    cases (resolveDesignation_of_le_current hle').symm.trans hbusy
    rfl
  have hbehind : ¬ p ≤ { v with thread := t }.current goal := hle
  obtain ⟨g, _, v'', hlock, hfree, rfl⟩ :=
    resolveUnderLock_eq_ok.mp ((resolveDesignation_eq_ok hle).mp hfree)
  obtain ⟨g', _, w'', hlock', hbusy, rfl⟩ :=
    resolveUnderLock_eq_ok.mp ((resolveDesignation_eq_ok hbehind).mp hbusy)
  obtain ⟨rfl, rfl, -⟩ := lockForRequest_eq_ok hlock
  obtain ⟨rfl, rfl, -⟩ := lockForRequest_eq_ok hlock'
  -- the guards are the same: the thread owns the same locks both times
  have hguard : (t.lock (.ofUnit goal.unit.id)).1 =
      (v.thread.lock (.ofUnit goal.unit.id)).1 := (hfreer.guard _).symm
  have hharm : w''.counters.deferred = v.counters.deferred ∨
      t.Harmless goal.unit.id p v v'' :=
    hharm.imp id fun h => ⟨h.early, h.place, h.level⟩
  have hlater : ∀ u, v.Registered u → v''.Registered u := hlater
  show v''.state goal.unit d = w''.state goal.unit d
  exact hv.state_eq_of_resolveLocked hhooks htoken hfreer hheld hlater hfree
    (hguard ▸ hbusy) hharm d

end requests

/-- A request that is made while others hold the locks of some units leaves the
same in its own unit as it does while they hold none of them, whenever both
succeed and nothing is put off, or what is put off does no harm: the same
slots, diagnostics included, and the same markers, of every declaration.
Hooks may write to the log and change the token. -/
theorem state_eq_of_othersTake {setup : Setup}
    (hhooks : ∀ h ∈ setup.hooks, h.Blind) {v v' w' : World}
    (hv : Reaches setup anyCall v) {ids : List UnitId}
    (hheld : ∀ id, ((v.thread.othersTake ids).mutex (.ofUnit id)).theirs = true →
      (v.registry.unit? id).isSome = true)
    {allowLocal cancellable : Bool} {s : Symbol} {p : Phase} {u : CompilationUnit}
    (hu : v.registry.unit? s.unit = some u)
    (hfree : Action.request setup allowLocal s p cancellable v = (.ok (), v'))
    (hbusy : Action.request setup allowLocal s p cancellable
      { v with thread := v.thread.othersTake ids } = (.ok (), w'))
    (hharm : w'.counters.deferred = v.counters.deferred ∨
      (v.thread.othersTake ids).Harmless s.unit p v v') (d : DeclId) :
    v'.state u d = w'.state u d := by
  have hquiet : setup.Quiet := fun h hh => (hhooks h hh).quiet
  have hcoherent := hv.coherent hquiet
  have hlater : ∀ z, v.Registered z → v'.Registered z := fun z hz =>
    ((((Steady.coherent_self .bodies).and_registered z).request hquiet).ok
      ⟨hcoherent, hz⟩ hfree).2
  rcases Action.request_cases setup allowLocal s p v.registry with
    ⟨r, hrun⟩ | ⟨z, x, goal, hs, hx, hgoal, hrun⟩
  · cases (hrun v cancellable rfl).symm.trans hfree
    cases (hrun { v with thread := v.thread.othersTake ids } cancellable
      rfl).symm.trans hbusy
    rfl
  have hbusy := (hrun { v with thread := v.thread.othersTake ids } cancellable
    rfl).symm.trans hbusy
  rw [hrun v cancellable rfl] at hfree
  obtain rfl := CompilationUnit.unit_of_designateWith hgoal
  obtain ⟨hunit, -⟩ := Registry.declaration_eq_ok_iff.mp hs
  obtain rfl := Option.some.inj (hunit.symm.trans hu)
  rw [← (hcoherent.registered hunit).2] at hharm
  have hcounted := (Steady.coherent_self .bodies).counters v
    v.counters.countRequest (Nat.le_refl _) hcoherent
  exact hcounted.state_eq_of_resolveDesignation hhooks
    (Thread.token_othersTake v.thread ids).symm (.othersTake v.thread ids) hheld
    hlater hfree hbusy (hharm.imp id fun h => ⟨h.early, h.place, h.level⟩) d

/-- The base class of a class, and where it is used. -/
def UnitSpec.derivedUser : UnitSpec :=
  .ofEntries "main.kt" [.member 0 (.classNamed "Derived" ["Base"]),
    .member 1 (.functionNamed "f" (some "Base"))]

/-- The base class is in a unit that another thread holds, and what the session
finds out about it is put off. -/
theorem state_eq_of_othersTake_derivedUser :
    let setup : Setup := { Setup.plain .default with hooks := [.recorder] }
    let v := World.after setup [.addUnit .base, .addUnit .derivedUser]
    let v' := (Action.request setup false ⟨⟨1⟩, ⟨2⟩⟩ .types false v).2
    let w' := (Action.request setup false ⟨⟨1⟩, ⟨2⟩⟩ .types false
      { v with thread := v.thread.othersTake [⟨0⟩] }).2
    w'.counters.deferred = 1 ∧ ∃ u, v.registry.unit? ⟨1⟩ = some u ∧
      (w'.slots u ⟨2⟩).returnType = .resolved (.classType ⟨⟨0⟩, ⟨1⟩⟩ [] false) ∧
      ∀ d, v'.state u d = w'.state u d := by
  intro setup v v' w'
  have hhooks : ∀ h ∈ setup.hooks, h.Blind := fun h hh =>
    List.mem_singleton.mp hh ▸ Hook.blind_recorder
  have hv : Reaches setup anyCall v := Reaches.after setup _
  have hfree : (Action.request setup false ⟨⟨1⟩, ⟨2⟩⟩ .types false v).1 = .ok () := by
    decide +kernel
  have hbusy : (Action.request setup false ⟨⟨1⟩, ⟨2⟩⟩ .types false
      { v with thread := v.thread.othersTake [⟨0⟩] }).1 = .ok () := by decide +kernel
  -- the lock of the first unit is the only one that others hold
  have hthread : v.thread = .start := by decide +kernel
  have htheirs : ∀ id, ((v.thread.othersTake [⟨0⟩]).mutex (.ofUnit id)).theirs = true →
      id = ⟨0⟩ := by
    intro id hid
    by_contra hne
    rw [hthread, Thread.mutex_insert .start (.ofUnit ⟨0⟩) (.ofUnit id) _ _ rfl,
      if_neg fun heq => hne (congrArg LockId.unit heq).symm] at hid
    cases hid
  have hunits : (v.registry.unit? ⟨0⟩).any (fun u => decide (∀ d ∈ u.declIds,
      v'.committedClasses ⟨⟨0⟩, d⟩ = v.committedClasses ⟨⟨0⟩, d⟩ ∧
        (u.isClassLike d = true → u.isEligible d = true → u.InClasses d))) = true := by
    decide +kernel
  obtain ⟨z, hz, hdecls⟩ := Option.any_eq_true _ _ |>.mp hunits
  have hdecls := of_decide_eq_true hdecls
  have hregistry : v'.registry = v.registry := by decide +kernel
  have hharm : (v.thread.othersTake [⟨0⟩]).Harmless ⟨1⟩ .types v v' := by
    refine ⟨by decide, fun id u d hcut hu hclass helig => ?_, fun _ c hcut => ?_⟩
    · obtain rfl := htheirs id hcut.theirs.1
      obtain rfl := Option.some.inj (hz.symm.trans hu)
      obtain ⟨x, hx, -⟩ := Option.any_eq_true _ _ |>.mp helig
      exact (hdecls d (CompilationUnit.mem_declIds hx)).2 hclass helig
    · obtain ⟨id, d⟩ := c
      obtain rfl := htheirs id hcut.theirs.1
      cases hx : z.decl? d with
      | some x => exact (hdecls d (CompilationUnit.mem_declIds hx)).1
      | none =>
          rw [World.committedClasses, World.committedClasses, hregistry,
            Registry.declaration, hz]
          dsimp only
          rw [hx]
  have hdeferred : w'.counters.deferred = 1 := by decide +kernel
  have htype : (v.registry.unit? ⟨1⟩).any (fun u => decide ((w'.slots u ⟨2⟩).returnType =
      .resolved (.classType ⟨⟨0⟩, ⟨1⟩⟩ [] false))) = true := by decide +kernel
  obtain ⟨u, hu, htype⟩ := Option.any_eq_true _ _ |>.mp htype
  refine ⟨hdeferred, u, hu, of_decide_eq_true htype, ?_⟩
  refine state_eq_of_othersTake hhooks hv (fun id hid => ?_) hu (run_of_fst hfree)
    (run_of_fst hbusy) (Or.inr hharm)
  rw [htheirs id hid, hz]
  rfl

/-- A class with a nested one, and a class that extends it. -/
def UnitSpec.layeredBase : UnitSpec :=
  .ofEntries "lib.kt" [.member 0 (.classNamed "Top" []),
    .member 1 (.classNamed "N" []), .member 0 (.classNamed "Base" ["Top"])]

/-- A class that inherits the nested one, and a function that names it. -/
def UnitSpec.derivedNaming : UnitSpec :=
  .ofEntries "main.kt" [.member 0 (.classNamed "Derived" ["Base"]),
    .member 1 (.functionNamed "f" (some "N"))]

/-- In general putting results off does harm: the types of a function are
resolved with what its class inherits through a class whose clause was put off,
and there is nothing to be found. -/
theorem not_state_eq_of_othersTake :
    let setup := Setup.plain .default
    let v := World.after setup [.addUnit .layeredBase, .addUnit .derivedNaming]
    ∃ v' w' u, Reaches setup anyCall v ∧ v.registry.unit? ⟨1⟩ = some u ∧
      Action.request setup false ⟨⟨1⟩, ⟨2⟩⟩ .types false v = (.ok (), v') ∧
      Action.request setup false ⟨⟨1⟩, ⟨2⟩⟩ .types false
        { v with thread := v.thread.othersTake [⟨0⟩] } = (.ok (), w') ∧
      (v'.slots u ⟨2⟩).returnType = .resolved (.classType ⟨⟨0⟩, ⟨2⟩⟩ [] false) ∧
      (w'.slots u ⟨2⟩).returnType = .resolved (.error "N") ∧
      (v'.slots u ⟨2⟩).diagnostics = [] ∧ (w'.slots u ⟨2⟩).diagnostics.length = 1 := by
  intro setup v
  have hfree : (Action.request setup false ⟨⟨1⟩, ⟨2⟩⟩ .types false v).1 = .ok () := by
    decide +kernel
  have hbusy : (Action.request setup false ⟨⟨1⟩, ⟨2⟩⟩ .types false
      { v with thread := v.thread.othersTake [⟨0⟩] }).1 = .ok () := by decide +kernel
  have hslots : (v.registry.unit? ⟨1⟩).any (fun u => decide (
      ((Action.request setup false ⟨⟨1⟩, ⟨2⟩⟩ .types false v).2.slots u ⟨2⟩).returnType =
        .resolved (.classType ⟨⟨0⟩, ⟨2⟩⟩ [] false) ∧
      ((Action.request setup false ⟨⟨1⟩, ⟨2⟩⟩ .types false { v with
        thread := v.thread.othersTake [⟨0⟩] }).2.slots u ⟨2⟩).returnType =
          .resolved (.error "N") ∧
      ((Action.request setup false ⟨⟨1⟩, ⟨2⟩⟩ .types false v).2.slots u
        ⟨2⟩).diagnostics = [] ∧
      ((Action.request setup false ⟨⟨1⟩, ⟨2⟩⟩ .types false { v with
        thread := v.thread.othersTake [⟨0⟩] }).2.slots u ⟨2⟩).diagnostics.length =
          1)) = true := by decide +kernel
  obtain ⟨u, hu, hslots⟩ := Option.any_eq_true _ _ |>.mp hslots
  exact ⟨_, _, u, Reaches.after setup _, hu, run_of_fst hfree, run_of_fst hbusy,
    of_decide_eq_true hslots⟩

end StagedResolve
