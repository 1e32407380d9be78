/-
Staging: a request in two stages does the work of a single one.

# What is read back

Between two requests nothing is carried over but markers: the second one
reads off them what the first one has done, takes the lock of the unit
again, and goes on with the phases that are left. So it has to begin
exactly where a single request would have been at that point. It does so
because a request that succeeds leaves its target at exactly the phase
that was asked for (`Within.reached_eq`), and because the steps to a phase
may be taken in two stages (`Phase.stepsTo_append`). Where extension
phases are skipped both stages skip the same ones.

# What is not noticed

The two stages count one more request, and perhaps one more that the
markers answered; they take the lock twice, and it is free the second
time because it was held until then. No phase can tell
(`World.SameWork`).
-/
import StagedResolve.Proofs.Answers
import StagedResolve.Proofs.Threads

namespace StagedResolve

open StagedResolve.Action World

-- ====================================================== the thread in between

/-- The thread holds what it held. Failures may leave anything. -/
def SideBySide.keepsThread (t : Thread) : SideBySide :=
  .solo (fun w => t.Alike w.thread ∧ w.registry.Coherent) fun _ => True

namespace KeepsThread

variable {setup : Setup} {cancellable : Bool} {t : Thread}

/-- What leaves the thread alone and the registry coherent. -/
theorem keeps_of_world {α : Type} {x : Action α}
    (h : ∀ w, t.Alike w.thread → w.registry.Coherent →
      t.Alike (x w).2.thread ∧ (x w).2.registry.Coherent) :
    Keeps (.keepsThread t) x := by
  refine .of_triple (.of_runs (fun w a w' hw hx => ?_) fun _ _ _ _ _ => trivial)
  have := h w hw.1 hw.2
  rwa [hx] at this

/-- Everything but taking and dropping locks leaves the thread alone. -/
theorem agrees (hhooks : ∀ h ∈ setup.hooks, h.Oblivious) (t : Thread) :
    (SideBySide.keepsThread t).Agrees setup cancellable where
  registry := fun v w h => by rw [h.1]
  classifier := fun k => keeps_of_world fun w ht hw => ⟨ht, (hw.classifier k).1⟩
  stop := fun _ _ h => ⟨h.1, trivial⟩
  named := fun v w id u h hu => (h.1 ▸ h.2.2 : w.registry.Coherent).named id u hu
  state := fun v w u d h _ => by rw [h.1]
  session := fun v w h => by rw [h.1]
  update := fun f => keeps_of_world fun _ ht hw => ⟨ht, hw⟩
  write := fun g u d f _ => by
    refine keeps_of_world fun w ht hw => ?_
    unfold Action.writeState
    split
    · exact ⟨ht, hw⟩
    · split
      · exact ⟨ht, hw⟩
      · exact ⟨ht, hw⟩
  count := fun f _ _ => keeps_of_world fun _ ht hw => ⟨ht, hw⟩
  check := fun _ => .of_triple (.checkCancelled fun _ _ => trivial)
  hooks := fun h hh g phase u x => by
    refine keeps_of_world fun w ht hw => ?_
    obtain ⟨hr, f, hf⟩ := hhooks h hh g phase u x w
    have hself : (h g phase u x w).2.thread =
        { w.thread with token := f w.thread.token } :=
      congrArg (fun r => r.2.thread) (hf w.thread w.counters)
    rw [hself, hr]
    exact ⟨ht.trans (.of_eq rfl rfl), hw⟩

/-- What is done under the lock of another unit ends with the lock being
dropped. -/
theorem phases (hhooks : ∀ h ∈ setup.hooks, h.Oblivious) (t : Thread) :
    (SideBySide.keepsThread t).Phases setup cancellable where
  toAgrees := agrees hhooks t
  elsewhere := fun id u classes => by
    refine .of_triple (.of_runs (fun w a w' hw hrun => ?_)
      fun _ _ _ _ _ => trivial)
    obtain ⟨ht, hw⟩ := hw
    rw [bind_run_ok (lockUnitOrdered_run id w)] at hrun
    cases hg : (w.thread.lockOrdered (.ofUnit id)).1 with
    | none =>
        rw [hg] at hrun
        cases hrun
        rw [(Thread.blocked_of_lockOrdered hg).2]
        exact ⟨ht, hw⟩
    | some g =>
        rw [hg] at hrun
        have hbody : Keeps
            (.keepsThread (w.thread.lockOrdered (.ofUnit id)).2)
            (Action.each (Action.applyTo g u) classes) :=
          .each fun c _ => (agrees hhooks _ : SideBySide.Agrees _ setup
            cancellable).applyTo g u c
        dsimp only at hrun
        unfold Action.holding at hrun
        rcases hx : Action.each (Action.applyTo g u) classes
          { w with thread := (w.thread.lockOrdered (.ofUnit id)).2 }
          with ⟨e | b, v⟩
        · rw [hx] at hrun
          cases hrun
        · rw [hx] at hrun
          cases hrun
          obtain ⟨ht', hv⟩ := hbody.triple.ok (w := { w with
            thread := (w.thread.lockOrdered (.ofUnit id)).2 })
            ⟨.refl _, hw⟩ hx
          exact ⟨ht.trans (ht'.release hg), hv⟩

end KeepsThread

namespace Action

variable {setup : Setup} {goal : Designation} {p q : Phase}
  {cancellable : Bool} {w w' : World} {g : Guard}

-- ============================================================ taking the lock

/-- The lock for a request is taken from the thread as it is, whichever
phase is asked for. -/
theorem lockForRequest_eq_ok {id : UnitId}
    (h : lockForRequest id p cancellable w = (.ok g, w')) :
    g = (w.thread.lock (.ofUnit id)).1 ∧
      w' = { w with thread := (w.thread.lock (.ofUnit id)).2 } ∧
      ∀ q, lockForRequest id q cancellable w = (.ok g, w') := by
  suffices hall : ∀ q, lockForRequest id q cancellable w =
      (.ok (w.thread.lock (.ofUnit id)).1,
        { w with thread := (w.thread.lock (.ofUnit id)).2 }) by
    rw [hall p] at h
    cases h
    exact ⟨rfl, rfl, hall⟩
  intro q
  have hwait : read (fun w => w.thread.owns (.ofUnit id) ||
      w.thread.mayWaitFor id) w =
        (.ok (w.thread.owns (.ofUnit id) || w.thread.mayWaitFor id), w) := rfl
  unfold lockForRequest at h ⊢
  rw [bind_run_ok hwait] at h ⊢
  split at h
  · next hmay =>
    rw [if_pos hmay]
    cases cancellable with
    | false => rfl
    | true =>
        simp only [if_true] at h ⊢
        unfold lockUnitCancellable at h ⊢
        rcases hr : w.thread.lockCancellable (.ofUnit id) p with ⟨e | g', t⟩
        · rw [hr] at h
          cases h
        · rw [Thread.lockCancellable_eq_ok (by rw [hr]) q]
  · next hmay =>
    rw [if_neg hmay]
    have hheld : read (fun w => w.thread.highest?.getD id) w =
        (.ok (w.thread.highest?.getD id), w) := rfl
    rw [bind_run_ok hheld,
      bind_run_ok (lockUnitOrdered_run id w)] at h ⊢
    cases hr : (w.thread.lockOrdered (.ofUnit id)).1 with
    | none =>
        rw [hr] at h
        cases h
    | some g' =>
        have heq := Thread.lockOrdered_eq_some hr
        rw [heq] at hr ⊢
        cases hr
        rfl

/-- A request that counts no cancellation is the action itself. -/
theorem countingCancellation_eq_ok {x : Action Unit} :
    countingCancellation x w = (.ok (), w') ↔ x w = (.ok (), w') := by
  have hattempt : attempt x w = (.ok (x w).1, (x w).2) := rfl
  unfold countingCancellation
  rw [bind_run_ok hattempt]
  rcases hx : x w with ⟨e | ⟨⟩, v⟩
  · refine iff_of_false (fun h => ?_) fun h => by cases h
    dsimp only at h
    split at h <;> cases h
  · exact Iff.rfl

-- ============================================================== the two stages

/-- Once the imports are resolved, what is done under the lock for something
in a file is a matter of markers. -/
theorem resolveLocked_run (hfile : goal.isFile = false) {b : Bool} {v : World}
    (himports : resolveImports g goal.unit w = (.ok b, v)) :
    resolveLocked setup goal p cancellable g w =
      if p ≤ v.current goal then (.ok (), { v with
        counters := v.counters.countAlreadyResolved })
      else runPhases setup goal g cancellable
        ((max (v.current goal) .lastFileWide).stepsTo p) v := by
  unfold resolveLocked
  rw [bind_run_ok himports, hfile]
  show (if p ≤ v.current goal then count Counters.countAlreadyResolved
    else _) v = _
  split
  · rfl
  · rfl

/-- Phases may be run in two stages. -/
theorem runPhases_append {before rest : List Phase} {v : World}
    (h : runPhases setup goal g cancellable before w = (.ok (), v)) :
    runPhases setup goal g cancellable (before ++ rest) w =
      runPhases setup goal g cancellable rest v := by
  induction before generalizing w with
  | nil =>
      cases h
      rfl
  | cons a before ih =>
      rcases ha : (do
          checkCancelled cancellable a
          runPhase setup goal g cancellable a) w with ⟨e | ⟨⟩, u⟩
      · have := (bind_run_error ha _).symm.trans h
        cases this
      · exact (bind_run_ok ha _).trans (ih ((bind_run_ok ha _).symm.trans h))

/-- What a request leaves under the lock that succeeds in `w`: the imports
are resolved in `v`, and the phases that are left have led to `u`. -/
structure Stage (setup : Setup) (goal : Designation) (g : Guard) (p : Phase)
    (cancellable : Bool) (w v u : World) : Prop where
  imports : ∃ b, resolveImports g goal.unit w = (.ok b, v)
  phases : runPhases setup goal g cancellable
    ((max (v.current goal) .lastFileWide).stepsTo p) v = (.ok (), u)
  coherent : u.registry.Coherent
  marked : .imports ≤ u.own goal.unit .root
  current : u.current goal = (max (v.current goal) p).satisfied
  thread : w.thread.Alike u.thread

/-- A request that succeeds is a stage. -/
theorem Stage.of_resolveLocked (hquiet : setup.Quiet)
    (hhooks : ∀ h ∈ setup.hooks, h.Oblivious) (hfile : goal.isFile = false)
    (hg : g.lock = .ofUnit goal.unit.id) (hw : w.Coherent)
    (hu : w.Registered goal.unit)
    (hrun : resolveLocked setup goal p cancellable g w = (.ok (), w')) :
    ∃ v u, Stage setup goal g p cancellable w v u ∧ w'.SameWork u := by
  have hreaches := (resolveLocked_reaches hquiet hg).ok ⟨hw, hu⟩ hrun
  have hI := (Steady.coherent_self .bodies).and_registered goal.unit
  have hthread : (SideBySide.keepsThread w.thread).Phases setup cancellable :=
    KeepsThread.phases hhooks w.thread
  rcases himports : resolveImports g goal.unit w with ⟨e | b, v⟩
  · have := (bind_run_error himports _).symm.trans hrun
    cases this
  obtain ⟨⟨hv, huv⟩, hmarked⟩ := (hI.idle.resolveImports (g := g)
    (.of_raised fun w s hw hd hs _ =>
      hI.write w goal.unit .root s hw hw.2 hd hs)).ok ⟨hw, hu⟩ himports
  have htv := (hthread.resolveImports trivial g).triple.ok
    ⟨.refl _, hw.registry⟩ himports
  rw [resolveLocked_run hfile himports] at hrun
  split at hrun
  · -- the markers answer once the imports are resolved
    next hle =>
    cases hrun
    obtain ⟨x, hx⟩ := exists_reached_eq v goal.unit goal.target
    have hx : v.current goal = x.satisfied := hx
    refine ⟨v, v, ⟨⟨b, himports⟩, ?_, hv.registry, hmarked, ?_, htv.1⟩, ?_⟩
    · rw [Phase.stepsTo_eq_nil hle]
      rfl
    · rw [hx] at hle ⊢
      exact (Phase.satisfied_max_of_le hle).symm
    · exact .of_with (.refl _) rfl
  · next hlt =>
    have hp : .imports ≤ p := by
      cases p <;> first | exact absurd (Phase.raw_le _) hlt | decide
    have hwithin := (hv.steady_within p).and_registered goal.unit
    obtain ⟨⟨hu', hwithin⟩, hureg⟩ := (hwithin.runPhases
      (fun q hq => Phase.le_of_mem_stepsTo hq) hquiet fun _ h => h.2).ok
      ⟨⟨hv, .refl p v⟩, huv⟩ hrun
    refine ⟨v, w', ⟨⟨b, himports⟩, hrun, hu'.registry, ?_, ?_, ?_⟩, .refl w'⟩
    · exact Phase.le_trans hmarked (hwithin.later.own _ _ huv)
    · exact hwithin.reached_eq huv hp hreaches
    · exact ((hthread.runPhases goal g _).triple.ok htv hrun).1

/-- The phases that are left after one stage complete a request that has
further to go. -/
theorem Stage.complete {v u u' : World} (hfile : goal.isFile = false)
    (h : Stage setup goal g p cancellable w v u) (hpq : p ≤ q)
    (hrest : runPhases setup goal g cancellable
      ((max (u.current goal) .lastFileWide).stepsTo q) u = (.ok (), u')) :
    ∃ w', resolveLocked setup goal q cancellable g w = (.ok (), w') ∧
      w'.SameWork u' := by
  obtain ⟨b, himports⟩ := h.imports
  obtain ⟨x, hx⟩ := exists_reached_eq v goal.unit goal.target
  have hx : v.current goal = x.satisfied := hx
  rw [resolveLocked_run hfile himports]
  split
  · -- then there was nothing to do in the first stage either
    next hle =>
    have hphases := h.phases
    rw [Phase.stepsTo_eq_nil (Phase.le_trans hpq hle)] at hphases
    cases hphases
    rw [Phase.stepsTo_eq_nil hle] at hrest
    cases hrest
    exact ⟨_, rfl, .of_with (.refl _) rfl⟩
  · have hphases := h.phases
    rw [h.current] at hrest
    rw [hx] at hphases hrest ⊢
    rw [Phase.stepsTo_append x hpq, runPhases_append hphases]
    exact ⟨u', hrest, .refl u'⟩

-- ========================================================== the lock in between

/-- A request under the lock that succeeds. -/
theorem resolveUnderLock_eq_ok :
    resolveUnderLock setup goal p cancellable w = (.ok (), w') ↔
      ∃ g v u, lockForRequest goal.unit.id p cancellable w = (.ok g, v) ∧
        resolveLocked setup goal p cancellable g v = (.ok (), u) ∧
        w' = { u with thread := u.thread.release g } := by
  unfold resolveUnderLock
  constructor
  · intro h
    rcases hlock : lockForRequest goal.unit.id p cancellable w with ⟨e | g, v⟩
    · have := (bind_run_error hlock _).symm.trans h
      cases this
    · rw [bind_run_ok hlock] at h
      unfold holding at h
      rcases hx : resolveLocked setup goal p cancellable g v with ⟨e | ⟨⟩, u⟩
      · rw [hx] at h
        cases h
      · rw [hx] at h
        cases h
        exact ⟨g, v, u, rfl, hx, rfl⟩
  · rintro ⟨g, v, u, hlock, hx, rfl⟩
    rw [bind_run_ok hlock]
    unfold holding
    rw [hx]

/-- A request for a designation that the markers do not answer. -/
theorem resolveDesignation_eq_ok (hbehind : ¬ p ≤ w.current goal) :
    resolveDesignation setup goal p cancellable w = (.ok (), w') ↔
      resolveUnderLock setup goal p cancellable w = (.ok (), w') := by
  have hrun : resolveDesignation setup goal p cancellable w =
      countingCancellation (resolveUnderLock setup goal p cancellable) w := by
    show (if p ≤ w.current goal then count Counters.countAlreadyResolved
      else _) w = _
    rw [if_neg hbehind]
  rw [hrun, countingCancellation_eq_ok]

/-- Imports that are resolved are left alone. -/
theorem resolveImports_of_marked {u : CompilationUnit}
    (h : .imports ≤ w.own u .root) : resolveImports g u w = (.ok false, w) := by
  show (if .imports ≤ w.own u .root then return false else _ : Action Bool) w = _
  rw [if_pos h]
  rfl

end Action

/-- What succeeds in one of two worlds that differ in nothing that matters
succeeds in the other. -/
theorem World.SameWork.run {α : Type} {x : Action α} {v w v' : World} {a : α}
    (h : v.SameWork w) (hx : Keeps .sameWork x) (hw : w.registry.Coherent)
    (hrun : x v = (.ok a, v')) :
    ∃ w', x w = (.ok a, w') ∧ v'.SameWork w' := by
  have hm := (hx.run v w ⟨h, hw⟩).resolve_left id
  rw [hrun] at hm
  rcases hxw : x w with ⟨e | b, w'⟩
  · rw [hxw] at hm
    exact hm.elim
  · rw [hxw] at hm
    obtain ⟨rfl, hm, -⟩ := hm
    exact ⟨w', rfl, hm⟩

-- ============================================================== designations

section Designations

variable {setup : Setup} {goal : Designation} {p q : Phase}
  {cancellable : Bool} {w w₁ w₂ : World}

/-- Where the markers do not answer the first stage, the second one goes on
where the first one has stopped. -/
theorem World.Coherent.staged_of_behind (hw : w.Coherent)
    (hquiet : setup.Quiet) (hhooks : ∀ h ∈ setup.hooks, h.Oblivious)
    (hfile : goal.isFile = false) (hu : w.Registered goal.unit) (hpq : p ≤ q)
    (hbehind : ¬ p ≤ w.current goal)
    (h₁ : Action.resolveDesignation setup goal p cancellable w = (.ok (), w₁))
    (h₂ : Action.resolveDesignation setup goal q cancellable w₁ =
      (.ok (), w₂)) :
    ∃ w₃, Action.resolveDesignation setup goal q cancellable w = (.ok (), w₃) ∧
      w₃.SameWork w₂ := by
  have hsame : SideBySide.sameWork.Requests setup cancellable :=
    SameWork.requests hhooks
  have hbehind' : ¬ q ≤ w.current goal := fun hle =>
    hbehind (Phase.le_trans hpq hle)
  obtain ⟨g, v₀, u₀, hlock, hrun, rfl⟩ :=
    resolveUnderLock_eq_ok.mp ((resolveDesignation_eq_ok hbehind).mp h₁)
  -- the first stage, under a lock that was free or has become so
  obtain ⟨hg, hv₀, hlocks⟩ := lockForRequest_eq_ok hlock
  obtain ⟨r, hr, hfree⟩ := w.thread.lock_eq_acquire (.ofUnit goal.unit.id)
  rw [hr] at hg hv₀
  have hglock : g.lock = .ofUnit goal.unit.id := by rw [hg]; rfl
  have hkept : (r.acquire (.ofUnit goal.unit.id)).2.Alike v₀.thread := by
    rw [hv₀]
    exact .refl _
  have hcoherent : v₀.Coherent := by
    rw [hv₀]
    exact (Steady.coherent_self .bodies).thread w _ hw
  have hu₀ : v₀.Registered goal.unit := by
    rw [hv₀]
    exact hu
  obtain ⟨v, u, hstage, hu₀u⟩ :=
    Stage.of_resolveLocked hquiet hhooks hfile hglock hcoherent hu₀ hrun
  -- what is left for the second stage to do is the same in `u`
  have hagain : ∃ u', runPhases setup goal g cancellable
      ((max (u.current goal) .lastFileWide).stepsTo q) u = (.ok (), u') ∧
      w₂.SameWork { u' with thread := u'.thread.release g } := by
    obtain ⟨w₂', h₂, hw₂⟩ := (hu₀u.release g).run
      (hsame.resolveDesignation goal q) hstage.coherent h₂
    have hcurrent : ({ u with thread := u.thread.release g } : World).current
        goal = u.current goal := rfl
    by_cases hle : q ≤ u.current goal
    · obtain rfl : ({ u with
          thread := u.thread.release g
          counters := u.counters.countAlreadyResolved } : World) = w₂' := by
        exact congrArg Prod.snd
          ((resolveDesignation_of_le_current (hcurrent ▸ hle)).symm.trans h₂)
      refine ⟨u, ?_, hw₂.trans (.of_with (w := { u with
        thread := u.thread.release g }) (.refl _) rfl)⟩
      rw [Phase.stepsTo_eq_nil hle]
      rfl
    · obtain ⟨g', v', u', hlock', hrun', rfl⟩ := resolveUnderLock_eq_ok.mp
        ((resolveDesignation_eq_ok (hcurrent ▸ hle)).mp h₂)
      obtain ⟨hg', hv', -⟩ := lockForRequest_eq_ok hlock'
      obtain ⟨hguard, hsamethread⟩ := Thread.relock hfree
        (hkept.trans hstage.thread)
      rw [← hg] at hguard hsamethread
      obtain rfl : g' = g := hg'.trans hguard
      have hv'u : v'.SameWork u := by
        rw [hv']
        exact .of_with (w := u) hsamethread.symm rfl
      obtain ⟨u'', hrun'', hu''⟩ := hv'u.run (hsame.resolveLocked goal q g')
        hstage.coherent hrun'
      rw [resolveLocked_run hfile (resolveImports_of_marked hstage.marked),
        if_neg hle] at hrun''
      exact ⟨u'', hrun'', hw₂.trans (hu''.release g')⟩
  obtain ⟨u', hphases, hw₂⟩ := hagain
  obtain ⟨w₃, hrun₃, hw₃⟩ := hstage.complete hfile hpq hphases
  refine ⟨_, (resolveDesignation_eq_ok hbehind').mpr (resolveUnderLock_eq_ok.mpr
    ⟨g, v₀, w₃, hlocks q, hrun₃, rfl⟩), ?_⟩
  exact (hw₃.release g).trans hw₂.symm

/-- A designation that is brought to a phase in two stages is brought there
by a single request, with the same effects. -/
theorem World.Coherent.staged (hw : w.Coherent)
    (hquiet : setup.Quiet) (hhooks : ∀ h ∈ setup.hooks, h.Oblivious)
    (hfile : goal.isFile = false) (hu : w.Registered goal.unit) (hpq : p ≤ q)
    (h₁ : Action.resolveDesignation setup goal p cancellable w = (.ok (), w₁))
    (h₂ : Action.resolveDesignation setup goal q cancellable w₁ =
      (.ok (), w₂)) :
    ∃ w₃, Action.resolveDesignation setup goal q cancellable w = (.ok (), w₃) ∧
      w₃.SameWork w₂ := by
  by_cases hle : p ≤ w.current goal
  · -- the first stage is one more request that the markers answered
    obtain rfl : { w with counters := w.counters.countAlreadyResolved } = w₁ :=
      congrArg Prod.snd ((resolveDesignation_of_le_current hle).symm.trans h₁)
    have hsame : { w with
        counters := w.counters.countAlreadyResolved }.SameWork w :=
      .of_with (.refl _) rfl
    obtain ⟨w₃, h₃, hsame⟩ := hsame.run
      ((SameWork.requests hhooks).resolveDesignation goal q) hw.registry h₂
    exact ⟨w₃, h₃, hsame.symm⟩
  · exact hw.staged_of_behind hquiet hhooks hfile hu hpq hle h₁ h₂

end Designations

-- ==================================================================== requests

/-- If a declaration outside of its file is brought to one phase and then to
another that is not before it, and both requests succeed, then a single
request for the second phase succeeds as well and does the same: units, slots,
markers and import tables are the same afterwards, phases were committed as
often, hooks have left the same in the log, and the thread holds what it held.
Only the requests themselves are counted differently. Hooks may be anything
that leaves markers and the hierarchy alone and looks neither at the thread
nor at the counters. -/
theorem staged_eq_direct {setup : Setup} (hquiet : setup.Quiet)
    (hhooks : ∀ h ∈ setup.hooks, h.Oblivious) {w w₁ w₂ : World}
    (hw : Reaches setup anyCall w) {allowLocal cancellable : Bool}
    {s : Symbol} {p q : Phase} {u : CompilationUnit} {x : Declaration}
    {goal : Designation} (hs : w.registry.declaration s = .ok (u, x))
    (hx : x.isEligible = true)
    (hgoal : u.designateWith allowLocal s.decl = .ok goal)
    (hfile : goal.isFile = false) (hpq : p ≤ q)
    (h₁ : Action.request setup allowLocal s p cancellable w = (.ok (), w₁))
    (h₂ : Action.request setup allowLocal s q cancellable w₁ = (.ok (), w₂)) :
    ∃ w₃, Action.request setup allowLocal s q cancellable w = (.ok (), w₃) ∧
      w₃.SameWork w₂ := by
  have hsame : SideBySide.sameWork.Requests setup cancellable :=
    SameWork.requests hhooks
  have hcoherent := hw.coherent hquiet
  have hcounted : { w with counters := w.counters.countRequest }.SameWork w :=
    .of_with (.refl _) rfl
  by_cases hp : p = .raw
  · -- nothing is done in the first stage
    subst hp
    obtain rfl : { w with counters := w.counters.countRequest } = w₁ :=
      congrArg Prod.snd h₁
    obtain ⟨w₃, h₃, hw₃⟩ := hcounted.run (hsame.request allowLocal s q)
      hcoherent.registry h₂
    exact ⟨w₃, h₃, hw₃.symm⟩
  have hq : q ≠ .raw := by
    rintro rfl
    revert hp hpq
    cases p <;> decide
  obtain rfl := CompilationUnit.unit_of_designateWith hgoal
  obtain ⟨hunit, hdecl⟩ := Registry.declaration_eq_ok_iff.mp hs
  obtain ⟨hu, hid⟩ := hcoherent.registered hunit
  -- both requests are for the same designation
  rw [request_eq_resolveDesignation hp hs hx hgoal] at h₁
  have hstart := (Steady.coherent_self .bodies).counters w
    w.counters.countRequest (Nat.le_refl _) hcoherent
  have hkept := (((Steady.coherent_self .bodies).and_registered
    goal.unit).resolveDesignation hquiet (by decide) (Phase.le_bodies p)
    fun _ h => h.2).ok ⟨hstart, hu⟩ h₁
  have hs₁ : w₁.registry.declaration s = .ok (goal.unit, x) := by
    refine Registry.declaration_eq_ok_iff.mpr ⟨?_, hdecl⟩
    rw [← hid]
    exact hkept.2
  rw [request_eq_resolveDesignation hq hs₁ hx hgoal] at h₂
  have hcounted₁ :
      { w₁ with counters := w₁.counters.countRequest }.SameWork w₁ :=
    .of_with (.refl _) rfl
  obtain ⟨w₂', h₂', hw₂⟩ := hcounted₁.run (hsame.resolveDesignation goal q)
    hkept.1.registry h₂
  obtain ⟨w₃, h₃, hw₃⟩ := hstart.staged hquiet hhooks hfile hu hpq h₁ h₂'
  exact ⟨w₃, (request_eq_resolveDesignation hq hs hx hgoal).trans h₃,
    hw₃.trans hw₂.symm⟩

/-- A function in a class, in two stages and at once, with a hook that writes
down what it sees: eight entries either way. -/
theorem staged_eq_direct_recorded :
    let setup : Setup := { Setup.plain .default with hooks := [.recorder] }
    let w := World.after setup [.addUnit .plainClass]
    let w₁ := (Action.request setup false ⟨⟨0⟩, ⟨2⟩⟩ .types false w).2
    let w₂ := (Action.request setup false ⟨⟨0⟩, ⟨2⟩⟩ .status false w₁).2
    ∃ w₃, Action.request setup false ⟨⟨0⟩, ⟨2⟩⟩ .status false w =
        (.ok (), w₃) ∧ w₃.SameWork w₂ ∧ w₃.log.length = 8 := by
  intro setup w w₁ w₂
  have hw : Reaches setup anyCall w := Reaches.after setup _
  have hquiet : setup.Quiet := by
    rintro h hh
    obtain rfl := List.mem_singleton.mp hh
    exact Hook.quiet_recorder
  have hhooks : ∀ h ∈ setup.hooks, h.Oblivious := by
    rintro h hh
    obtain rfl := List.mem_singleton.mp hh
    exact Hook.oblivious_recorder
  have h₁ : (Action.request setup false ⟨⟨0⟩, ⟨2⟩⟩ .types false w).1 =
      .ok () := by decide +kernel
  have h₂ : (Action.request setup false ⟨⟨0⟩, ⟨2⟩⟩ .status false w₁).1 =
      .ok () := by decide +kernel
  have hlog : w₂.log.length = 8 := by decide +kernel
  obtain ⟨u, x, goal, hs, hx, hgoal, hfile⟩ : ∃ u x goal,
      w.registry.declaration ⟨⟨0⟩, ⟨2⟩⟩ = .ok (u, x) ∧
      x.isEligible = true ∧ u.designateWith false ⟨2⟩ = .ok goal ∧
      goal.isFile = false :=
    ⟨_, _, _, rfl, rfl, rfl, rfl⟩
  clear_value w
  obtain ⟨w₃, h₃, hsame⟩ := staged_eq_direct hquiet hhooks hw hs hx hgoal hfile
    (by decide) (run_of_fst h₁) (run_of_fst h₂)
  exact ⟨w₃, h₃, hsame, hsame.log ▸ hlog⟩

end StagedResolve
