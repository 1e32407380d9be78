/-
Answers: where a request that succeeds leaves its target, exactly.

# What vouches for a declaration

How far a declaration is known to be resolved is read off several
markers, and each of them may have risen for a reason of its own: its own
marker where nothing is to be resolved below it, those of all wholes
around it, and that of the file for the imports (`World.Vouches`). Phases
that are reserved for extensions come on top, so all comparisons are with
the core of a phase.

# No further and no less

A request for a phase raises no marker beyond it: the walks that it runs
are committed for phases on the way, the file is marked for its imports
or for the phase itself, and sessions mark the supertype phase, which is
on the way wherever they run (`World.Within`). And a request that
succeeds has either found the markers where they should be or has
committed the core of the phase for the target as a whole. Together this
tells what the target is known to satisfy afterwards to the phase
(`reached_of_request`).

From then on the markers answer by themselves. A further request is one
more entry in the statistics; it takes no lock, so it does not matter who
holds which, and does not look at the token.
-/
import StagedResolve.Proofs.Failures
import StagedResolve.Proofs.Guarantee

namespace StagedResolve

open StagedResolve.Action World

namespace World

variable {v w : World} {u : CompilationUnit} {d : DeclId} {p q : Phase}

-- =========================================================== the markers

/-- Some marker that counts for a declaration has reached a phase. -/
def Vouches (w : World) (u : CompilationUnit) (d : DeclId) (q : Phase) :
    Prop :=
  (d.isRoot = true ∧ (q ≤ w.own u .root ∨ q ≤ w.below u .root)) ∨
  (d.isRoot = false ∧ ((∃ a ∈ d :: u.ancestors d, q ≤ w.below u a) ∨
    (u.hasMembers d = false ∧ q ≤ w.own u d) ∨
    (q ≤ .imports ∧ q ≤ w.own u .root)))

/-- What a declaration is known to satisfy is what some marker has reached
the core of. -/
theorem le_reached_iff_vouches (hp : .raw < p) :
    p ≤ w.reached u d ↔ w.Vouches u d p.core := by
  have hraw : .raw < p.core := by
    revert hp
    cases p <;> decide
  unfold reached Vouches
  cases hd : d.isRoot with
  | true => simp [Phase.le_satisfied_iff, Phase.le_max_iff]
  | false =>
      have hleaf : p.core ≤ (if u.hasMembers d then .raw else w.own u d) ↔
          u.hasMembers d = false ∧ p.core ≤ w.own u d := by
        cases u.hasMembers d with
        | true => simpa using Phase.not_le_of_lt hraw
        | false => simp
      have hfile : p.core ≤ min (w.own u .root) .lastFileWide ↔
          p.core ≤ .imports ∧ p.core ≤ w.own u .root := by
        cases p <;> cases w.own u .root <;> decide
      have hwhole : (∃ r ∈ (d :: u.ancestors d).map (w.below u), p.core ≤ r) ↔
          ∃ a ∈ d :: u.ancestors d, p.core ≤ w.below u a := by
        simp
      simp only [Bool.false_eq_true, if_false, false_and, false_or, true_and,
        Phase.le_satisfied_iff, Phase.le_max_iff, Phase.le_highest_iff hraw,
        hleaf, hfile, hwhole, or_assoc]

/-- Markers are part of the states. -/
theorem reached_of_states (h : v.states = w.states) :
    v.reached u d = w.reached u d := by
  cases v
  cases w
  cases h
  rfl

/-- What vouches for a declaration goes on to do so. -/
theorem Vouches.later (h : v.Vouches u d q) (hu : v.Registered u)
    (hlater : v.Later w) : w.Vouches u d q := by
  have hown : ∀ e, q ≤ v.own u e → q ≤ w.own u e := fun e he =>
    Phase.le_trans he (hlater.own u e hu)
  have hbelow : ∀ e, q ≤ v.below u e → q ≤ w.below u e := fun e he =>
    Phase.le_trans he (hlater.below u e hu)
  refine h.imp (And.imp_right (Or.imp (hown _) (hbelow _)))
    (And.imp_right (Or.imp ?_ (Or.imp (And.imp_right (hown _))
      (And.imp_right (hown _)))))
  rintro ⟨a, ha, hle⟩
  exact ⟨a, ha, hbelow a hle⟩

/-- Beyond a limit that markers did not pass, only what vouched for a
declaration before does so now. -/
theorem Within.vouches {limit : Phase} (h : v.Within limit w)
    (hu : w.Registered u) (hlimit : .imports ≤ limit) (hq : limit < q)
    (hw : w.Vouches u d q) : v.Vouches u d q := by
  have hown : ∀ e, q ≤ w.own u e → q ≤ v.own u e := fun e =>
    (h.own u e q hu hq).mp
  have hbelow : ∀ e, q ≤ w.below u e → q ≤ v.below u e := fun e =>
    (h.below u e q hu hq).mp
  have himports : ¬ q ≤ .imports :=
    Phase.not_le_of_lt (Nat.lt_of_le_of_lt hlimit hq)
  refine hw.imp (And.imp_right (Or.imp (hown _) (hbelow _)))
    (And.imp_right (Or.imp ?_ (Or.imp (And.imp_right (hown _)) ?_)))
  · rintro ⟨a, ha, hle⟩
    exact ⟨a, ha, hbelow a hle⟩
  · exact fun hfile => absurd hfile.1 himports

/-- A lookup that has reached a phase without passing it has reached
exactly that phase. -/
theorem Within.reached_eq (h : v.Within p w) (hv : v.Registered u)
    (hp : .imports ≤ p) (hle : p ≤ w.reached u d) :
    w.reached u d = (max (v.reached u d) p).satisfied := by
  have hw := h.later.registered hv
  refine Phase.eq_of_le_iff fun q => ?_
  by_cases hq : .raw < q
  · have hcore : .raw < q.core := by
      revert hq
      cases q <;> decide
    have hidem : q.core.core = q.core := by
      cases q <;> rfl
    rw [le_reached_iff_vouches hq, Phase.le_satisfied_iff, Phase.le_max_iff,
      le_reached_iff_vouches hcore, hidem]
    refine ⟨fun hvouch => ?_, ?_⟩
    · by_cases hqp : q.core ≤ p
      · exact Or.inr hqp
      · exact Or.inl (h.vouches hw hp (Phase.lt_of_not_le hqp) hvouch)
    · rintro (hvouch | hqp)
      · exact hvouch.later hv h.later
      · rw [← hidem, ← le_reached_iff_vouches hcore]
        exact Phase.le_trans hqp hle
  · have hraw := Phase.le_of_not_lt hq
    exact iff_of_true (Phase.le_trans hraw (Phase.raw_le _))
      (Phase.le_trans hraw (Phase.raw_le _))

end World

-- ================================================================ no further

namespace Steady

variable {limit : Phase} {I : World → Prop} {setup : Setup}
  {goal : Designation} {phase : Phase} {cancellable : Bool}

/-- Resolving the annotations of a file marks the file. -/
theorem resolveFileAnnotations (hI : Steady limit I) {u : CompilationUnit}
    {g : Guard} (hp : phase ≤ limit) (hu : ∀ w, I w → w.Registered u) :
    Triple I (Action.resolveFileAnnotations setup u g phase)
      (fun _ => I) I := by
  refine .read_then fun own => ?_
  split
  · exact .pure fun _ hw => hw
  · refine .bind (hI.idle.enter setup u g false) fun c => .assume ?_
    rintro ⟨-, hunit, -, -⟩
    have hwork := hI.idle.work (c := c) fun w hw => hunit ▸ hu w hw
    refine .bind (hwork.resolveAnnotations trivial phase).triple fun _ => ?_
    exact hI.raiseOwn hu hp

/-- A request for a designation raises markers no further than to the phase
it asks for, or to the imports of the file. -/
theorem resolveDesignation (hI : Steady limit I) (hquiet : setup.Quiet)
    (himports : .imports ≤ limit) (hp : phase ≤ limit)
    (hu : ∀ w, I w → w.Registered goal.unit) :
    Triple I (Action.resolveDesignation setup goal phase cancellable)
      (fun _ => I) I := by
  refine hI.idle.resolveDesignation
    (fun w hw _ => hI.counters w _ (Nat.le_refl _) hw) ?_
  refine (hI.idle.resolveUnderLock hI.thread fun g _ => ?_).pre
    fun w hw => hw.1
  refine resolveLocked_triple (J := I) (hI.resolveImports himports hu)
    (fun _ hw => hw) (fun _ => hI.resolveFileAnnotations hp hu)
    (fun _ w hw _ => hw)
    (fun _ w hw _ => hI.counters w _ (Nat.le_refl _) hw) fun _ current => ?_
  refine (hI.runPhases (fun q hq => ?_) hquiet hu).pre fun w hw => hw.1
  exact Phase.le_trans (Phase.le_of_mem_stepsTo hq) hp

end Steady

-- =============================================================== and no less

namespace Action

variable {setup : Setup} {goal : Designation} {g : Guard} {phase : Phase}
  {cancellable : Bool}

/-- A phase that is run marks the target as a whole. -/
theorem runPhase_below (hquiet : setup.Quiet)
    (hg : g.lock = .ofUnit goal.unit.id) (hwf : goal.unit.WellFormed) :
    Advances (fun w => w.Coherent ∧ w.Registered goal.unit)
      (runPhase setup goal g cancellable phase)
      (fun _ w => w.Registered goal.unit ∧ (phase.rule?.isSome = true →
        phase ≤ w.below goal.unit goal.target))
      (fun w => w.Coherent ∧ w.Registered goal.unit) := by
  have hI := (Steady.coherent_self .bodies).and_registered goal.unit
  refine runPhase_advances (K := fun w => w.Coherent ∧ w.Registered goal.unit)
    (T := fun w => w.Registered goal.unit ∧ (phase.rule?.isSome = true →
      phase ≤ w.below goal.unit goal.target))
    (D := fun _ _ => True) hI.idle.toStatic (fun _ hw => hw) ?_ ?_
    (fun w hw => hI.session w _ hw) ?_ ?_
  · exact fun v w h hv => ⟨h.registered hv.1, fun hrule =>
      Phase.le_trans (hv.2 hrule) (h.below _ _ hv.1)⟩
  · exact fun hrule w hw => ⟨hw.2, fun h => by simp [hrule] at h⟩
  · rintro rule c hrule rfl hunit -
    exact hI.establishes (by decide) (fun w hw => hunit ▸ hw.2)
      (hunit ▸ hwf) hquiet hrule
  · rintro rule c visits R hrule hunit hR
    refine Visits.commit_triple hR hg hunit (fun w hw => hw.2) ?_
    intro w w' hw _ htarget h
    have hreg := h.registered_iff.mpr hw.2
    exact ⟨⟨h.coherent hw.1 hw.2, hreg⟩, hreg, fun _ =>
      (h.le_below_iff hw.2).mpr (Or.inr ⟨htarget, Phase.le_refl _⟩)⟩

/-- What is done under the lock brings the target to the phase. -/
theorem resolveLocked_reaches (hquiet : setup.Quiet)
    (hg : g.lock = .ofUnit goal.unit.id) :
    Triple (fun w => w.Coherent ∧ w.Registered goal.unit)
      (resolveLocked setup goal phase cancellable g)
      (fun _ w => phase ≤ w.current goal)
      (fun w => w.Coherent ∧ w.Registered goal.unit) := by
  have hI := (Steady.coherent_self .bodies).and_registered goal.unit
  have hkeeps : KeepsFile (fun w => w.Coherent ∧ w.Registered goal.unit)
      goal.unit := .of_raised fun w s hw hd hs _ =>
    hI.write w goal.unit .root s hw hw.2 hd hs
  -- the marker of the file answers for its imports
  have hfile : ∀ w : World, .imports ≤ w.own goal.unit .root →
      phase ≤ .extensionAnnotations → phase ≤ w.current goal := by
    intro w hw hp
    by_cases hraw : .raw < phase
    · have hcore : phase.core ≤ .imports := by
        revert hp
        cases phase <;> decide
      refine (le_reached_iff_vouches hraw).mpr ?_
      cases hroot : goal.target.isRoot with
      | true => exact Or.inl ⟨hroot, Or.inl (Phase.le_trans hcore hw)⟩
      | false =>
          exact Or.inr ⟨hroot, Or.inr (Or.inr ⟨hcore, Phase.le_trans hcore hw⟩)⟩
    · exact Phase.le_trans (Phase.le_of_not_lt hraw) (Phase.raw_le _)
  have hannotated : ∀ w : World, goal.isFile = true →
      phase ≤ w.own goal.unit .root → phase ≤ w.current goal := by
    intro w hroot hle
    unfold current reached
    rw [if_pos (show goal.target.isRoot = true from hroot)]
    exact Phase.le_trans (Phase.le_max_iff.mpr (Or.inl hle))
      (Phase.le_satisfied _)
  refine resolveLocked_triple (hI.idle.resolveImports hkeeps)
    (fun w hw => hw.1) (fun hroot => ?_) (fun hroot w hw hle => ?_)
    (fun _ w _ hle => hle) fun hroot current => ?_
  · exact (hI.idle.resolveFileAnnotations (hI.idle.fileWork fun w hw => hw.2)
      hkeeps.toRaisesFile).conseq (fun w hw => hw.1)
      (fun _ w hw => hannotated w hroot hw.2) fun _ hw => hw
  · rcases hle with hle | hle
    · exact hfile w hw.2 (Phase.le_trans hle (by decide))
    · exact hannotated w hroot hle
  · -- the phases that are run end with the core of the one that is asked for
    rintro w ⟨⟨hw, himports⟩, hbehind, hcurrent⟩
    have hext : .extensionAnnotations < phase :=
      Phase.lt_of_not_le fun hle => hbehind (hfile w himports hle)
    obtain ⟨q, hq⟩ := exists_reached_eq w goal.unit goal.target
    have hq : current = q.satisfied := hcurrent.symm.trans hq
    have hlt : q.satisfied < phase := by
      rw [← hq, ← hcurrent]
      exact Phase.lt_of_not_le hbehind
    obtain ⟨before, hsteps⟩ := Phase.stepsTo_eq_append_core hext hlt
    have hrule : phase.core.rule?.isSome = true := by
      revert hext
      cases phase <;> decide
    have hlast : phase.core ∈ (max current .lastFileWide).stepsTo phase := by
      rw [hq, hsteps]
      exact List.mem_append_right _ (List.mem_singleton.mpr rfl)
    have hwf := hw.1.wellFormed hw.2
    refine ((runPhases_advances (fun _ hw => hw) (fun p => ?_) fun p _ =>
      runPhase_below hquiet hg hwf).triple.post fun _ w' hw' => ?_) w hw
    · exact fun v w h hv => ⟨h.registered hv.1, fun hrule =>
        Phase.le_trans (hv.2 hrule) (h.below _ _ hv.1)⟩
    · exact (le_reached_iff hroot hext).mpr (Or.inl ⟨goal.target,
        List.mem_cons_self .., (hw'.2 phase.core hlast).2 hrule⟩)

/-- A request for a designation that succeeds leaves the target at the
phase. -/
theorem resolveDesignation_reaches (hquiet : setup.Quiet) :
    Triple (fun w => w.Coherent ∧ w.Registered goal.unit)
      (resolveDesignation setup goal phase cancellable)
      (fun _ w => phase ≤ w.current goal)
      (fun w => w.Coherent ∧ w.Registered goal.unit) := by
  have hI := (Steady.coherent_self .bodies).and_registered goal.unit
  refine hI.idle.resolveDesignation (fun w _ hle => hle) ?_
  exact (hI.idle.resolveUnderLock (fun _ _ hw => hw) fun g hg =>
    resolveLocked_reaches hquiet hg).pre fun w hw => hw.1

end Action

/-- A request for a designation that succeeds leaves the target at the
phase that was asked for, or where it was if that is further. -/
theorem World.Coherent.reached_of_resolveDesignation {setup : Setup}
    {goal : Designation} {phase : Phase} {cancellable : Bool} {w w' : World}
    (hw : w.Coherent) (hquiet : setup.Quiet) (hu : w.Registered goal.unit)
    (hp : .imports ≤ phase)
    (hrun : Action.resolveDesignation setup goal phase cancellable w =
      (.ok (), w')) :
    w.Within phase w' ∧ phase ≤ w'.current goal ∧
      w'.current goal = (max (w.current goal) phase).satisfied := by
  have hI := (hw.steady_within phase).and_registered goal.unit
  have hwithin := ((hI.resolveDesignation hquiet hp (Phase.le_refl _)
    fun _ h => h.2).ok ⟨⟨hw, .refl _ w⟩, hu⟩ hrun).1.2
  have hle := (resolveDesignation_reaches hquiet).ok ⟨hw, hu⟩ hrun
  exact ⟨hwithin, hle, hwithin.reached_eq hu hp hle⟩

-- ============================================================= asking again

/-- What the markers answer for a designation is counted and nothing else. -/
theorem Action.resolveDesignation_of_le_current {setup : Setup}
    {goal : Designation} {p : Phase} {cancellable : Bool} {w : World}
    (hle : p ≤ w.current goal) :
    resolveDesignation setup goal p cancellable w =
      (.ok (), { w with counters := w.counters.countAlreadyResolved }) := by
  show (if p ≤ w.current goal then count Counters.countAlreadyResolved
    else _) w = _
  rw [if_pos hle]
  rfl

/-- What the markers answer is answered at once, whatever the thread is
like and whatever the resolver is set up with. -/
theorem Action.request_of_le_current {setup : Setup} {allowLocal : Bool}
    {s : Symbol} {p : Phase} {cancellable : Bool} {w : World}
    {u : CompilationUnit} {x : Declaration} {goal : Designation}
    (hp : .raw < p) (hs : w.registry.declaration s = .ok (u, x))
    (hx : x.isEligible = true)
    (hgoal : u.designateWith allowLocal s.decl = .ok goal)
    (hle : p ≤ w.current goal) :
    request setup allowLocal s p cancellable w = (.ok (),
      { w with counters := w.counters.countRequest.countAlreadyResolved }) := by
  have hraw : p ≠ .raw := by
    rintro rfl
    exact absurd hp (by decide)
  rw [request_eq_resolveDesignation hraw hs hx hgoal]
  exact resolveDesignation_of_le_current
    (w := { w with counters := w.counters.countRequest }) hle

/-- A request that succeeds leaves its target known to satisfy the phase that
was asked for, or what it satisfied before if that is further, together with
the extension phases that follow, and nothing else. From then on every
request for a phase up to that one succeeds at once, in any world with this
registry and these states: it is counted as a request that was answered, and
changes nothing else. -/
theorem reached_of_request {setup : Setup} (hquiet : setup.Quiet)
    {w w' : World} (hw : Reaches setup anyCall w) {allowLocal : Bool}
    {s : Symbol} {p : Phase} {cancellable : Bool} {u : CompilationUnit}
    {x : Declaration} {goal : Designation}
    (hs : w.registry.declaration s = .ok (u, x)) (hx : x.isEligible = true)
    (hgoal : u.designateWith allowLocal s.decl = .ok goal)
    (hrun : Action.request setup allowLocal s p cancellable w = (.ok (), w')) :
    w'.reached u goal.target =
        (max (w.reached u goal.target) p).satisfied ∧
      ∀ (other : Setup) (v : World) (q : Phase) (cancellable' : Bool),
        v.registry = w'.registry → v.states = w'.states → .raw < q → q ≤ p →
        Action.request other allowLocal s q cancellable' v = (.ok (),
          { v with
            counters := v.counters.countRequest.countAlreadyResolved }) := by
  obtain rfl := CompilationUnit.unit_of_designateWith hgoal
  have hcoherent := hw.coherent hquiet
  obtain ⟨hunit, hdecl⟩ := Registry.declaration_eq_ok_iff.mp hs
  obtain ⟨hu, hid⟩ := hcoherent.registered hunit
  by_cases hp : p = .raw
  · -- nothing is to be done for the first phase
    subst hp
    obtain rfl : { w with counters := w.counters.countRequest } = w' :=
      congrArg Prod.snd hrun
    refine ⟨?_, fun other v q _ _ _ hq hle => ?_⟩
    · obtain ⟨q, hq⟩ := exists_reached_eq w goal.unit goal.target
      show w.reached goal.unit goal.target = _
      rw [hq]
      cases q <;> rfl
    · exact absurd hle (Phase.not_le_of_lt hq)
  · have himports : .imports ≤ p := by
      cases p <;> first | exact absurd rfl hp | decide
    rw [request_eq_resolveDesignation hp hs hx hgoal] at hrun
    have hstart := (Steady.coherent_self .bodies).counters w
      w.counters.countRequest (Nat.le_refl _) hcoherent
    obtain ⟨hwithin, hle, heq⟩ :=
      hstart.reached_of_resolveDesignation hquiet hu himports hrun
    refine ⟨heq, fun other v q _ hr hst hq hqp => ?_⟩
    have hu' : w'.Registered goal.unit := hwithin.later.registered hu
    have hs' : v.registry.declaration s = .ok (goal.unit, x) := by
      rw [hr]
      refine Registry.declaration_eq_ok_iff.mpr ⟨?_, hdecl⟩
      rw [← hid]
      exact hu'
    refine request_of_le_current hq hs' hx hgoal ?_
    rw [current, reached_of_states hst]
    exact Phase.le_trans hqp hle

/-- The status of a function in a class whose types are resolved already.
Another thread has taken the lock of the unit since, and the token is
cancelled. -/
theorem reached_of_request_plainClass :
    let setup := Setup.plain .default
    let w := World.after setup [.addUnit .plainClass,
      .resolve false ⟨⟨0⟩, ⟨2⟩⟩ .types false]
    let w' := (Action.request setup false ⟨⟨0⟩, ⟨2⟩⟩ .status false w).2
    let v := (Call.setToken ⟨true, false⟩).run setup
      ((Call.otherTakes (.ofUnit ⟨0⟩)).run setup w')
    ∃ u, w.registry.unit? ⟨0⟩ = some u ∧ w.reached u ⟨2⟩ = .extensionStatus ∧
      w'.reached u ⟨2⟩ = .status ∧
      Action.request setup false ⟨⟨0⟩, ⟨2⟩⟩ .supertypes true v = (.ok (),
        { v with
          counters := v.counters.countRequest.countAlreadyResolved }) := by
  intro setup w w' v
  have hw : Reaches setup anyCall w := Reaches.after setup _
  have hrun : (Action.request setup false ⟨⟨0⟩, ⟨2⟩⟩ .status false w).1 =
      .ok () := by decide +kernel
  have hbefore : (w.registry.unit? ⟨0⟩).map (w.reached · ⟨2⟩) =
      some .extensionStatus := by decide +kernel
  have hregistry : (World.after setup [.addUnit .plainClass]).registry =
      w.registry := by decide +kernel
  obtain ⟨u, x, goal, hs, hx, hgoal, htarget⟩ : ∃ u x goal,
      (World.after setup [.addUnit .plainClass]).registry.declaration
        ⟨⟨0⟩, ⟨2⟩⟩ = .ok (u, x) ∧ x.isEligible = true ∧
      u.designateWith false ⟨2⟩ = .ok goal ∧ goal.target = ⟨2⟩ :=
    ⟨_, _, _, rfl, rfl, rfl, rfl⟩
  rw [hregistry] at hs
  have hu := (Registry.declaration_eq_ok_iff.mp hs).1
  clear_value w
  obtain ⟨hreached, hagain⟩ := reached_of_request (Setup.quiet_plain .default)
    hw hs hx hgoal (run_of_fst hrun)
  rw [hu] at hbefore
  have hbefore : w.reached u ⟨2⟩ = .extensionStatus := Option.some.inj hbefore
  rw [htarget, hbefore] at hreached
  exact ⟨u, hu, hbefore, hreached,
    hagain setup v .supertypes true rfl rfl (by decide) (by decide)⟩

end StagedResolve
