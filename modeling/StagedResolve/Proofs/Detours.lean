/-
Detours: a member first, and then its class.

# Where the ways meet

Whoever asks for a class gets what the phases make of everything in it. If
a member was asked for before, some of that was done already, and the
class was passed on the way. What is in the class is then at different
phases here and there, but each declaration holds what the blueprint tells
for the phase that it has reached (`Blueprint.Fits`). That is all that a
request for the class needs, and it brings everything to the phase that
was asked for; so it ends where it would have ended without the detour
(`Blueprint.Fits.slots_eq`).

# What must not be passed

The detour leaves nothing behind only if there was nothing more to do for
what it passed. So the statement is about classes that are inside of
classes (`slots_eq_of_member_first`). A constructor that is passed keeps
a type that is not there: it is marked, and no later request comes back to
it (`not_slots_eq_of_member_first`).

# Locks

A lock that cannot be got fails the one request as it fails the other, and
then nothing has happened at all.
-/
import StagedResolve.Proofs.Inference
import StagedResolve.Proofs.Interruptions
import StagedResolve.Proofs.Piecework

namespace StagedResolve

open StagedResolve.Action World

-- ============================================================ taking the lock

namespace Action

variable {id : UnitId} {p : Phase} {w : World}

/-- A lock that is not blocked is got, and with it what dropping it needs. -/
theorem lockForRequest_of_free (h : ¬ w.thread.Blocked (.ofUnit id)) :
    ∃ g, (w.thread.lockOrdered (.ofUnit id)).1 = some g ∧
      g.lock = .ofUnit id ∧ lockForRequest id p false w = (.ok g,
        { w with thread := (w.thread.lockOrdered (.ofUnit id)).2 }) := by
  cases hg : (w.thread.lockOrdered (.ofUnit id)).1 with
  | none => exact absurd (Thread.blocked_of_lockOrdered hg).1 h
  | some g =>
      refine ⟨g, rfl, Thread.lock_lockOrdered hg, ?_⟩
      have hwait : read (fun w => w.thread.owns (.ofUnit id) ||
          w.thread.mayWaitFor id) w =
            (.ok (w.thread.owns (.ofUnit id) || w.thread.mayWaitFor id), w) := rfl
      have heq := Thread.lockOrdered_eq_some hg
      unfold lockForRequest
      rw [bind_run_ok hwait]
      split
      · rw [heq] at hg ⊢
        cases hg
        rfl
      · have hheld : read (fun w => w.thread.highest?.getD id) w =
            (.ok (w.thread.highest?.getD id), w) := rfl
        rw [bind_run_ok hheld, bind_run_ok (lockUnitOrdered_run id w), hg]
        rfl

/-- One that is blocked is refused, and nothing changes. -/
theorem lockForRequest_of_blocked (h : w.thread.Blocked (.ofUnit id)) :
    lockForRequest id p false w = (.error (.error
      (.lockOrderViolation id (w.thread.highest?.getD id))), w) := by
  have hwait : read (fun w => w.thread.owns (.ofUnit id) ||
      w.thread.mayWaitFor id) w = (.ok false, w) := by
    show (Except.ok (w.thread.owns (.ofUnit id) || w.thread.mayWaitFor id), w) = _
    have hnotWaiting : w.thread.mayWaitFor id = false := h.notWaiting
    rw [h.notOurs, hnotWaiting]
    rfl
  have hheld : read (fun w => w.thread.highest?.getD id) w =
      (.ok (w.thread.highest?.getD id), w) := rfl
  have hlock := lockUnitOrdered_run id w
  rw [h.lockOrdered, (Thread.blocked_of_lockOrdered h.lockOrdered).2] at hlock
  unfold lockForRequest
  rw [bind_run_ok hwait, if_neg Bool.false_ne_true, bind_run_ok hheld,
    bind_run_ok hlock]
  rfl

variable {goal : Designation}

/-- Where the lock is blocked a request does nothing but count: it is answered
from the markers or refused, whatever was counted before. -/
theorem resolveDesignation_of_blocked (setup : Setup) (p : Phase)
    (h : w.thread.Blocked (.ofUnit goal.unit.id)) :
    ∃ answer, ∀ c : Counters, ∃ c' : Counters,
      resolveDesignation setup goal p false { w with counters := c } =
        (answer, { w with counters := c' }) := by
  by_cases hle : p ≤ w.current goal
  · exact ⟨.ok (), fun c => ⟨_, resolveDesignation_of_le_current
      (w := { w with counters := c }) hle⟩⟩
  · refine ⟨.error (.error (.lockOrderViolation goal.unit.id
      (w.thread.highest?.getD goal.unit.id))), fun c => ⟨c, ?_⟩⟩
    have hlock := lockForRequest_of_blocked (p := p)
      (w := { w with counters := c }) h
    have hunder : resolveUnderLock setup goal p false { w with counters := c } =
        _ := bind_run_error hlock _
    show (if p ≤ w.current goal then count Counters.countAlreadyResolved
      else countingCancellation (resolveUnderLock setup goal p false))
        { w with counters := c } = _
    rw [if_neg hle]
    have hattempt : attempt (resolveUnderLock setup goal p false)
        { w with counters := c } =
          (.ok (.error (.error (.lockOrderViolation goal.unit.id
            (w.thread.highest?.getD goal.unit.id)))), { w with counters := c }) := by
      unfold attempt
      rw [hunder]
    unfold countingCancellation
    rw [bind_run_ok hattempt]
    rfl

/-- The same holds of requests for declarations. -/
theorem resolve_of_blocked (setup : Setup) (p : Phase) (d : DeclId)
    {u : CompilationUnit} (hu : w.Registered u) (h : w.thread.Blocked (.ofUnit u.id)) :
    ∃ answer, ∀ c : Counters, ∃ c' : Counters,
      resolve setup (u.symbol d) p false { w with counters := c } =
        (answer, { w with counters := c' }) := by
  rcases request_cases setup false (u.symbol d) p w.registry with
    ⟨answer, hrun⟩ | ⟨v, y, goal, hfound, -, hgoal, hrun⟩
  · exact ⟨answer, fun c => ⟨_, hrun { w with counters := c } false rfl⟩⟩
  · obtain rfl : u = v := Option.some.inj
      (hu.symm.trans (Registry.declaration_eq_ok_iff.mp hfound).1)
    obtain ⟨answer, hanswer⟩ := resolveDesignation_of_blocked setup p
      (CompilationUnit.unit_of_designateWith hgoal ▸ h)
    refine ⟨answer, fun c => ?_⟩
    obtain ⟨c', hc'⟩ := hanswer c.countRequest
    exact ⟨c', (hrun { w with counters := c } false rfl).trans hc'⟩

/-- A request for a declaration that can be designated is one for its
designation, or it is counted and nothing else happens. -/
theorem resolve_snd_cases {setup : Setup} {u : CompilationUnit} {d : DeclId}
    (hu : w.Registered u) (hgoal : u.designate d = .ok goal) :
    (resolve setup (u.symbol d) p false w).2 =
        { w with counters := w.counters.countRequest } ∨
      (resolve setup (u.symbol d) p false w).2 =
        (resolveDesignation setup goal p false
          { w with counters := w.counters.countRequest }).2 := by
  rcases request_cases setup false (u.symbol d) p w.registry with
    ⟨answer, hrun⟩ | ⟨v, y, g, hfound, -, hg, hrun⟩
  · exact Or.inl (congrArg Prod.snd (hrun w false rfl))
  · obtain rfl : u = v := Option.some.inj
      (hu.symm.trans (Registry.declaration_eq_ok_iff.mp hfound).1)
    obtain rfl : goal = g := Except.ok.inj (hgoal.symm.trans hg)
    exact Or.inr (congrArg Prod.snd (hrun w false rfl))

/-- So where the lock is blocked, what was asked for before makes no difference
to a request. -/
theorem resolve_after_of_blocked (setup : Setup) (p : Phase) (m d : DeclId)
    {u : CompilationUnit} (hu : w.Registered u) (h : w.thread.Blocked (.ofUnit u.id)) :
    let first := (resolve setup (u.symbol m) p false w).2
    let second := resolve setup (u.symbol d) p false first
    let alone := resolve setup (u.symbol d) p false w
    second.1 = alone.1 ∧ second.2.states = alone.2.states := by
  intro first second alone
  obtain ⟨_, hfirst⟩ := resolve_of_blocked setup p m hu h
  obtain ⟨answer, hanswer⟩ := resolve_of_blocked setup p d hu h
  obtain ⟨k, hk⟩ := hfirst w.counters
  have hk : first = { w with counters := k } := congrArg Prod.snd hk
  obtain ⟨k₁, halone⟩ := hanswer w.counters
  obtain ⟨k₂, hsecond⟩ := hanswer k
  have halone : alone = (answer, { w with counters := k₁ }) := halone
  have hsecond : second = (answer, { w with counters := k₂ }) := by
    show resolve setup (u.symbol d) p false first = _
    rw [hk, hsecond]
  rw [hsecond, halone]
  exact ⟨rfl, rfl⟩

end Action

-- ======================================================== phases and places

/-- A marker that has come by all the work up to a phase, and no further, has
come by the same work as the phase. -/
theorem Phase.works_eq_of_complete {base m p : Phase} {isLocal : Bool}
    (hm : m ≤ base ∨ m ≤ p) (hdone : ∀ r ∈ works isLocal base p, r ≤ m) :
    works isLocal base m = works isLocal base p := by
  refine List.filter_congr fun r hr => ?_
  cases hbase : decide (base < r) with
  | false => rfl
  | true =>
      have hbase := of_decide_eq_true hbase
      cases hplace : !isLocal || r == .bodies with
      | false => rw [Bool.and_false, Bool.and_false]
      | true =>
          have hiff : r ≤ m ↔ r ≤ p := by
            refine ⟨fun hrm => ?_, fun hrp => hdone r (List.mem_filter.mpr
              ⟨hr, by rw [hplace, decide_eq_true hbase, decide_eq_true hrp]; rfl⟩)⟩
            rcases hm with hle | hle
            · exact absurd (le_trans hrm hle) (not_le_of_lt hbase)
            · exact le_trans hrm hle
          rw [decide_eq_decide.mpr hiff]

namespace CompilationUnit

variable {u : CompilationUnit} {p : Phase} {t d : DeclId}

/-- Nothing around a declaration is below it. -/
theorem WellFormed.not_below_of_mem_ancestors (hu : u.WellFormed)
    (h : d ∈ u.ancestors t) : ¬ (t = d ∨ t ∈ u.ancestors d) := by
  have hlt := hu.index_lt_of_mem_ancestors h
  rintro (rfl | hup)
  · exact Nat.lt_irrefl _ hlt
  · exact Nat.lt_asymm hlt (hu.index_lt_of_mem_ancestors hup)

/-- What one comes to through members that go through the phases, outside of
executable code, is inside. -/
theorem Inside.of_chain (hu : u.WellFormed) (h : t = d ∨ t ∈ u.ancestors d)
    (hchain : ∀ e ∈ d :: u.ancestors d,
      u.isEligible e = true ∧ u.isLocal e = false) : u.Inside p t d := by
  induction d using hu.parent_induction with
  | top d hd =>
      rw [WellFormed.ancestors_of_no_parent hd] at h
      obtain rfl := h.resolve_right List.not_mem_nil
      exact .refl
  | step d m hm ih =>
      rcases h with rfl | h
      · exact .refl
      · obtain ⟨he, hl⟩ := hchain d (List.mem_cons_self ..)
        rw [hu.ancestors_of_parent hm] at h hchain
        exact (ih (List.mem_cons.mp h) fun e hmem =>
          hchain e (List.mem_cons_of_mem _ hmem)).tail
            ⟨(hu.child_iff m d).mpr hm, he, Or.inl hl⟩

end CompilationUnit

namespace Designation.Ordinary

variable {goal goal' : Designation} {a t : DeclId} {p : Phase}

/-- The target and everything around it are the chain. -/
theorem mem_chain (hpath : ∀ a, a ∈ goal.path ↔
      a ∈ goal.unit.ancestors goal.target ∧ a.isRoot = false)
    (ha : a ∈ goal.target :: goal.unit.ancestors goal.target) :
    a ∈ goal.chain := by
  rcases List.mem_cons.mp ha with rfl | ha
  · exact target_mem goal
  · by_cases hroot : a.isRoot = true
    · rw [DeclId.eq_root hroot]
      exact List.mem_cons_self ..
    · exact path_mem ((hpath a).mpr ⟨ha, Bool.eq_false_iff.mpr hroot⟩)

/-- What stands on an ordinary chain is inside of everything around it. -/
theorem inside (h : goal.Ordinary) (hwf : goal.unit.WellFormed)
    (hpath : ∀ a, a ∈ goal.path ↔
      a ∈ goal.unit.ancestors goal.target ∧ a.isRoot = false)
    (ha : a ∈ goal.path ++ [goal.target])
    (hup : t = a ∨ t ∈ goal.unit.ancestors a) : goal.unit.Inside p t a := by
  refine .of_chain hwf hup fun e he => ?_
  have hchain : e ∈ goal.chain := by
    refine mem_chain hpath (List.mem_cons.mpr ?_)
    rcases List.mem_append.mp ha with ha | ha
    · have hup := ((hpath a).mp ha).1
      rcases List.mem_cons.mp he with rfl | he
      · exact Or.inr hup
      · exact Or.inr (hwf.ancestors_trans he hup)
    · rw [List.mem_singleton.mp ha] at he
      exact List.mem_cons.mp he
  exact ⟨h.eligible e hchain, h.nonlocal e hchain⟩

/-- What is ordinary in a chain is so in the part of it that ends at something
on the path. -/
theorem of_mem_path (h : goal.Ordinary)
    (hwf : goal.unit.WellFormed) (hunit : goal'.unit = goal.unit)
    (hpath : ∀ a, a ∈ goal.path ↔
      a ∈ goal.unit.ancestors goal.target ∧ a.isRoot = false)
    (hpath' : ∀ a, a ∈ goal'.path ↔
      a ∈ goal.unit.ancestors goal'.target ∧ a.isRoot = false)
    (ht : goal'.target ∈ goal.path) : goal'.Ordinary := by
  have hsub : ∀ a ∈ goal'.path, a ∈ goal.path := fun a ha =>
    (hpath a).mpr ⟨hwf.ancestors_trans ((hpath' a).mp ha).1 ((hpath _).mp ht).1,
      ((hpath' a).mp ha).2⟩
  have hchain : ∀ a ∈ goal'.chain, a ∈ goal.chain := by
    intro a ha
    rcases List.mem_append.mp ha with ha | ha
    · rcases List.mem_cons.mp ha with rfl | ha
      · exact List.mem_cons_self ..
      · exact path_mem (hsub a ha)
    · split at ha
      · cases ha
      · rw [List.mem_singleton.mp ha]
        exact path_mem ht
  exact {
    eligible := fun a ha => hunit ▸ h.eligible a (hchain a ha)
    nonlocal := fun a ha => hunit ▸ h.nonlocal a (hchain a ha)
    parameter := fun a ha => hunit ▸ h.parameter a (hsub a ha) }

end Designation.Ordinary

namespace Blueprint

variable {b : Blueprint} {owner d : DeclId} {p : Phase}
  {goal goal' : Designation} {w w' : World}

-- ======================================================== where one begins

/-- A designation of something in a class, on an ordinary chain. -/
theorem Concerns.of_ordinary (hunit : goal.unit = b.unit)
    (hmatches : goal.Matches b.unit) (hordinary : goal.Ordinary)
    (hpath : ∀ a, a ∈ goal.path ↔
      a ∈ b.unit.ancestors goal.target ∧ a.isRoot = false)
    (htop : owner = goal.target ∨ owner ∈ b.unit.ancestors goal.target)
    (hpassed : ∀ a ∈ goal.path, owner = a ∨ owner ∈ b.unit.ancestors a →
      b.unit.Passable a (b.start a)) : b.Concerns owner p goal := by
  have hinside : ∀ a ∈ goal.path ++ [goal.target],
      owner = a ∨ owner ∈ b.unit.ancestors a → b.unit.Inside p owner a := by
    rw [← hunit] at hmatches hpath ⊢
    exact fun a ha hup => hordinary.inside hmatches.wellFormed hpath ha hup
  have hnonlocal : ∀ a ∈ goal.path ++ [goal.target], b.unit.isLocal a = false := by
    intro a ha
    rw [← hunit]
    rcases List.mem_append.mp ha with ha | ha
    · exact hordinary.nonlocal a (Designation.Ordinary.path_mem ha)
    · rw [List.mem_singleton.mp ha]
      exact hordinary.nonlocal _ (Designation.Ordinary.target_mem goal)
  exact {
    unit := hunit
    fits := hmatches
    path := hpath
    nonlocal := hnonlocal
    target := hinside _ (List.mem_append_right _ (List.mem_singleton_self _)) htop
    passed := fun a ha hup => ⟨hinside a (List.mem_append_left _ ha) hup,
      hpassed a ha hup⟩ }

/-- A designation of the class itself: nothing is passed in the class. -/
theorem Concerns.of_target (hunit : goal.unit = b.unit)
    (hmatches : goal.Matches b.unit) (hordinary : goal.Ordinary)
    (hpath : ∀ a, a ∈ goal.path ↔
      a ∈ b.unit.ancestors goal.target ∧ a.isRoot = false)
    (ht : goal.target = owner) : b.Concerns owner p goal :=
  .of_ordinary hunit hmatches hordinary hpath (Or.inl ht.symm) fun a hmem hup =>
    absurd (ht.symm ▸ hup) (hmatches.wellFormed.not_below_of_mem_ancestors
      ((hpath a).mp hmem).1)

/-- A class that can be passed, in a unit in which nothing is written that a
phase fails for. -/
theorem Owner.of_passable (h : b.unit.Passable owner (b.start owner))
    (he : b.unit.isEligible owner = true) (hroot : owner.isRoot = false)
    (hregular : b.unit.Regular) (hbare : b.unit.BareParameters)
    (hcontracts : ∀ d x, b.unit.decl? d = some x → x.kind.isCallable = false →
      x.contract = [])
    (hplain : p = .bodies → ∀ d, owner ∈ b.unit.ancestors d →
      b.unit.isLocal d = true → b.unit.isClassLike d = false) :
    b.Owner owner p where
  kind := h.kind
  nonlocal := h.nonlocal
  eligible := he
  root := fun hfile => by
    rw [hfile] at hroot
    cases hroot
  bare := hbare
  inherits := fun d m => hregular.inherits m d
  contracts := hcontracts
  plain := hplain

/-- Nothing below a class is further than the class, beyond the phases of the
supertypes. -/
theorem Owner.own_le (ho : b.Owner owner p) (hu : w.Registered b.unit)
    (hwf : b.unit.WellFormed) (hw : w.Chained) (hbase : .sealedInheritors ≤ b.base)
    (hopen : w.own b.unit owner ≤ b.base) (he : b.unit.isEligible d = true)
    (hd : owner = d ∨ owner ∈ b.unit.ancestors d) :
    w.own b.unit d ≤ b.base := by
  rcases hd with rfl | hup
  · exact hopen
  · refine Phase.le_of_not_lt fun hlt => ?_
    have hroot : d.isRoot = false :=
      Bool.eq_false_iff.mpr fun h => not_mem_ancestors_root hwf h owner hup
    have hlate : .supertypes < w.own b.unit d :=
      Nat.lt_of_le_of_lt (Phase.le_trans (by decide) hbase) hlt
    have habove := ((hw _ hu).path d _ hroot he hlate (Or.inl (Phase.le_refl _))).2
      owner hup ho.isRoot_eq_false
    exact Phase.not_le_of_lt hlt (Phase.le_trans habove hopen)

/-- And the markers do not say that anything is. -/
theorem Concerns.not_le_current (ha : b.Concerns owner p goal)
    (hordinary : goal.Ordinary) (hu : w.Registered b.unit) (hw : w.Chained)
    (hbase : .sealedInheritors ≤ b.base) (hopen : w.own b.unit owner ≤ b.base)
    (hmem : owner ∈ goal.path ++ [goal.target]) {r : Phase} (hr : b.base < r)
    (hrun : r.isExtension = false) : ¬ r ≤ w.current goal := by
  intro hle
  have hpath := ha.path
  have hwf := ha.fits.wellFormed
  have hlate : .supertypes < r :=
    Nat.lt_of_le_of_lt (Phase.le_trans (by decide) hbase) hr
  have hcore : r ≤ r.core := (Phase.le_core_iff hrun).mpr (Phase.le_refl r)
  rw [← ha.unit] at hu hwf hpath hopen
  have hsettled := ((hw _ hu).settled hwf hordinary hpath hlate hle).2
    (Nat.lt_trans (by decide : Phase.extensionAnnotations < .supertypes) hlate)
      owner hmem
  exact Phase.not_le_of_lt hr (Phase.le_trans hcore (Phase.le_trans hsettled hopen))

/-- In a world that is governed and in which a class is no further than all of
it, what the blueprint tells of the class holds. -/
theorem Fits.start (ho : b.Owner owner p) (hgoverns : b.Governs w)
    (hdeep : w.Deep) (hchained : w.Chained) (hstart : b.start = w.slots b.unit)
    (himports : .imports ≤ w.own b.unit .root)
    (hwhole : .supertypes ≤ w.below b.unit owner)
    (hlevel : b.base ≤ w.below b.unit owner ∨ b.base ≤ .sealedInheritors)
    (hbase : .sealedInheritors ≤ b.base) (hopen : w.own b.unit owner ≤ b.base) :
    b.Fits owner p w := by
  have hwf := hgoverns.wellFormed
  have hle : ∀ d, b.unit.Inside p owner d → w.own b.unit d ≤ b.base :=
    fun d hin => ho.own_le hgoverns.registered hwf hchained hbase hopen
      (hin.eligible ho.eligible) (hin.below hwf)
  refine ⟨hgoverns, hdeep, himports, hwhole, hlevel, fun d hin => ?_,
    fun d hin => Or.inl (hle d hin), fun d _ _ _ => by rw [hstart]⟩
  rw [Blueprint.slots_of_le hwf (Or.inr (hle d hin)), hstart]

/-- Where nothing that is passed is further than that, a request for something
that the markers say no more of begins with nothing done. -/
theorem Progress.start
    (hcurrent : ∀ r, b.base < r → r.isExtension = false → ¬ r ≤ w.current goal)
    (hpassed : ∀ d, b.unit.Inside p owner d → goal.Passes b.unit d →
      w.own b.unit d ≤ b.base) :
    b.Progress owner p goal (w.current goal) [] w := by
  refine ⟨fun d _ _ r hr hr' => ?_, fun d hin hd => Or.inl (hpassed d hin hd)⟩
  exact absurd (hr'.resolve_left List.not_mem_nil) (hcurrent r
    (Phase.mem_works_iff.mp hr).2.1.1 (Phase.after_of_mem_works hr).2.1)

/-- Nothing in a class is passed on the way to the class. -/
theorem Concerns.not_passes (ha : b.Concerns owner p goal)
    (ho : b.Owner owner p) (ht : goal.target = owner)
    (hin : b.unit.Inside p owner d) : ¬ goal.Passes b.unit d := by
  have hu := ha.fits.wellFormed
  have hbelow : ∀ a ∈ goal.path, ¬ b.unit.Inside p owner a := by
    intro a hmem hin
    refine hu.not_below_of_mem_ancestors ((ha.path a).mp hmem).1 ?_
    exact ht.symm ▸ hin.below hu
  rintro (hd | ⟨a, hmem, hd⟩)
  · exact hbelow d hd hin
  · exact hbelow a hmem (ho.inside_of_parameter hu hin hd)

/-- What the markers know of a class that has members, everything in the class
has reached. -/
theorem Fits.progress (hw : b.Fits owner p w) (ho : b.Owner owner p)
    (ha : b.Concerns owner p goal) (ht : goal.target = owner)
    (hordinary : goal.Ordinary) (hmembers : b.unit.hasMembers owner = true) :
    b.Progress owner p goal (w.current goal) [] w := by
  have hu := hw.governs.wellFormed
  have hreg := hw.governs.registered
  refine ⟨fun d hin _ r hr hr' => ?_, fun d hin hd =>
    absurd hd (ha.not_passes ho ht hin)⟩
  obtain ⟨-, -, hplace⟩ := Phase.mem_works_iff.mp hr
  obtain ⟨hlate, -, hcore⟩ := Phase.after_of_mem_works hr
  have hchain : ∀ e ∈ owner :: b.unit.ancestors owner, e ∈ goal.chain := by
    rw [← ht, ← ha.unit]
    exact fun e he => Designation.Ordinary.mem_chain (ha.unit.symm ▸ ha.path) he
  have hle : r ≤ w.reached b.unit owner := by
    have hle := hr'.resolve_left List.not_mem_nil
    rwa [World.current, ha.unit, ht] at hle
  rcases (World.le_reached_iff ho.isRoot_eq_false (Nat.lt_trans
    (by decide : Phase.extensionAnnotations < .supertypes) hlate)).mp hle with
    ⟨a, hup, hbelow⟩ | ⟨hnone, -⟩
  · rw [hcore] at hbelow
    refine hw.deep.le_own_of_inside hreg ho.bare hu ho.inherits ho.eligible ?_
      hin hplace
    rcases List.mem_cons.mp hup with rfl | hup
    · exact hbelow
    · refine (hw.deep.backed.unit _ hreg).inside_chain hu (fun e he => ?_)
        (Or.inl fun e he => ?_) (fun e he hkind => ?_) (Nat.le_of_lt hlate)
        hbelow hup
      · exact ha.unit ▸ hordinary.eligible e (hchain e he)
      · exact ha.unit ▸ hordinary.nonlocal e (hchain e he)
      · by_cases hroot : e.isRoot = true
        · rw [DeclId.eq_root hroot] at hkind
          obtain ⟨x, hx, hkind⟩ := Option.map_eq_some_iff.mp hkind
          rw [hu.file x hx] at hkind
          cases hkind
        · exact hordinary.parameter e ((ha.path e).mpr
            ⟨ht.symm ▸ he, Bool.eq_false_iff.mpr hroot⟩) (ha.unit ▸ hkind)
  · rw [hmembers] at hnone
    cases hnone

/-- What a class has reached as a whole, the markers say of everything in it. -/
theorem Concerns.le_current (ha : b.Concerns owner p goal)
    (htop : owner = goal.target ∨ owner ∈ b.unit.ancestors goal.target)
    {r : Phase} (hr : .extensionAnnotations < r) (hle : r ≤ w.below b.unit owner) :
    r ≤ w.current goal := by
  rw [World.current, ha.unit]
  exact (World.le_reached_iff ha.isRoot_eq_false hr).mpr (Or.inl ⟨owner,
    List.mem_cons.mpr htop, Phase.le_trans r.core_le hle⟩)

-- ============================================================== one request

/-- A request for a designation that can get its lock brings all that it is
about to the phase, and what the blueprint tells holds afterwards. -/
theorem Fits.resolveDesignation_run {setup : Setup} (hw : b.Fits owner p w)
    (ho : b.Owner owner p) (ha : b.Concerns owner p goal) (hs : b.Serves setup)
    (htop : owner = goal.target ∨ owner ∈ b.unit.ancestors goal.target)
    (hstart : b.Progress owner p goal (w.current goal) [] w)
    (hfree : ¬ w.thread.Blocked (.ofUnit b.unit.id)) :
    ∃ w', Action.resolveDesignation setup goal p false w = (.ok (), w') ∧
      b.Fits owner p w' ∧ b.Complete owner p goal w' ∧
      ¬ w'.thread.Blocked (.ofUnit b.unit.id) := by
  by_cases hle : p ≤ w.current goal
  · refine ⟨_, resolveDesignation_of_le_current hle, hw.of_eq
      (World.Deep.idle.counters w _ (Nat.le_refl _) hw.deep) rfl rfl,
      fun d hin hd r hr => ?_, hfree⟩
    exact hstart.reached d hin hd r hr (Or.inr
      (Phase.le_trans (Phase.mem_works_iff.mp hr).2.1.2 hle))
  · obtain ⟨g, hg, hglock, hlock⟩ := lockForRequest_of_free (p := p) hfree
    let v : World := { w with
      thread := (w.thread.lockOrdered (.ofUnit b.unit.id)).2 }
    have hv : b.Fits owner p v :=
      hw.of_eq (World.Deep.idle.thread w _ hw.deep) rfl rfl
    have hx : .supertypes ≤ w.current goal :=
      ha.le_current htop (by decide) hw.whole
    have hbase : b.base ≤ w.current goal ∨ b.base ≤ .sealedInheritors := by
      refine or_iff_not_imp_right.mpr fun hlate => ?_
      exact ha.le_current htop (Nat.lt_trans (by decide : Phase.extensionAnnotations <
        .sealedInheritors) (Phase.lt_of_not_le hlate)) (hw.level.resolve_right hlate)
    have hstart : b.Progress owner p goal (w.current goal) [] v := hstart.of_eq rfl
    obtain ⟨v', hphases, hfits, hprogress⟩ := hstart.runPhases_run rfl hv ho ha hs
      hglock hx hbase
    have himports : .imports ≤ v.own goal.unit .root := ha.unit.symm ▸ hv.file
    have hlocked : resolveLocked setup goal p false g v = (.ok (), v') := by
      rw [resolveLocked_run ha.isRoot_eq_false (resolveImports_of_marked himports)]
      exact (if_neg hle).trans hphases
    have hlock : lockForRequest goal.unit.id p false w = (.ok g, v) :=
      ha.unit.symm ▸ hlock
    have hthread : v.thread.Alike v'.thread := by
      refine (((KeepsThread.phases (fun h hh => ?_) v.thread).runPhases goal g
        _).triple.ok ⟨.refl _, hv.governs.coherent.registry⟩ hphases).1
      rw [hs.hooks] at hh
      cases hh
    refine ⟨_, (resolveDesignation_eq_ok hle).mpr (resolveUnderLock_eq_ok.mpr
      ⟨g, v, v', hlock, hlocked, rfl⟩), hfits.of_eq
        (World.Deep.idle.thread v' _ hfits.deep) rfl rfl,
      (hprogress.of_eq rfl).complete, fun h => ?_⟩
    exact hfree ((hthread.release hg).blocked_iff.mpr h)

-- ========================================================== where ways meet

/-- Two worlds in which everything in a class has come to the same phase do not
differ in what the class and everything below it holds. -/
theorem Fits.slots_eq (hw : b.Fits owner p w) (hw' : b.Fits owner p w')
    (ho : b.Owner owner p) (ht : goal.target = owner)
    (hdone : b.Complete owner p goal w) (hdone' : b.Complete owner p goal w')
    (he : b.unit.isEligible d = true)
    (hd : owner = d ∨ owner ∈ b.unit.ancestors d) :
    w.slots b.unit d = w'.slots b.unit d := by
  by_cases hin : b.unit.Inside p owner d
  · have hu := hw.governs.wellFormed
    obtain ⟨x, hx⟩ := ho.exists_decl hin
    have hlocal := CompilationUnit.isLocal_of_decl? hx
    have hworks : ∀ {v : World}, b.Fits owner p v → b.Complete owner p goal v →
        Phase.works x.isLocal b.base (v.own b.unit d) =
          Phase.works x.isLocal b.base p :=
      fun hv hdone => Phase.works_eq_of_complete (hv.bound d hin)
        (hlocal ▸ hdone d hin (Or.inr (ht.symm ▸ hin)))
    rw [hw.told d hin, hw'.told d hin, Blueprint.slots_eq hu hx,
      Blueprint.slots_eq hu hx, hworks hw hdone, hworks hw' hdone']
  · rw [hw.outside d he hd hin, hw'.outside d he hd hin]

/-- Counting changes nothing of that. -/
theorem Fits.counted (hw : b.Fits owner p w) :
    b.Fits owner p { w with counters := w.counters.countRequest } :=
  hw.of_eq (World.Deep.idle.counters _ _ (Nat.le_refl _) hw.deep) rfl rfl

/-- A request for a class that has members and can get its lock brings
everything in it to the phase. -/
theorem Fits.resolve_run {setup : Setup} (hw : b.Fits owner p w)
    (ho : b.Owner owner p) (ha : b.Concerns owner p goal) (hs : b.Serves setup)
    (hgoal : b.unit.designate owner = .ok goal) (ht : goal.target = owner)
    (hordinary : goal.Ordinary) (hmembers : b.unit.hasMembers owner = true)
    (hp : .supertypes < p) (hfree : ¬ w.thread.Blocked (.ofUnit b.unit.id)) :
    ∃ w', Action.resolve setup (b.unit.symbol owner) p false w = (.ok (), w') ∧
      b.Fits owner p w' ∧ b.Complete owner p goal w' := by
  have hraw : p ≠ .raw := by
    rintro rfl
    exact absurd hp (by decide)
  obtain ⟨x, hx, he⟩ := Option.any_eq_true _ _ |>.mp ho.eligible
  obtain ⟨w', hrun, hdone, hcomplete, -⟩ := hw.counted.resolveDesignation_run ho
    ha hs (Or.inl ht.symm)
    (hw.counted.progress ho ha ht hordinary hmembers) hfree
  have hfound : w.registry.declaration (b.unit.symbol owner) = .ok (b.unit, x) :=
    Registry.declaration_eq_ok_iff.mpr ⟨hw.governs.registered, hx⟩
  exact ⟨w', (request_eq_resolveDesignation hraw hfound he hgoal).trans hrun,
    hdone, hcomplete⟩

/-- A request for something in a class that is no further than all of it leaves
the class and everything below it as the blueprint tells, and the lock as it
was. -/
theorem Fits.resolve_member {setup : Setup} {m : DeclId} (hw : b.Fits owner p w)
    (ho : b.Owner owner p) (ha : b.Concerns owner p goal) (hs : b.Serves setup)
    (hgoal : b.unit.designate m = .ok goal)
    (htop : owner ∈ b.unit.ancestors goal.target) (hordinary : goal.Ordinary)
    (hchained : w.Chained) (hbase : .sealedInheritors ≤ b.base)
    (hopen : w.own b.unit owner ≤ b.base)
    (hfree : ¬ w.thread.Blocked (.ofUnit b.unit.id)) :
    let w' := (Action.resolve setup (b.unit.symbol m) p false w).2
    b.Fits owner p w' ∧ ¬ w'.thread.Blocked (.ofUnit b.unit.id) := by
  intro w'
  have hreg := hw.governs.registered
  have hwf := hw.governs.wellFormed
  have hnothing : b.Progress owner p goal (w.current goal) [] w :=
    .start (fun r => ha.not_le_current hordinary hreg hchained hbase hopen
      (List.mem_append_left _ ((ha.path owner).mpr ⟨htop, ho.isRoot_eq_false⟩)))
        fun d hin _ => ho.own_le hreg hwf hchained hbase hopen (hin.eligible ho.eligible)
          (hin.below hwf)
  rcases resolve_snd_cases hreg hgoal with h | h
  · have hw' : w' = { w with counters := w.counters.countRequest } := h
    rw [hw']
    exact ⟨hw.counted, hfree⟩
  · obtain ⟨v, hrun, hdone, -, hfree'⟩ := hw.counted.resolveDesignation_run ho ha
      hs (Or.inr htop) (hnothing.of_eq rfl) hfree
    have hw' : w' = v := h.trans (congrArg Prod.snd hrun)
    rw [hw']
    exact ⟨hdone, hfree'⟩

end Blueprint

-- =================================================================== requests

/-- A class that is asked for after something in it was asked for is left as
if it had been asked for alone: the request for it has the same result, and the
class and everything below it that goes through the phases hold the same. The
unit is one of named forms in which nothing is written that a phase fails for;
the supertypes are known, and the class was not passed before: it has no types
yet, or all of it is as far as the class itself. What stands between the class
and what was asked for first, the class included, are classes of which nothing
but annotations is left to be read. -/
theorem slots_eq_of_member_first {setup : Setup} (hhooks : setup.hooks = [])
    {w : World} (hw : Reaches setup anyCall w)
    (hnone : w.registry.pending = .empty) {spec : UnitSpec} {draft : Draft}
    {id : UnitId} {u : CompilationUnit} (hnamed : spec.Named)
    (hdraft : spec.draft = .ok draft) (hunit : u = draft.finish id)
    (hu : w.Registered u) {m c : DeclId} {goal goal' : Designation} {p : Phase}
    (hm : u.designate m = .ok goal) (hc : u.designate c = .ok goal')
    (hself : goal'.target = c) (hbelow : c ∈ goal.path)
    (hordinary : goal.Ordinary)
    (hpassed : ∀ a ∈ goal.path, c = a ∨ c ∈ u.ancestors a →
      u.Passable a (w.slots u a))
    (himports : .imports ≤ w.own u .root) (hwhole : .supertypes ≤ w.below u c)
    (hlevel : w.own u c < .types ∨ w.own u c ≤ w.below u c)
    (hbare : u.BareParameters)
    (hcontracts : ∀ d x, u.decl? d = some x → x.kind.isCallable = false →
      x.contract = [])
    (hplain : p = .bodies → ∀ d, c ∈ u.ancestors d → u.isLocal d = true →
      u.isClassLike d = false) (hp : .supertypes < p) :
    let first := (Action.resolve setup (u.symbol m) p false w).2
    let second := Action.resolve setup (u.symbol c) p false first
    let alone := Action.resolve setup (u.symbol c) p false w
    second.1 = alone.1 ∧ ∀ d, u.isEligible d = true →
      c = d ∨ c ∈ u.ancestors d →
        second.2.slots u d = alone.2.slots u d := by
  have hquiet : setup.Quiet := Setup.quiet_of_hooks hhooks
  have hregular : u.Regular := by
    rw [hunit]
    exact hnamed.regular hdraft id
  have hmatches : ∀ {e g}, u.designate e = .ok g → g.isFile = false →
      g.Matches u := by
    intro e g he hfile
    rw [hunit] at he ⊢
    exact UnitSpec.OfForms.designation_matches hnamed.form hdraft id he hfile
  obtain ⟨b, rfl, hdefaults, hinference, hbase, hstart, hgoverns⟩ :=
    hw.exists_governs hquiet hnone hu (max (w.below u c) .sealedInheritors)
  have hwf := hgoverns.wellFormed
  have hpath := fun a => CompilationUnit.mem_path_iff hm (a := a)
  have hpath' := fun a => CompilationUnit.mem_path_iff hc (a := a)
  have hgoal := CompilationUnit.unit_of_designateWith hm
  have hgoal' := CompilationUnit.unit_of_designateWith hc
  have hroot : c.isRoot = false := ((hpath c).mp hbelow).2
  have hfile : goal.isFile = false := Bool.eq_false_iff.mpr fun h =>
    not_mem_ancestors_root hwf h c ((hpath c).mp hbelow).1
  have hfile' : goal'.isFile = false := by
    rw [Designation.isFile, hself]
    exact hroot
  have hordinary' : goal'.Ordinary := by
    rw [← hgoal] at hpath hwf
    refine hordinary.of_mem_path hwf (hgoal'.trans hgoal.symm) hpath ?_ ?_
    · rw [hgoal]
      exact hpath'
    · exact hself.symm ▸ hbelow
  have hchained := hw.chained hquiet
  have hreg := hgoverns.registered
  -- the class is one that can be passed, and both requests are about it
  have ho : b.Owner c p :=
    .of_passable (hstart ▸ hpassed c hbelow (Or.inl rfl))
      (hgoal ▸ hordinary.eligible c (Designation.Ordinary.path_mem hbelow)) hroot
      hregular hbare hcontracts hplain
  have ha : b.Concerns c p goal := .of_ordinary hgoal (hmatches hm hfile)
    hordinary hpath (Or.inr ((hpath c).mp hbelow).1) fun a hmem hup =>
      hstart ▸ hpassed a hmem hup
  have ha' : b.Concerns c p goal' :=
    .of_target hgoal' (hmatches hc hfile') hordinary' hpath' hself
  have hs : b.Serves setup := ⟨hinference.symm, hhooks, hdefaults.symm⟩
  -- what the blueprint tells holds, and up to its base there is nothing to do
  have hlow : .sealedInheritors ≤ b.base :=
    hbase ▸ Phase.le_max_iff.mpr (Or.inr (Phase.le_refl _))
  have hopen : w.own b.unit c ≤ b.base := by
    rw [hbase, Phase.le_max_iff]
    refine hlevel.symm.imp_right fun hlt => ?_
    revert hlt
    cases w.own b.unit c <;> decide
  have hfits : b.Fits c p w := .start ho hgoverns (hw.deep hquiet) hchained
    hstart himports hwhole (Phase.le_max_iff.mp (hbase ▸ Phase.le_refl _)) hlow
    hopen
  have hmembers : b.unit.hasMembers c = true := by
    rw [← hgoal] at hregular hwf hm hpath ⊢
    exact hregular.hasMembers_of_path hwf hm (fun a hmem => hordinary.eligible a
      (Designation.Ordinary.mem_chain hpath hmem)) hbelow
  intro first second alone
  by_cases hblocked : w.thread.Blocked (.ofUnit b.unit.id)
  · obtain ⟨hanswer, hstates⟩ := resolve_after_of_blocked setup p m c hreg hblocked
    refine ⟨hanswer, fun d _ _ => ?_⟩
    rw [World.slots, World.state, hstates, World.slots, World.state]
  · -- both requests for the class bring it to the phase
    obtain ⟨hfits', hfree⟩ := hfits.resolve_member ho ha hs hm
      ((hpath c).mp hbelow).1 hordinary hchained hlow hopen hblocked
    obtain ⟨w₂, hsecond, hfits₂, hdone₂⟩ := hfits'.resolve_run ho ha' hs hc hself
      hordinary' hmembers hp hfree
    obtain ⟨w₁, halone, hfits₁, hdone₁⟩ := hfits.resolve_run ho ha' hs hc hself
      hordinary' hmembers hp hblocked
    have hsecond : second = (.ok (), w₂) := hsecond
    have halone : alone = (.ok (), w₁) := halone
    rw [hsecond, halone]
    exact ⟨rfl, fun d he hd => hfits₂.slots_eq hfits₁ ho hself hdone₂ hdone₁ he hd⟩

/-- The first function of the inner class, and then the outer class. -/
theorem slots_eq_of_member_first_genericClass :
    let setup : Setup := .plain .default
    let w := World.after setup [.addUnit .genericClass,
      .resolve false ⟨⟨0⟩, ⟨1⟩⟩ .supertypes false]
    let first := (Action.resolve setup ⟨⟨0⟩, ⟨4⟩⟩ .implicitTypes false w).2
    let second := Action.resolve setup ⟨⟨0⟩, ⟨1⟩⟩ .implicitTypes false first
    let alone := Action.resolve setup ⟨⟨0⟩, ⟨1⟩⟩ .implicitTypes false w
    ∃ u ∈ w.registry.unit? ⟨0⟩, .implicitTypes ≤ first.own u ⟨1⟩ ∧
      first.own u ⟨6⟩ = .supertypes ∧ second.1 = alone.1 ∧
      ∀ d, u.isEligible d = true → ⟨1⟩ = d ∨ ⟨1⟩ ∈ u.ancestors d →
        second.2.slots u d = alone.2.slots u d := by
  intro setup w first second alone
  have hw : Reaches setup anyCall w := Reaches.after _ _
  have hnamed : UnitSpec.genericClass.Named := UnitSpec.named_ofEntries <| by
    intro e he
    simp only [List.mem_cons, List.not_mem_nil, or_false] at he
    rcases he with rfl | rfl | rfl | rfl | rfl | rfl
    · exact ⟨⟨.classDecl, rfl, rfl⟩, rfl⟩
    · exact ⟨⟨.typeParameter, rfl, rfl⟩, rfl⟩
    · exact ⟨⟨.classDecl, rfl, rfl⟩, rfl⟩
    · exact ⟨⟨.function, rfl, rfl⟩, rfl⟩
    · exact ⟨⟨.localVariable, rfl, rfl⟩, rfl⟩
    · exact ⟨⟨.function, rfl, rfl⟩, rfl⟩
  let draft := UnitSpec.genericClass.draft.toOption.getD default
  let u := draft.finish ⟨0⟩
  have hdraft : UnitSpec.genericClass.draft = .ok draft := by decide +kernel
  have hu : w.registry.unit? ⟨0⟩ = some u := by decide +kernel
  have hnone : w.registry.pending = .empty := by decide +kernel
  have hm : u.designate ⟨4⟩ = .ok ⟨u, [⟨1⟩, ⟨3⟩], ⟨4⟩, false⟩ := by
    decide +kernel
  have hc : u.designate ⟨1⟩ = .ok ⟨u, [], ⟨1⟩, false⟩ := by decide +kernel
  have hchain : ∀ a ∈ [⟨0⟩, ⟨1⟩, ⟨3⟩, ⟨4⟩],
      u.isEligible a = true ∧ u.isLocal a = false := by decide +kernel
  have hclasses : ∀ a ∈ [⟨1⟩, ⟨3⟩], u.kind? a = some .classDecl ∧
      u.isLocal a = false ∧ (∀ x ∈ u.decl? a, x.hasCode = false) ∧
      ((w.slots u a).returnType.isSettled = true ∧
        (w.slots u a).receiver.all Slot.isSettled = true ∧
        (w.slots u a).bounds.all Slot.isSettled = true) ∧
      ∀ m ∈ u.parameters a, u.isLocal m = false := by decide +kernel
  have hmarkers : .imports ≤ w.own u .root ∧ .supertypes ≤ w.below u ⟨1⟩ ∧
      w.own u ⟨1⟩ < .types := by decide +kernel
  have hdecls : ∀ x ∈ u.decls, (x.kind = .typeParameter → x.children = []) ∧
      x.contract = [] := by decide +kernel
  have hfirst : .implicitTypes ≤ first.own u ⟨1⟩ ∧
      first.own u ⟨6⟩ = .supertypes := by decide +kernel
  clear_value w
  have hagree := slots_eq_of_member_first (m := ⟨4⟩) (c := ⟨1⟩) rfl hw hnone
    hnamed hdraft rfl hu hm hc rfl (by decide)
    ⟨fun a ha => (hchain a ha).1, fun a ha => (hchain a ha).2, fun a ha hk => by
      cases (hclasses a ha).1.symm.trans hk⟩
    (fun a ha _ => by
      obtain ⟨hk, hl, hcode, ⟨hr, hv, hb⟩, hparameters⟩ := hclasses a ha
      exact ⟨hk, hl, hcode, ⟨hr, hv, hb⟩, hparameters⟩)
    hmarkers.1 hmarkers.2.1 (Or.inl hmarkers.2.2)
    (.of_decls fun x hx => (hdecls x hx).1)
    (fun d x hx _ => (hdecls x (List.mem_of_getElem? hx)).2)
    (p := .implicitTypes) nofun (by decide)
  exact ⟨u, hu, hfirst.1, hfirst.2, hagree⟩

/-- A class whose constructor declares a property of the type of the class. -/
def UnitSpec.recursiveProperty : UnitSpec :=
  .ofEntries "a.kt" [.member 0 (.classNamed "C" []),
    .member 1 (.ofForm .primaryConstructor ""),
    .member 2 { DeclSpec.ofForm .propertyParameter "id" with
      declaredType := some (.named "C") }]

/-- A constructor that was passed on the way to its parameter is marked, but has
no type: asked for alone the class gives its type to the constructor, asked for
afterwards it does not. The supertypes were known before. -/
theorem not_slots_eq_of_member_first :
    let setup : Setup := .plain .default
    let w := World.after setup [.addUnit .recursiveProperty,
      .resolve false ⟨⟨0⟩, ⟨1⟩⟩ .supertypes false]
    let first := (Action.resolve setup ⟨⟨0⟩, ⟨3⟩⟩ .types false w).2
    let second := Action.resolve setup ⟨⟨0⟩, ⟨1⟩⟩ .types false first
    let alone := Action.resolve setup ⟨⟨0⟩, ⟨1⟩⟩ .types false w
    ∃ u ∈ w.registry.unit? ⟨0⟩,
      u.designate ⟨3⟩ = .ok ⟨u, [⟨1⟩, ⟨2⟩], ⟨3⟩, false⟩ ∧
      .imports ≤ w.own u .root ∧ .supertypes ≤ w.below u ⟨1⟩ ∧
      w.own u ⟨1⟩ < .types ∧ second.1 = .ok () ∧ alone.1 = .ok () ∧
      u.isEligible ⟨2⟩ = true ∧ ⟨1⟩ ∈ u.ancestors ⟨2⟩ ∧
      (second.2.slots u ⟨2⟩).returnType = .implicit ∧
      (alone.2.slots u ⟨2⟩).returnType =
        .resolved (.classType ⟨⟨0⟩, ⟨1⟩⟩ [] false) := by
  decide +kernel

end StagedResolve
