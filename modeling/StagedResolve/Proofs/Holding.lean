/-
Holding: what the list of held units says about the mutexes.

# Two ledgers of one thing

A thread knows twice what it holds. Each mutex counts how often it is
owned, and every guard in use counts once there. The list of held units
has a unit once for every guard in use that found the mutex free, and
says nothing of the others. Both are kept by every step of a script, in
whatever order guards are dropped and whatever other threads do meanwhile
(`Booked`).

# Where they agree

They say the same as long as each lock that has guards has one that found
it free (`Backed`). Taking a lock keeps that: the guard is either the
first one, or there is one already that vouches for it. Dropping the guard
that found the lock free does not, if others of the same lock are still in
use: the mutex stays owned and its unit is off the list. So the two agree
exactly where every guard is vouched for, and they do after all scripts
that drop such a guard last (`LockRun.nestsAll`), which is how locks are
used where each guard lives in a scope of its own.
-/
import Mathlib.Data.List.Count
import Mathlib.Data.List.Nodup
import StagedResolve.LockScript
import StagedResolve.Proofs.Waiting

namespace StagedResolve

-- ====================================================== the order of units

namespace UnitId

/-- The greater of two units is below another exactly if both are. -/
theorem max_lt_iff {u v x : UnitId} : max u v < x ↔ u < x ∧ v < x := by
  show (if u ≤ v then v else u) < x ↔ _
  simp only [le_def, lt_def]
  split
  · omega
  · omega

/-- There is a greatest unit unless there is none. -/
theorem greatest?_eq_none_iff {us : List UnitId} :
    greatest? us = none ↔ us = [] := by
  cases us with
  | nil => simp [greatest?]
  | cons u rest =>
      rw [greatest?]
      split
      · simp
      · simp

/-- The greatest unit is below another exactly if all are. -/
theorem greatest?_lt_iff {us : List UnitId} {g x : UnitId}
    (h : greatest? us = some g) : g < x ↔ ∀ u ∈ us, u < x := by
  induction us generalizing g with
  | nil => cases h
  | cons u rest ih =>
      rw [greatest?] at h
      rw [List.forall_mem_cons]
      split at h
      · next hrest =>
        cases h
        rw [greatest?_eq_none_iff.mp hrest]
        simp
      · next v hrest =>
        cases h
        rw [max_lt_iff, ih hrest]

/-- The greatest unit is one of them. -/
theorem mem_of_greatest? {us : List UnitId} {g : UnitId}
    (h : greatest? us = some g) : g ∈ us := by
  induction us generalizing g with
  | nil => cases h
  | cons u rest ih =>
      rw [greatest?] at h
      split at h
      · cases h
        exact List.mem_cons_self
      · next v hrest =>
        cases h
        show (if u ≤ v then v else u) ∈ u :: rest
        split
        · exact List.mem_cons_of_mem u (ih hrest)
        · exact List.mem_cons_self

/-- The greatest unit is the one of them that none is above. -/
theorem greatest?_eq_some_iff {us : List UnitId} {g : UnitId} :
    greatest? us = some g ↔ g ∈ us ∧ ∀ u ∈ us, u ≤ g := by
  have hle : ∀ {g' : UnitId}, greatest? us = some g' → ∀ u ∈ us, u ≤ g' := by
    intro g' h u hu
    have := (greatest?_lt_iff (x := ⟨g'.index + 1⟩) h).mp
      (Nat.lt_succ_self _) u hu
    exact Nat.lt_succ_iff.mp this
  constructor
  · exact fun h => ⟨mem_of_greatest? h, hle h⟩
  · rintro ⟨hg, hall⟩
    cases h : greatest? us with
    | none =>
        rw [greatest?_eq_none_iff.mp h] at hg
        cases hg
    | some g' =>
        have h₁ : g ≤ g' := hle h g hg
        have h₂ : g' ≤ g := hall g' (mem_of_greatest? h)
        obtain ⟨i⟩ := g
        obtain ⟨j⟩ := g'
        rw [le_def] at h₁ h₂
        exact congrArg (fun n => some (UnitId.mk n)) (Nat.le_antisymm h₂ h₁)

end UnitId

-- ============================================================== the thread

namespace Thread

variable {r s t : Thread} {l : LockId}

/-- A thread may wait for the units that are above all on its list. -/
theorem mayWaitFor_iff {u : UnitId} :
    t.mayWaitFor u = true ↔ ∀ h ∈ t.held, h < u := by
  unfold mayWaitFor highest?
  split
  · next hnone =>
    rw [UnitId.greatest?_eq_none_iff.mp hnone]
    simp
  · next g hsome =>
    rw [decide_eq_true_iff]
    exact UnitId.greatest?_lt_iff hsome

/-- A thread owns a mutex that it counts at least once. -/
theorem owns_iff : t.owns l = true ↔ 0 < (t.mutex l).ours :=
  decide_eq_true_iff

/-- The thread owns the same mutexes as often and has the same units on its
list; others may have come and gone. -/
structure SameHolds (s t : Thread) : Prop where
  ours : ∀ l, (t.mutex l).ours = (s.mutex l).ours
  held : t.held = s.held

namespace SameHolds

/-- Holding the same is transitive. -/
theorem trans (h : r.SameHolds s) (h' : s.SameHolds t) : r.SameHolds t :=
  ⟨fun l => (h'.ours l).trans (h.ours l), h'.held.trans h.held⟩

/-- The token and the waits do not count. -/
theorem of_mutexes (hm : t.mutexes = s.mutexes) (hheld : t.held = s.held) :
    s.SameHolds t := by
  refine ⟨fun l => ?_, hheld⟩
  rw [mutex, mutex, hm]

/-- One mutex was changed, but not in how often the thread owns it. -/
theorem of_insert {m : Mutex} (hm : t.mutexes = s.mutexes.insert l m)
    (hours : m.ours = (s.mutex l).ours) (hheld : t.held = s.held) :
    s.SameHolds t := by
  refine ⟨fun l' => ?_, hheld⟩
  rw [mutex_insert s l l' m t hm]
  split
  · next heq =>
    rw [← heq]
    exact hours
  · rfl

end SameHolds

/-- The mutexes once one of them was taken. -/
theorem mutex_acquire (t : Thread) (l l' : LockId) :
    ((t.acquire l).2.mutex l').ours =
      if l = l' then (t.mutex l).ours + 1 else (t.mutex l').ours := by
  rw [mutex_insert t l l' _ (t.acquire l).2 rfl]
  split
  · rfl
  · rfl

/-- The mutexes once a guard was dropped. -/
theorem mutex_release (t : Thread) (g : Guard) (l' : LockId) :
    ((t.release g).mutex l').ours =
      if g.lock = l' then (t.mutex g.lock).ours - 1 else (t.mutex l').ours := by
  rw [mutex_insert t g.lock l' _ (t.release g) rfl]
  split
  · rfl
  · rfl

/-- A mutex that is taken and dropped again is held as before. -/
theorem sameHolds_acquire_release (t : Thread) (l : LockId) :
    t.SameHolds ((t.acquire l).2.release (t.acquire l).1) := by
  constructor
  case ours =>
    intro l'
    rw [mutex_release, mutex_acquire, mutex_acquire]
    show (if l = l' then (if l = l then (t.mutex l).ours + 1
      else (t.mutex l).ours) - 1 else if l = l' then (t.mutex l).ours + 1
      else (t.mutex l').ours) = _
    split
    · next heq =>
      rw [if_pos rfl, ← heq]
      rfl
    · rfl
  case held =>
    show (if t.owns l then (if t.owns l then t.held else l.unit :: t.held)
      else (if t.owns l then t.held else l.unit :: t.held).erase l.unit) = _
    split
    · rfl
    · rw [List.erase_cons_head]

/-- A lock is taken by one who holds what the thread held. -/
theorem lock_eq (t : Thread) (l : LockId) :
    ∃ r, t.SameHolds r ∧ t.lock l = r.acquire l := by
  unfold lock
  split
  · exact ⟨t.wait l, .of_insert rfl rfl rfl, rfl⟩
  · exact ⟨t, .of_mutexes rfl rfl, rfl⟩

/-- A lock that is tried is taken, or all is as before. -/
theorem tryLock_eq (t : Thread) (l : LockId) :
    (∃ r, t.SameHolds r ∧ t.tryLock l = (some (r.acquire l).1, (r.acquire l).2))
      ∨ t.tryLock l = (none, t) := by
  unfold tryLock
  split
  · exact .inr rfl
  · exact .inl ⟨t, .of_mutexes rfl rfl, rfl⟩

/-- A lock that is asked for in order is taken, or all is as before. -/
theorem lockOrdered_eq (t : Thread) (l : LockId) :
    (∃ r, t.SameHolds r ∧
        t.lockOrdered l = (some (r.acquire l).1, (r.acquire l).2))
      ∨ t.lockOrdered l = (none, t) := by
  unfold lockOrdered
  split
  · obtain ⟨r, hr, heq⟩ := t.lock_eq l
    exact .inl ⟨r, hr, by rw [heq]⟩
  · exact t.tryLock_eq l

/-- A lock that is asked for under a token is taken, or the thread holds
what it held. -/
theorem lockCancellable_eq (t : Thread) (l : LockId) (p : Phase) :
    (∃ r, t.SameHolds r ∧
        t.lockCancellable l p = (.ok (r.acquire l).1, (r.acquire l).2))
      ∨ ∃ e s, t.SameHolds s ∧ t.lockCancellable l p = (.error e, s) := by
  unfold lockCancellable
  split
  · exact .inr ⟨_, t, .of_mutexes rfl rfl, rfl⟩
  · split
    · refine .inr ⟨_, _, ?_, rfl⟩
      exact .of_mutexes rfl rfl
    · obtain ⟨r, hr, heq⟩ := t.lock_eq l
      exact .inl ⟨r, hr, by rw [heq]⟩

end Thread

-- ============================================================== the ledgers

/-- The number of guards in use that pass a test. -/
def inUse (guards : List (Option Guard)) (p : Guard → Bool) : Nat :=
  guards.countP fun o => o.any p

section Ledgers

variable {guards : List (Option Guard)} {s t : Thread} {p : Guard → Bool}

/-- One more guard. -/
theorem inUse_append (guards : List (Option Guard)) (g : Guard)
    (p : Guard → Bool) : inUse (guards ++ [some g]) p =
      inUse guards p + if p g then 1 else 0 := by
  unfold inUse
  rw [List.countP_append, List.countP_singleton]
  rfl

/-- One guard less. -/
theorem inUse_set {n : Nat} {g : Guard} (h : guards[n]? = some (some g))
    (p : Guard → Bool) :
    inUse (guards.set n none) p = inUse guards p - if p g then 1 else 0 := by
  obtain ⟨hn, hg⟩ := List.getElem?_eq_some_iff.mp h
  unfold inUse
  rw [List.countP_set hn, hg]
  rfl

/-- Something is in use if anything is. -/
theorem inUse_pos : 0 < inUse guards p ↔ ∃ g, some g ∈ guards ∧ p g = true := by
  unfold inUse
  rw [List.countP_pos_iff]
  constructor
  · rintro ⟨o, ho, hp⟩
    cases o with
    | none => cases hp
    | some g => exact ⟨g, ho, hp⟩
  · rintro ⟨g, hg, hp⟩
    exact ⟨some g, hg, hp⟩

/-- Both ledgers of a thread tell of the guards in use: a mutex of all that
are for it, the list of those that found it free. -/
structure Booked (guards : List (Option Guard)) (t : Thread) : Prop where
  owned : ∀ l, (t.mutex l).ours = inUse guards fun g => g.lock == l
  listed : ∀ u, t.held.count u =
    inUse guards fun g => g.unit == u && !g.reentrant

/-- Each lock that has a guard in use has one that found it free. -/
def Backed (guards : List (Option Guard)) : Prop :=
  ∀ g, some g ∈ guards → ∃ o, some o ∈ guards ∧ o.lock = g.lock ∧
    o.reentrant = false

namespace Booked

/-- The ledgers tell the same of a thread that holds the same. -/
theorem of_same (h : Booked guards s) (ht : s.SameHolds t) :
    Booked guards t :=
  ⟨fun l => (ht.ours l).trans (h.owned l), fun u => ht.held ▸ h.listed u⟩

/-- A lock is owned if a guard for it is in use. -/
theorem owns_iff (h : Booked guards t) {l : LockId} :
    t.owns l = true ↔ ∃ g, some g ∈ guards ∧ g.lock = l := by
  rw [Thread.owns_iff, h.owned, inUse_pos]
  simp

/-- A unit is on the list if a guard that found its lock free is in use. -/
theorem mem_held_iff (h : Booked guards t) {u : UnitId} :
    u ∈ t.held ↔ ∃ g, some g ∈ guards ∧ g.unit = u ∧ g.reentrant = false := by
  rw [← List.count_pos_iff, h.listed, inUse_pos]
  simp

/-- A mutex is taken. -/
theorem acquire (h : Booked guards t) (l : LockId) :
    Booked (guards ++ [some (t.acquire l).1]) (t.acquire l).2 := by
  constructor
  case owned =>
    intro l'
    rw [Thread.mutex_acquire, inUse_append, ← h.owned l']
    show _ = (t.mutex l').ours + if (l == l') = true then 1 else 0
    by_cases heq : l = l'
    · subst heq
      simp
    · simp [heq]
  case listed =>
    intro u
    rw [inUse_append, ← h.listed u]
    show List.count u (if t.owns l then t.held else l.unit :: t.held) =
      t.held.count u + if (l.unit == u && !t.owns l) = true then 1 else 0
    cases t.owns l with
    | true => simp
    | false => simp [List.count_cons]

/-- A guard is dropped. -/
theorem release (h : Booked guards t) {n : Nat} {g : Guard}
    (hg : guards[n]? = some (some g)) :
    Booked (guards.set n none) (t.release g) := by
  constructor
  case owned =>
    intro l'
    rw [Thread.mutex_release, inUse_set hg, ← h.owned l']
    by_cases heq : g.lock = l'
    · subst heq
      simp
    · simp [heq]
  case listed =>
    intro u
    rw [inUse_set hg, ← h.listed u]
    show List.count u (if g.reentrant then t.held else t.held.erase g.unit) = _
    cases g.reentrant with
    | true => simp
    | false => simp [List.count_erase]

end Booked

namespace Backed

/-- A guard that was made found the lock free, or the one that did is
still in use. -/
theorem acquire (h : Backed guards) (hb : Booked guards t) (l : LockId) :
    Backed (guards ++ [some (t.acquire l).1]) := by
  have hnew : some (t.acquire l).1 ∈ guards ++ [some (t.acquire l).1] :=
    List.mem_append_right _ (List.mem_singleton.mpr rfl)
  intro g hg
  rcases List.mem_append.mp hg with hg | hg
  · obtain ⟨o, ho, hrest⟩ := h g hg
    exact ⟨o, List.mem_append_left _ ho, hrest⟩
  · cases List.mem_singleton.mp hg
    cases howns : t.owns l with
    | false => exact ⟨_, hnew, rfl, howns⟩
    | true =>
        obtain ⟨g, hg, hl⟩ := hb.owns_iff.mp howns
        obtain ⟨o, ho, hlock, hr⟩ := h g hg
        exact ⟨o, List.mem_append_left _ ho, hlock.trans hl, hr⟩

/-- The guard that was dropped did not find the lock free, or it was the
last one of its lock. -/
theorem release (h : Backed guards) {n : Nat} {g : Guard}
    (hg : guards[n]? = some (some g))
    (hlast : g.reentrant = true ∨
      ∀ g', some g' ∈ guards.set n none → g'.lock ≠ g.lock) :
    Backed (guards.set n none) := by
  intro g' hg'
  have hmem : some g' ∈ guards := by
    rcases List.mem_or_eq_of_mem_set hg' with hmem | heq
    · exact hmem
    · cases heq
  obtain ⟨o, ho, hlock, hr⟩ := h g' hmem
  refine ⟨o, ?_, hlock, hr⟩
  -- the guard that vouches for it stands at another place
  obtain ⟨m, hm⟩ := List.mem_iff_getElem?.mp ho
  have hne : n ≠ m := by
    rintro rfl
    cases hg.symm.trans hm
    rcases hlast with hre | hlast
    · cases hr.symm.trans hre
    · exact hlast g' hg' hlock.symm
  exact List.mem_iff_getElem?.mpr ⟨m, by rwa [List.getElem?_set_ne hne]⟩

end Backed

end Ledgers

-- ============================================================== the scripts

namespace LockRun

variable {r : LockRun}

/-- What a step does to guards: nothing, a lock is taken and its guard kept,
or a guard is dropped. Others may take and drop locks meanwhile. -/
inductive Effect (r : LockRun) : LockStep → LockRun → Prop where
  | still {s : LockStep} {t : Thread} :
      r.thread.SameHolds t → Effect r s { r with thread := t }
  | takes {s : LockStep} {l : LockId} {t t' : Thread} :
      l ∈ r.family → r.thread.SameHolds t → (t.acquire l).2.SameHolds t' →
      Effect r s
        { r with thread := t', guards := r.guards ++ [some (t.acquire l).1] }
  | drops {n : Nat} {g : Guard} : r.guards[n]? = some (some g) →
      Effect r (.drop n)
        { r with thread := r.thread.release g, guards := r.guards.set n none }

/-- A step on a lock is one on a lock of the family. -/
theorem onLock_effect {s : LockStep} (n : Nat)
    (f : LockId → Except Failure LockAnswer × LockRun)
    (h : ∀ l ∈ r.family, r.Effect s (f l).2) :
    r.Effect s (r.onLock n f).2 := by
  unfold onLock
  split
  · next l hl => exact h l (List.mem_of_getElem? hl)
  · exact .still (.of_mutexes rfl rfl)

/-- Each step has one of the effects. -/
theorem step_effect (r : LockRun) (s : LockStep) : r.Effect s (r.step s).2 := by
  cases s with
  | lock n =>
      refine onLock_effect n _ fun l hl => ?_
      obtain ⟨t, ht, heq⟩ := r.thread.lock_eq l
      simp only [heq]
      exact .takes hl ht (.of_mutexes rfl rfl)
  | tryLock n =>
      refine onLock_effect n _ fun l hl => ?_
      rcases r.thread.tryLock_eq l with ⟨t, ht, heq⟩ | heq
      · simp only [heq]
        exact .takes hl ht (.of_mutexes rfl rfl)
      · simp only [heq]
        exact .still (.of_mutexes rfl rfl)
  | lockOrdered n =>
      refine onLock_effect n _ fun l hl => ?_
      rcases r.thread.lockOrdered_eq l with ⟨t, ht, heq⟩ | heq
      · simp only [heq]
        exact .takes hl ht (.of_mutexes rfl rfl)
      · simp only [heq]
        exact .still (.of_mutexes rfl rfl)
  | lockCancellable n =>
      refine onLock_effect n _ fun l hl => ?_
      rcases r.thread.lockCancellable_eq l .status with
        ⟨t, ht, heq⟩ | ⟨e, t, ht, heq⟩
      · rw [heq]
        exact .takes hl ht (.of_mutexes rfl rfl)
      · rw [heq]
        exact .still ht
  | lockWhileCancelled n =>
      refine onLock_effect n _ fun l hl => ?_
      have hannounce : r.thread.SameHolds
          { r.thread with token := r.thread.token.announce } :=
        .of_mutexes rfl rfl
      rcases Thread.lockCancellable_eq
        { r.thread with token := r.thread.token.announce } l .types with
        ⟨t, ht, heq⟩ | ⟨e, t, ht, heq⟩
      · simp only [heq]
        exact .takes hl (hannounce.trans ht) (.of_mutexes rfl rfl)
      · simp only [heq]
        exact .still ((hannounce.trans ht).trans (.of_mutexes rfl rfl))
  | cancel => exact .still (.of_mutexes rfl rfl)
  | reset => exact .still (.of_mutexes rfl rfl)
  | drop n =>
      simp only [step, dropGuard]
      split
      · next g hg => exact .drops hg
      · exact .still (.of_mutexes rfl rfl)
  | runUnder n =>
      refine onLock_effect n _ fun l hl => ?_
      obtain ⟨t, ht, heq⟩ := r.thread.lock_eq l
      simp only [heq]
      exact .still (ht.trans (t.sameHolds_acquire_release l))
  | runAlreadyLocked n =>
      refine onLock_effect n _ fun l hl => ?_
      unfold Thread.lockAgain
      cases r.thread.owns l with
      | true =>
          obtain ⟨t, ht, heq⟩ := r.thread.lock_eq l
          simp only [heq, if_true]
          exact .still (ht.trans (t.sameHolds_acquire_release l))
      | false => exact .still (.of_mutexes rfl rfl)
  | otherTakes n =>
      exact onLock_effect n _ fun l hl => .still (.of_insert rfl rfl rfl)
  | otherReleases n =>
      exact onLock_effect n _ fun l hl => .still (.of_insert rfl rfl rfl)

/-- A step drops the guard that found a lock free only after all others of
the same lock. -/
def nests (r : LockRun) : LockStep → Bool
  | .drop n =>
    match r.guards[n]? with
    | some (some g) => g.reentrant ||
        (r.guards.set n none).all fun o => o.all fun g' => g'.lock != g.lock
    | _ => true
  | _ => true

/-- All steps of a script do. -/
def nestsAll (r : LockRun) : List LockStep → Bool
  | [] => true
  | s :: rest => r.nests s && (r.step s).2.nestsAll rest

/-- A run with both ledgers in order, over the locks it began with. -/
structure Orderly (locks : List LockId) (r : LockRun) : Prop where
  family : r.family = locks
  booked : Booked r.guards r.thread
  known : ∀ g, some g ∈ r.guards → g.lock ∈ locks

/-- A step keeps both ledgers in order. -/
theorem Orderly.step {locks : List LockId} (h : Orderly locks r)
    (s : LockStep) : Orderly locks (r.step s).2 := by
  have heffect := r.step_effect s
  revert heffect
  generalize (r.step s).2 = r'
  intro heffect
  cases heffect with
  | still ht => exact ⟨h.family, h.booked.of_same ht, h.known⟩
  | takes hl ht ht' =>
      refine ⟨h.family, ((h.booked.of_same ht).acquire _).of_same ht', ?_⟩
      intro g hg
      rcases List.mem_append.mp hg with hg | hg
      · exact h.known g hg
      · cases List.mem_singleton.mp hg
        exact h.family ▸ hl
  | drops hg =>
      refine ⟨h.family, h.booked.release hg, fun g' hg' => ?_⟩
      rcases List.mem_or_eq_of_mem_set hg' with hmem | heq
      · exact h.known g' hmem
      · cases heq

/-- A step that drops guards in order leaves every guard vouched for. -/
theorem Orderly.backed {locks : List LockId} (h : Orderly locks r)
    (hb : Backed r.guards) {s : LockStep} (hs : r.nests s = true) :
    Backed (r.step s).2.guards := by
  have heffect := r.step_effect s
  revert heffect
  generalize (r.step s).2 = r'
  intro heffect
  cases heffect with
  | still ht => exact hb
  | takes hl ht ht' => exact hb.acquire (h.booked.of_same ht) _
  | @drops n g hg =>
      refine hb.release hg ?_
      simp only [nests, hg, Bool.or_eq_true, List.all_eq_true] at hs
      refine hs.imp_right fun hall g' hg' heq => ?_
      have := hall (some g') hg'
      simp [heq] at this

/-- A run keeps both ledgers in order. -/
theorem Orderly.run {locks : List LockId} (h : Orderly locks r)
    (steps : List LockStep) : Orderly locks (r.run steps) := by
  induction steps generalizing r with
  | nil => exact h
  | cons s rest ih => exact ih (h.step s)

/-- A run that drops guards in order leaves every guard vouched for. -/
theorem Orderly.backed_run {locks : List LockId} (h : Orderly locks r)
    (hb : Backed r.guards) {steps : List LockStep}
    (hs : r.nestsAll steps = true) : Backed (r.run steps).guards := by
  induction steps generalizing r with
  | nil => exact hb
  | cons s rest ih =>
      rw [nestsAll, Bool.and_eq_true] at hs
      exact ih (h.step s) (h.backed hb hs.1) hs.2

/-- A script begins with nothing held and no guards. -/
theorem orderly_start (units : List UnitId) :
    Orderly (familyFrom 0 units) (start units) := by
  refine ⟨rfl, ⟨fun l => rfl, fun u => rfl⟩, fun g hg => ?_⟩
  cases hg

/-- The locks of a family are for its units, in order. -/
theorem map_unit_familyFrom (n : Nat) (units : List UnitId) :
    (familyFrom n units).map LockId.unit = units := by
  induction units generalizing n with
  | nil => rfl
  | cons u rest ih => rw [familyFrom, List.map_cons, ih]

/-- Locks of a family for different units are told apart by them. -/
theorem eq_of_unit {units : List UnitId} (hunits : units.Nodup) {n : Nat}
    {l l' : LockId} (hl : l ∈ familyFrom n units)
    (hl' : l' ∈ familyFrom n units) (heq : l.unit = l'.unit) : l = l' := by
  have hnodup : ((familyFrom n units).map LockId.unit).Nodup := by
    rwa [map_unit_familyFrom]
  exact List.inj_on_of_nodup_map hnodup hl hl' heq

-- ============================================================ the agreement

/-- The list of held units is exact: it has the units whose mutexes the
thread owns, so the highest of it is the highest of those, and the thread
may wait for the units above them all. -/
structure Exact (r : LockRun) : Prop where
  held : ∀ l ∈ r.family, l.unit ∈ r.thread.held ↔ r.thread.owns l = true
  known : ∀ u ∈ r.thread.held, ∃ l ∈ r.family, l.unit = u
  highest : ∀ u, r.thread.highest? = some u ↔
    (∃ l ∈ r.family, l.unit = u ∧ r.thread.owns l = true) ∧
      ∀ l ∈ r.family, r.thread.owns l = true → l.unit ≤ u
  mayWait : ∀ u, r.thread.mayWaitFor u = true ↔
    ∀ l ∈ r.family, r.thread.owns l = true → l.unit < u

/-- It is, if both ledgers are in order and every guard is vouched for. -/
theorem Orderly.exact {units : List UnitId} (hunits : units.Nodup)
    (h : Orderly (familyFrom 0 units) r) (hb : Backed r.guards) :
    r.Exact := by
  have hknown : ∀ u ∈ r.thread.held, ∃ l ∈ r.family,
      l.unit = u ∧ r.thread.owns l = true := by
    intro u hu
    obtain ⟨g, hg, hunit, -⟩ := h.booked.mem_held_iff.mp hu
    exact ⟨g.lock, h.family ▸ h.known g hg, hunit,
      h.booked.owns_iff.mpr ⟨g, hg, rfl⟩⟩
  have hheld : ∀ l ∈ r.family,
      l.unit ∈ r.thread.held ↔ r.thread.owns l = true := by
    intro l hl
    constructor
    · intro hmem
      obtain ⟨l', hl', hunit, howns⟩ := hknown _ hmem
      rw [h.family] at hl hl'
      rwa [← eq_of_unit hunits hl' hl hunit]
    · intro howns
      obtain ⟨g, hg, hlock⟩ := h.booked.owns_iff.mp howns
      obtain ⟨o, ho, holock, hr⟩ := hb g hg
      refine h.booked.mem_held_iff.mpr ⟨o, ho, ?_, hr⟩
      rw [Guard.unit, holock, hlock]
  -- a statement about the units on the list is one about the locks owned
  have hall : ∀ p : UnitId → Prop, (∀ u ∈ r.thread.held, p u) ↔
      ∀ l ∈ r.family, r.thread.owns l = true → p l.unit := by
    intro p
    constructor
    · exact fun hp l hl howns => hp _ ((hheld l hl).mpr howns)
    · intro hp u hu
      obtain ⟨l, hl, rfl, howns⟩ := hknown u hu
      exact hp l hl howns
  constructor
  case held => exact hheld
  case known =>
    intro u hu
    obtain ⟨l, hl, hunit, -⟩ := hknown u hu
    exact ⟨l, hl, hunit⟩
  case highest =>
    intro u
    rw [Thread.highest?, UnitId.greatest?_eq_some_iff, hall (· ≤ u)]
    refine and_congr_left fun _ => ⟨hknown u, ?_⟩
    rintro ⟨l, hl, rfl, howns⟩
    exact (hheld l hl).mpr howns
  case mayWait => exact fun u => Thread.mayWaitFor_iff.trans (hall (· < u))

/-- If the list is exact, every guard is vouched for. -/
theorem Exact.backed {units : List UnitId} (hunits : units.Nodup)
    (h : Orderly (familyFrom 0 units) r) (he : r.Exact) :
    Backed r.guards := by
  intro g hg
  have hl := h.known g hg
  have howns : r.thread.owns g.lock = true := h.booked.owns_iff.mpr ⟨g, hg, rfl⟩
  have hmem : g.lock.unit ∈ r.thread.held :=
    (he.held g.lock (h.family ▸ hl)).mpr howns
  obtain ⟨o, ho, hunit, hr⟩ := h.booked.mem_held_iff.mp hmem
  exact ⟨o, ho, eq_of_unit hunits (h.known o ho) hl hunit, hr⟩

/-- Over locks for different units, after every step of every script and
whatever other threads do, the list of held units is exact if and only if
each lock that has guards in use has one that found it free; and that is
so if the guard that found a lock free is dropped after all others of the
same lock. -/
theorem exact_iff_backed (units : List UnitId) (hunits : units.Nodup)
    (steps : List LockStep) :
    (((start units).run steps).Exact ↔
        Backed ((start units).run steps).guards) ∧
      ((start units).nestsAll steps = true →
        ((start units).run steps).Exact) := by
  have horderly := (orderly_start units).run steps
  have hbacked : Backed (start units).guards := fun g hg => by cases hg
  constructor
  · exact ⟨fun h => h.backed hunits horderly, horderly.exact hunits⟩
  · intro hsteps
    exact horderly.exact hunits
      ((orderly_start units).backed_run hbacked hsteps)

/-- Two locks taken out of order, one of them twice while another thread
asks for it; the other one is dropped in between. -/
theorem exact_iff_backed_crossed :
    ([⟨4⟩, ⟨2⟩] : List UnitId).Nodup ∧
      (start [⟨4⟩, ⟨2⟩]).nestsAll [.lock 1, .lockOrdered 0, .tryLock 1,
        .otherTakes 1, .drop 1, .drop 2] = true ∧
      ((start [⟨4⟩, ⟨2⟩]).run [.lock 1, .lockOrdered 0, .tryLock 1,
        .otherTakes 1, .drop 1, .drop 2]).Exact := by
  have hsteps : (start [⟨4⟩, ⟨2⟩]).nestsAll [.lock 1, .lockOrdered 0,
      .tryLock 1, .otherTakes 1, .drop 1, .drop 2] = true := by decide
  exact ⟨by decide, hsteps,
    (exact_iff_backed [⟨4⟩, ⟨2⟩] (by decide) _).2 hsteps⟩

/-- It is not exact after every script: a lock is taken twice and the first
guard is dropped first. -/
theorem not_exact_dropped_first :
    ¬ ∀ units : List UnitId, units.Nodup → ∀ steps : List LockStep,
      ((start units).run steps).Exact := by
  intro h
  have hexact := h [⟨4⟩] (by decide) [.lock 0, .lock 0, .drop 0]
  have hmem := (hexact.held ⟨⟨4⟩, 0⟩ (by decide)).mpr (by decide)
  exact absurd hmem (by decide)

end LockRun

end StagedResolve
