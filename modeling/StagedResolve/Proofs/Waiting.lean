/-
Waiting: what taking and dropping locks leaves of a thread.

# Locks in order

A thread that takes a lock in order and drops it again holds what it held
before. It may have waited, and then another thread has let go of the
lock; but it waits for no lock that is below what it holds. So the locks
that it cannot get, because another thread has them and it may not wait
(`Thread.Blocked`), are the same all through a request, and it is about
those alone that results are put off.
-/
import StagedResolve.Locks

namespace StagedResolve

namespace Thread

variable {s t : Thread} {g : Guard} {l : LockId}

-- ========================================================= what was asked for

/-- A lock that was taken is the one that was asked for. -/
theorem lock_lock (t : Thread) (l : LockId) : (t.lock l).1.lock = l := by
  unfold Thread.lock
  split
  · rfl
  · rfl

/-- A lock that was got in order is the one that was asked for. -/
theorem lock_lockOrdered {t : Thread} {l : LockId} {g : Guard}
    (h : (t.lockOrdered l).1 = some g) : g.lock = l := by
  unfold Thread.lockOrdered at h
  split at h
  · cases h
    exact t.lock_lock l
  · unfold Thread.tryLock at h
    split at h
    · cases h
    · cases h
      rfl

/-- A lock that was got before a cancellation is the one that was asked
for. -/
theorem lock_lockCancellable {t : Thread} {l : LockId} {p : Phase}
    {g : Guard} (h : (t.lockCancellable l p).1 = .ok g) : g.lock = l := by
  unfold Thread.lockCancellable at h
  split at h
  · cases h
  · split at h
    · cases h
    · cases h
      exact t.lock_lock l

-- ============================================================ blocked locks

/-- The thread can neither take the lock nor wait for it. -/
structure Blocked (t : Thread) (l : LockId) : Prop where
  theirs : (t.mutex l).theirs = true
  notOurs : t.owns l = false
  notWaiting : t.mayWaitFor l.unit = false

/-- The thread holds the same locks, others hold no more, and what was
blocked is still held by others. -/
structure Alike (s t : Thread) : Prop where
  held : t.held = s.held
  ours : ∀ l, (t.mutex l).ours = (s.mutex l).ours
  theirs : ∀ l, (t.mutex l).theirs = true → (s.mutex l).theirs = true
  blocked : ∀ l, s.Blocked l → (t.mutex l).theirs = true

namespace Alike

/-- A thread is like itself. -/
theorem refl (t : Thread) : t.Alike t :=
  ⟨rfl, fun _ => rfl, fun _ h => h, fun _ h => h.theirs⟩

/-- What the thread owns and what it may wait for is the same. -/
theorem blocked_iff (h : s.Alike t) : s.Blocked l ↔ t.Blocked l := by
  have howns : t.owns l = s.owns l := by rw [owns, owns, h.ours]
  have hwait : t.mayWaitFor l.unit = s.mayWaitFor l.unit := by
    rw [mayWaitFor, mayWaitFor, highest?, highest?, h.held]
  constructor
  · exact fun hl => ⟨h.blocked l hl, howns.trans hl.notOurs,
      hwait.trans hl.notWaiting⟩
  · exact fun hl => ⟨h.theirs l hl.theirs, howns.symm.trans hl.notOurs,
      hwait.symm.trans hl.notWaiting⟩

/-- Likeness is transitive. -/
theorem trans {u : Thread} (h : s.Alike t) (h' : t.Alike u) : s.Alike u :=
  ⟨h'.held.trans h.held, fun l => (h'.ours l).trans (h.ours l),
    fun l hl => h.theirs l (h'.theirs l hl),
    fun l hl => h'.blocked l (h.blocked_iff.mp hl)⟩

/-- Only locks count. -/
theorem of_eq (hm : t.mutexes = s.mutexes) (hh : t.held = s.held) :
    s.Alike t := by
  have hmutex : ∀ l, t.mutex l = s.mutex l := fun l => by
    rw [mutex, mutex, hm]
  exact ⟨hh, fun l => by rw [hmutex], fun l h => by rwa [hmutex] at h,
    fun l h => by rw [hmutex]; exact h.theirs⟩

end Alike

-- ==================================================== taking and dropping

/-- The mutexes after one of them was changed. -/
theorem mutex_insert (t : Thread) (l l' : LockId) (m : Mutex)
    (t' : Thread) (h : t'.mutexes = t.mutexes.insert l m) :
    t'.mutex l' = if l = l' then m else t.mutex l' := by
  rw [mutex, h, Table.find?_insert]
  split
  · rfl
  · rfl

/-- Holding more leaves less to wait for. -/
theorem mayWaitFor_cons {u v : UnitId} (hheld : t.held = v :: s.held)
    (h : s.mayWaitFor u = false) : t.mayWaitFor u = false := by
  unfold mayWaitFor highest? at h ⊢
  rw [hheld, UnitId.greatest?]
  cases hs : UnitId.greatest? s.held with
  | none =>
      rw [hs] at h
      cases h
  | some x =>
      rw [hs] at h
      have h : ¬ x < u := of_decide_eq_false h
      refine decide_eq_false fun hlt => h ?_
      have hle : x ≤ max v x := by
        show x ≤ if v ≤ x then x else v
        split
        · exact Nat.le_refl _
        · next hvx => exact Nat.le_of_lt (Nat.lt_of_not_le hvx)
      exact Nat.lt_of_le_of_lt hle hlt

/-- Taking a lock, after waiting for it where that is allowed, and dropping
it again. -/
private theorem release_acquire {r : Thread} (hheld : r.held = s.held)
    (hours : ∀ l', (r.mutex l').ours = (s.mutex l').ours)
    (htheirs : ∀ l', (r.mutex l').theirs = true → (s.mutex l').theirs = true)
    (hother : ∀ l', l' ≠ l → (r.mutex l').theirs = (s.mutex l').theirs)
    (hl : ¬ s.Blocked l) (h : (r.acquire l).2.Alike t) :
    s.Alike (t.release (r.acquire l).1) := by
  -- the mutexes while the lock is held, and when it is dropped
  have hacquired : ∀ l', (r.acquire l).2.mutex l' =
      if l = l' then { r.mutex l with ours := (r.mutex l).ours + 1 }
      else r.mutex l' := fun l' => mutex_insert r l l' _ _ rfl
  have hreleased : ∀ l', (t.release (r.acquire l).1).mutex l' =
      if l = l' then { t.mutex l with ours := (t.mutex l).ours - 1 }
      else t.mutex l' := fun l' => mutex_insert t l l' _ _ rfl
  constructor
  case held =>
    show (if r.owns l then t.held else t.held.erase l.unit) = s.held
    rw [h.held]
    show (if r.owns l then (if r.owns l then r.held else l.unit :: r.held)
      else (if r.owns l then r.held else l.unit :: r.held).erase l.unit) = _
    split
    · exact hheld
    · rw [List.erase_cons_head]
      exact hheld
  case ours =>
    intro l'
    have hours' := h.ours l'
    rw [hacquired] at hours'
    rw [hreleased]
    split
    · next heq =>
      subst heq
      rw [if_pos rfl] at hours'
      rw [← hours l]
      simp only [hours', Nat.add_sub_cancel]
    · next hne =>
      rw [if_neg hne] at hours'
      rw [hours', hours]
  case theirs =>
    intro l' hl'
    refine htheirs l' ?_
    have ht : (t.mutex l').theirs = true := by
      rw [hreleased] at hl'
      split at hl'
      · next heq =>
        subst heq
        exact hl'
      · exact hl'
    have hr := h.theirs l' ht
    rw [hacquired] at hr
    split at hr
    · next heq =>
      subst heq
      exact hr
    · exact hr
  case blocked =>
    intro l' hl'
    have hne : l ≠ l' := by
      rintro rfl
      exact hl hl'
    rw [hreleased, if_neg hne]
    refine h.blocked l' ⟨?_, ?_, ?_⟩
    · rw [hacquired, if_neg hne, hother l' (Ne.symm hne)]
      exact hl'.theirs
    · rw [owns, hacquired, if_neg hne, hours, ← owns]
      exact hl'.notOurs
    · by_cases howns : r.owns l = true
      · have hsame : (r.acquire l).2.held = s.held := by
          show (if r.owns l then r.held else l.unit :: r.held) = _
          rw [if_pos howns, hheld]
        rw [mayWaitFor, highest?, hsame]
        exact hl'.notWaiting
      · refine mayWaitFor_cons (v := l.unit) ?_ hl'.notWaiting
        show (if r.owns l then r.held else l.unit :: r.held) = _
        rw [if_neg howns, hheld]

/-- A lock that was got in order and dropped again leaves a thread as it
was. -/
theorem Alike.release (hg : (s.lockOrdered l).1 = some g)
    (h : (s.lockOrdered l).2.Alike t) : s.Alike (t.release g) := by
  have hfree : ∀ {g' : Guard}, some (s.acquire l).1 = some g' →
      ¬ s.Blocked l → (s.acquire l).2.Alike t → s.Alike (t.release g') := by
    rintro g' hg' hl h
    cases hg'
    exact release_acquire rfl (fun _ => rfl) (fun _ h => h) (fun _ _ => rfl)
      hl h
  unfold lockOrdered at hg h
  split at hg
  · next hmay =>
    have hl : ¬ s.Blocked l := by
      intro hl
      rw [hl.notOurs, hl.notWaiting] at hmay
      cases hmay
    rw [if_pos hmay] at h
    unfold lock at hg h
    by_cases htheirs : (s.mutex l).theirs = true
    · rw [if_pos htheirs] at hg h
      cases hg
      have hmutex : ∀ l', (s.wait l).mutex l' =
          if l = l' then { s.mutex l with theirs := false } else s.mutex l' :=
        fun l' => mutex_insert s l l' _ _ rfl
      refine release_acquire (s := s) rfl (fun l' => ?_) (fun l' => ?_)
        (fun l' hne => ?_) hl h
      · rw [hmutex]
        split
        · next heq => rw [← heq]
        · rfl
      · rw [hmutex]
        split
        · exact fun h => Bool.noConfusion h
        · exact id
      · rw [hmutex, if_neg (Ne.symm hne)]
    · rw [if_neg htheirs] at hg h
      exact hfree hg hl h
  · next hmay =>
    rw [if_neg hmay] at h
    unfold tryLock at hg h
    by_cases htheirs : (s.mutex l).theirs = true
    · rw [if_pos htheirs] at hg
      cases hg
    · rw [if_neg htheirs] at hg h
      exact hfree hg (fun hl => htheirs hl.theirs) h

/-- A lock that was not got in order is blocked, and nothing has
changed. -/
theorem blocked_of_lockOrdered (h : (t.lockOrdered l).1 = none) :
    t.Blocked l ∧ (t.lockOrdered l).2 = t := by
  unfold lockOrdered at h ⊢
  split at h
  · cases h
  · next hmay =>
    rw [if_neg hmay]
    unfold tryLock at h ⊢
    split at h
    · next htheirs =>
      rw [if_pos htheirs]
      have hmay : (t.owns l || t.mayWaitFor l.unit) = false := by
        simpa using hmay
      rw [Bool.or_eq_false_iff] at hmay
      exact ⟨⟨htheirs, hmay.1, hmay.2⟩, rfl⟩
    · cases h

/-- A lock that is blocked is not got in order. -/
theorem Blocked.lockOrdered (h : t.Blocked l) : (t.lockOrdered l).1 = none := by
  unfold Thread.lockOrdered Thread.tryLock
  rw [h.notOurs, h.notWaiting, if_neg (by decide), if_pos h.theirs]

/-- The thread can write to a unit: it is the one at hand, or its lock can
be got. -/
def Free (t : Thread) (own id : UnitId) : Prop :=
  id = own ∨ ¬ t.Blocked (.ofUnit id)

end Thread

end StagedResolve
