/-
Threads: what a request does not notice about locks and counters.

# The same thread

The mutexes of a thread are kept in a table, and taking and dropping
locks leaves traces in it that mean nothing. What counts is the state of
each mutex, what the thread holds, its token and its waits
(`Thread.Same`). Two worlds that differ in such traces, and in how many
requests were counted, cannot be told apart by a request
(`World.SameWork`).

Hooks are foreign code. They may change the token, but what they do
beside that must not depend on the thread or on the counters
(`Hook.Oblivious`).

# Taking a lock again

What is done under the lock of a unit leaves the thread as it was, so if
the lock is dropped and taken again it was free in between, and the
thread is the same as if it had kept the lock (`Thread.relock`).
-/
import StagedResolve.Proofs.Histories
import StagedResolve.Proofs.Parallel

namespace StagedResolve

open StagedResolve.Action

-- ============================================================== the thread

namespace Thread

variable {r s t : Thread} {l : LockId}

/-- The same thread, however its mutexes are written down. -/
structure Same (s t : Thread) : Prop where
  mutex : ∀ l, s.mutex l = t.mutex l
  held : s.held = t.held
  token : s.token = t.token
  waits : s.waits = t.waits

namespace Same

/-- A thread is the same as itself. -/
theorem refl (t : Thread) : t.Same t := ⟨fun _ => rfl, rfl, rfl, rfl⟩

/-- Being the same has no direction. -/
theorem symm (h : s.Same t) : t.Same s :=
  ⟨fun l => (h.mutex l).symm, h.held.symm, h.token.symm, h.waits.symm⟩

/-- Being the same is transitive. -/
theorem trans (h : r.Same s) (h' : s.Same t) : r.Same t :=
  ⟨fun l => (h.mutex l).trans (h'.mutex l), h.held.trans h'.held,
    h.token.trans h'.token, h.waits.trans h'.waits⟩

/-- The same mutex was changed in the same way. -/
theorem insert {s' t' : Thread} {l : LockId} {m m' : Mutex} (h : s.Same t)
    (hs : s'.mutexes = s.mutexes.insert l m)
    (ht : t'.mutexes = t.mutexes.insert l m') (hm : m = m')
    (hheld : s'.held = t'.held) (htoken : s'.token = t'.token)
    (hwaits : s'.waits = t'.waits) : s'.Same t' := by
  refine ⟨fun l' => ?_, hheld, htoken, hwaits⟩
  rw [mutex_insert s l l' m s' hs, mutex_insert t l l' m' t' ht, hm, h.mutex l']

/-- The thread owns the same mutexes. -/
theorem owns (h : s.Same t) (l : LockId) : s.owns l = t.owns l := by
  rw [Thread.owns, Thread.owns, h.mutex]

/-- The thread may wait for the same units. -/
theorem mayWaitFor (h : s.Same t) (u : UnitId) :
    s.mayWaitFor u = t.mayWaitFor u := by
  rw [Thread.mayWaitFor, Thread.mayWaitFor, highest?, highest?, h.held]

/-- The token is looked at, or changed by others. -/
theorem withToken (h : s.Same t) (f : Token → Token) :
    { s with token := f s.token }.Same { t with token := f t.token } :=
  ⟨h.mutex, h.held, congrArg f h.token, h.waits⟩

/-- Taking a mutex. -/
theorem acquire (h : s.Same t) (l : LockId) :
    (s.acquire l).1 = (t.acquire l).1 ∧
      (s.acquire l).2.Same (t.acquire l).2 := by
  have howns := h.owns l
  refine ⟨congrArg (Guard.mk l) howns, h.insert rfl rfl ?_ ?_ h.token h.waits⟩
  · rw [h.mutex]
  · show (if s.owns l then s.held else l.unit :: s.held) =
      if t.owns l then t.held else l.unit :: t.held
    rw [howns, h.held]

/-- Dropping a guard. -/
theorem release (h : s.Same t) (g : Guard) :
    (s.release g).Same (t.release g) := by
  refine h.insert rfl rfl ?_ ?_ h.token h.waits
  · rw [h.mutex]
  · show (if g.reentrant then s.held else s.held.erase g.unit) =
      if g.reentrant then t.held else t.held.erase g.unit
    rw [h.held]

/-- Waiting for a mutex. -/
theorem wait (h : s.Same t) (l : LockId) : (s.wait l).Same (t.wait l) := by
  refine h.insert rfl rfl ?_ h.held h.token ?_
  · rw [h.mutex]
  · show ⟨l.unit, s.held⟩ :: s.waits = (⟨l.unit, t.held⟩ : Wait) :: t.waits
    rw [h.held, h.waits]

/-- Taking a lock. -/
theorem lock (h : s.Same t) (l : LockId) :
    (s.lock l).1 = (t.lock l).1 ∧ (s.lock l).2.Same (t.lock l).2 := by
  unfold Thread.lock
  rw [h.mutex]
  split
  · exact (h.wait l).acquire l
  · exact h.acquire l

/-- Taking a lock in order. -/
theorem lockOrdered (h : s.Same t) (l : LockId) :
    (s.lockOrdered l).1 = (t.lockOrdered l).1 ∧
      (s.lockOrdered l).2.Same (t.lockOrdered l).2 := by
  unfold Thread.lockOrdered Thread.tryLock
  rw [h.owns, h.mayWaitFor, h.mutex]
  split
  · exact ⟨congrArg some (h.lock l).1, (h.lock l).2⟩
  · split
    · exact ⟨rfl, h⟩
    · exact ⟨congrArg some (h.acquire l).1, (h.acquire l).2⟩

/-- Taking a lock unless the token is cancelled first. -/
theorem lockCancellable (h : s.Same t) (l : LockId) (p : Phase) :
    (s.lockCancellable l p).1 = (t.lockCancellable l p).1 ∧
      (s.lockCancellable l p).2.Same (t.lockCancellable l p).2 := by
  unfold Thread.lockCancellable
  rw [h.token, h.mutex]
  split
  · exact ⟨rfl, h⟩
  · split
    · refine ⟨rfl, h.mutex, h.held, rfl, ?_⟩
      show ⟨l.unit, s.held⟩ :: s.waits = (⟨l.unit, t.held⟩ : Wait) :: t.waits
      rw [h.held, h.waits]
    · exact ⟨congrArg Except.ok (h.lock l).1, (h.lock l).2⟩

end Same

/-- Taking a lock takes the mutex, which nobody else has by then. -/
theorem lock_eq_acquire (t : Thread) (l : LockId) :
    ∃ r : Thread, t.lock l = r.acquire l ∧ (r.mutex l).theirs = false := by
  unfold lock
  split
  · refine ⟨t.wait l, rfl, ?_⟩
    rw [mutex_insert t l l _ (t.wait l) rfl, if_pos rfl]
  · next h => exact ⟨t, rfl, by simpa using h⟩

/-- A lock that is got in order is just taken. -/
theorem lockOrdered_eq_some {g : Guard} (h : (t.lockOrdered l).1 = some g) :
    t.lockOrdered l = (some (t.lock l).1, (t.lock l).2) := by
  unfold lockOrdered at h ⊢
  split at h
  · next hmay => rw [if_pos hmay]
  · next hmay =>
    rw [if_neg hmay]
    unfold tryLock at h ⊢
    split at h
    · cases h
    · next htheirs =>
      unfold lock
      rw [if_neg htheirs, if_neg htheirs]

/-- A lock that is got before a cancellation is just taken, in the name of
whichever phase. -/
theorem lockCancellable_eq_ok {p : Phase} {g : Guard}
    (h : (t.lockCancellable l p).1 = .ok g) (q : Phase) :
    t.lockCancellable l q = (.ok (t.lock l).1, (t.lock l).2) := by
  unfold lockCancellable Token.check at h ⊢
  cases hc : t.token.cancelled with
  | true =>
      rw [hc] at h
      cases h
  | false =>
      rw [hc] at h
      simp only [Bool.false_eq_true, if_false] at h ⊢
      split at h
      · cases h
      · next hpending => rw [if_neg hpending]

/-- A lock that is dropped and taken again might as well have been kept. -/
theorem relock (hfree : (r.mutex l).theirs = false)
    (h : (r.acquire l).2.Alike t) :
    ((t.release (r.acquire l).1).lock l).1 = (r.acquire l).1 ∧
      t.Same ((t.release (r.acquire l).1).lock l).2 := by
  have hacquired : (r.acquire l).2.mutex l =
      { r.mutex l with ours := (r.mutex l).ours + 1 } := by
    rw [mutex_insert r l l _ _ rfl, if_pos rfl]
  have hours : (t.mutex l).ours = (r.mutex l).ours + 1 := by
    rw [h.ours, hacquired]
  have htheirs : (t.mutex l).theirs = false := by
    cases ht : (t.mutex l).theirs with
    | false => rfl
    | true =>
        have := h.theirs l ht
        rw [hacquired] at this
        exact absurd (this.symm.trans hfree) Bool.noConfusion
  have hreleased : ∀ l', (t.release (r.acquire l).1).mutex l' =
      if l = l' then { t.mutex l with ours := (t.mutex l).ours - 1 }
      else t.mutex l' := fun l' => mutex_insert t l l' _ _ rfl
  have howns : (t.release (r.acquire l).1).owns l = r.owns l := by
    rw [owns, owns, hreleased, if_pos rfl, hours, Nat.add_sub_cancel]
  have hlock : (t.release (r.acquire l).1).lock l =
      (t.release (r.acquire l).1).acquire l := by
    unfold lock
    rw [hreleased, if_pos rfl, if_neg (by rw [htheirs]; exact Bool.false_ne_true)]
  rw [hlock]
  refine ⟨congrArg (Guard.mk l) howns, fun l' => ?_, ?_, rfl, rfl⟩
  · rw [mutex_insert (t.release (r.acquire l).1) l l' _
      ((t.release (r.acquire l).1).acquire l).2 rfl, hreleased, hreleased,
      if_pos rfl]
    split
    · next heq =>
      rw [← heq]
      simp only [hours, Nat.add_sub_cancel]
      rw [← hours]
    · rfl
  · show t.held = if (t.release (r.acquire l).1).owns l
      then (if r.owns l then t.held else t.held.erase l.unit)
      else l.unit :: (if r.owns l then t.held else t.held.erase l.unit)
    have hheld : t.held = if r.owns l then r.held else l.unit :: r.held :=
      h.held
    rw [howns]
    cases ho : r.owns l with
    | true => rfl
    | false =>
        rw [hheld, ho]
        simp

end Thread

-- ============================================================ the same work

/-- What a hook does beside changing the token depends neither on the
thread nor on the counters, and it leaves those and the registry alone. -/
def Hook.Oblivious (h : Hook) : Prop :=
  ∀ g p u x (w : World), (h g p u x w).2.registry = w.registry ∧
    ∃ f : Token → Token, ∀ t c,
      h g p u x { w with thread := t, counters := c } =
        ((h g p u x w).1, { (h g p u x w).2 with
          thread := { t with token := f t.token }, counters := c })

/-- Writing to the log is oblivious. -/
theorem Hook.oblivious_recorder : Hook.recorder.Oblivious :=
  fun _ _ _ _ _ => ⟨rfl, id, fun _ _ => rfl⟩

/-- The worlds differ in nothing but how many requests were counted and
how the mutexes are written down. -/
structure World.SameWork (v w : World) : Prop where
  registry : v.registry = w.registry
  states : v.states = w.states
  session : v.session = w.session
  log : v.log = w.log
  thread : v.thread.Same w.thread
  counters : v.counters.work = w.counters.work

namespace World.SameWork

variable {u v w : World}

/-- A world is like itself. -/
theorem refl (w : World) : w.SameWork w :=
  ⟨rfl, rfl, rfl, rfl, .refl _, rfl⟩

/-- Likeness has no direction. -/
theorem symm (h : v.SameWork w) : w.SameWork v :=
  ⟨h.registry.symm, h.states.symm, h.session.symm, h.log.symm, h.thread.symm,
    h.counters.symm⟩

/-- Likeness is transitive. -/
theorem trans (h : u.SameWork v) (h' : v.SameWork w) : u.SameWork w :=
  ⟨h.registry.trans h'.registry, h.states.trans h'.states,
    h.session.trans h'.session, h.log.trans h'.log, h.thread.trans h'.thread,
    h.counters.trans h'.counters⟩

/-- Thread and counters are all that the worlds differ in. -/
theorem eq_with (h : v.SameWork w) :
    v = { w with thread := v.thread, counters := v.counters } := by
  obtain ⟨hr, hst, hs, hl, -, -⟩ := h
  cases v
  cases hr
  cases hst
  cases hs
  cases hl
  rfl

/-- Worlds with other threads and counters. -/
theorem of_with {t : Thread} {c : Counters} (ht : t.Same w.thread)
    (hc : c.work = w.counters.work) :
    { w with thread := t, counters := c }.SameWork w :=
  ⟨rfl, rfl, rfl, rfl, ht, hc⟩

/-- Dropping the same guard. -/
theorem release (h : v.SameWork w) (g : Guard) :
    { v with thread := v.thread.release g }.SameWork
      { w with thread := w.thread.release g } :=
  { h with thread := h.thread.release g }

end World.SameWork

/-- Two runs that do the same work. -/
def SideBySide.sameWork : SideBySide :=
  { along := fun v w => v.SameWork w ∧ w.registry.Coherent
    failed := fun v w => v.SameWork w ∧ w.registry.Coherent
    away := fun _ => False }

namespace SameWork

variable {setup : Setup} {cancellable : Bool}

/-- A step that looks at neither threads nor counters is the same in both
runs. -/
theorem keeps_of_oblivious {α : Type} {x : Action α}
    (hcoherent : ∀ w : World, w.registry.Coherent →
      (x w).2.registry.Coherent)
    (h : ∀ w : World, ∃ f : Token → Token, ∀ t c,
      x { w with thread := t, counters := c } = ((x w).1, { (x w).2 with
        thread := { t with token := f t.token }, counters := c })) :
    Keeps .sameWork x := by
  refine ⟨fun _ => id, fun v w ⟨hvw, hw⟩ => Or.inr ?_⟩
  obtain ⟨f, hf⟩ := h w
  have hself := hf w.thread w.counters
  have hother := hf v.thread v.counters
  rw [← hvw.eq_with] at hother
  have hafter : (x v).2.SameWork (x w).2 := by
    have hw : (x w).2 = { (x w).2 with
        thread := { w.thread with token := f w.thread.token }
        counters := w.counters } := congrArg Prod.snd hself
    rw [hother, hw]
    exact .of_with (hvw.thread.withToken f) hvw.counters
  have hanswer : (x v).1 = (x w).1 := by
    rw [hother]
  have hcoherent := hcoherent w hw
  rcases hv : x v with ⟨e | a, v'⟩ <;> rcases hw : x w with ⟨e' | b, w'⟩ <;>
    rw [hv, hw] at hafter hanswer <;> rw [hw] at hcoherent <;> cases hanswer
  · exact Or.inr ⟨rfl, hafter, hcoherent⟩
  · exact ⟨rfl, hafter, hcoherent⟩

/-- A step that changes the thread, and answers what it finds there. -/
theorem keeps_of_thread {α : Type} {x : Action α}
    {f : Thread → Except Failure α × Thread}
    (hx : ∀ w, x w = ((f w.thread).1, { w with thread := (f w.thread).2 }))
    (hf : ∀ s t, s.Same t → (f s).1 = (f t).1 ∧ (f s).2.Same (f t).2) :
    Keeps .sameWork x := by
  refine ⟨fun _ => id, fun v w ⟨hvw, hw⟩ => Or.inr ?_⟩
  obtain ⟨hanswer, hafter⟩ := hf _ _ hvw.thread
  rw [hx, hx, hanswer]
  have hafter : { v with thread := (f v.thread).2 }.SameWork
      { w with thread := (f w.thread).2 } := { hvw with thread := hafter }
  generalize f w.thread = r at hafter ⊢
  obtain ⟨e | a, t⟩ := r
  · exact Or.inr ⟨rfl, hafter, hw⟩
  · exact ⟨rfl, hafter, hw⟩

/-- A step under a guard that is dropped afterwards. -/
theorem holding (g : Guard) {x : Action Unit} (hx : Keeps .sameWork x) :
    Keeps .sameWork (Action.holding g x) := by
  refine ⟨fun _ => id, fun v w hvw => (hx.run v w hvw).imp id fun hm => ?_⟩
  unfold Action.holding
  rcases hv : x v with ⟨e | a, v'⟩ <;> rcases hw : x w with ⟨f | b, w'⟩ <;>
    rw [hv, hw] at hm
  · obtain ⟨rfl, hfailed⟩ := hm.resolve_left id
    exact Or.inr ⟨rfl, hfailed.1.release g, hfailed.2⟩
  · exact hm.elim
  · exact hm.elim
  · exact ⟨hm.1, hm.2.1.release g, hm.2.2⟩

/-- Looking at the token. -/
theorem checkCancelled (phase : Phase) :
    Keeps .sameWork (Action.checkCancelled cancellable phase) := by
  cases cancellable with
  | false => exact ⟨fun _ => id, fun v w hvw => Or.inr ⟨rfl, hvw⟩⟩
  | true =>
      refine keeps_of_thread
        (f := fun t => ((t.token.check phase).mapError Failure.error, t))
        (fun w => ?_) fun s t hst => ⟨by rw [hst.token], hst⟩
      unfold Action.checkCancelled
      rw [if_pos rfl]
      cases w.thread.token.check phase with
      | ok a => rfl
      | error e => rfl

/-- Taking the lock of another unit where the order of units allows it. -/
theorem lockUnitOrdered (id : UnitId) :
    Keeps .sameWork (Action.lockUnitOrdered id) := by
  refine keeps_of_thread (f := fun t => (.ok (t.lockOrdered (.ofUnit id)).1,
    (t.lockOrdered (.ofUnit id)).2)) (fun w => rfl) fun s t hst => ?_
  obtain ⟨hg, hafter⟩ := hst.lockOrdered (.ofUnit id)
  exact ⟨by rw [hg], hafter⟩

/-- Taking the lock for a request. -/
theorem lockForRequest (id : UnitId) (phase : Phase) :
    Keeps .sameWork (Action.lockForRequest id phase cancellable) := by
  refine .bind (.read fun v w hvw => ?_) fun mayWait => ?_
  · rw [hvw.1.thread.owns, hvw.1.thread.mayWaitFor]
  split
  · split
    · refine keeps_of_thread (f := fun t =>
        ((t.lockCancellable (.ofUnit id) phase).1.mapError Failure.error,
          (t.lockCancellable (.ofUnit id) phase).2)) (fun w => ?_)
        fun s t hst => ?_
      · unfold Action.lockUnitCancellable
        rcases w.thread.lockCancellable (.ofUnit id) phase with ⟨e | g, t⟩
        · rfl
        · rfl
      · obtain ⟨hanswer, hafter⟩ := hst.lockCancellable (.ofUnit id) phase
        exact ⟨by rw [hanswer], hafter⟩
    · refine keeps_of_thread (f := fun t => (.ok (t.lock (.ofUnit id)).1,
        (t.lock (.ofUnit id)).2)) (fun w => rfl) fun s t hst => ?_
      obtain ⟨hg, hafter⟩ := hst.lock (.ofUnit id)
      exact ⟨by rw [hg], hafter⟩
  · refine .bind (.read fun v w hvw => ?_) fun held => ?_
    · rw [Thread.highest?, Thread.highest?, hvw.1.thread.held]
    · refine .bind (lockUnitOrdered id) fun found => ?_
      cases found with
      | some g => exact .pure
      | none => exact .stop fun _ _ h => h

/-- What does not depend on other threads is the same in both runs. -/
theorem agrees (hhooks : ∀ h ∈ setup.hooks, h.Oblivious) :
    SideBySide.sameWork.Agrees setup cancellable where
  registry := fun v w h => h.1.registry
  classifier := fun k => keeps_of_oblivious
    (fun w hw => (hw.classifier k).1) fun w => ⟨id, fun _ _ => rfl⟩
  stop := fun _ _ h => h
  named := fun v w id u h hu => h.2.named id u hu
  state := fun v w u d h _ => by rw [World.state, World.state, h.1.states]
  session := fun v w h => h.1.session
  update := fun f => keeps_of_oblivious (fun _ hw => hw) fun w =>
    ⟨id, fun _ _ => rfl⟩
  write := fun g u d f _ => by
    refine keeps_of_oblivious (fun w hw => ?_) fun w => ⟨id, fun t c => ?_⟩ <;>
      unfold Action.writeState
    · split
      · exact hw
      · split
        · exact hw
        · exact hw
    · split
      · rfl
      · split
        · rfl
        · rfl
  count := fun f hf _ => by
    refine .update (fun _ => id) fun v w h => ⟨{ h.1 with counters := ?_ }, h.2⟩
    show (f v.counters).work = (f w.counters).work
    rw [hf, h.1.counters, ← hf]
  check := checkCancelled
  hooks := fun h hh g phase u x => keeps_of_oblivious
    (fun w hw => by rw [(hhooks h hh g phase u x w).1]; exact hw)
    fun w => (hhooks h hh g phase u x w).2

/-- So is all that a request is made of. -/
theorem requests (hhooks : ∀ h ∈ setup.hooks, h.Oblivious) :
    SideBySide.sameWork.Requests setup cancellable where
  toAgrees := agrees hhooks
  together := id
  elsewhere := fun id u classes => by
    have hagrees : SideBySide.sameWork.Agrees setup cancellable :=
      agrees hhooks
    refine .bind (lockUnitOrdered id) fun found => ?_
    cases found with
    | some g => exact holding g (.each fun c _ => hagrees.applyTo g u c)
    | none => exact hagrees.count _ (fun _ => rfl) fun _ => Nat.le_succ _
  failed := fun _ _ h => h
  lock := lockForRequest
  holding := fun g x hx => holding g hx

end SameWork

end StagedResolve
