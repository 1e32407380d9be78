/-
The order of waits: what a request may wait for while it holds locks.

# Threads that hold their locks properly

A thread holds its locks properly if the list of held units is exact and
nobody else has what it holds (`Thread.Proper`). Taking a lock in order
leaves it so, and if that means waiting, the wait is recorded with the
units held by then, all of which are below the one that is waited for.

# A request

A request takes the lock of one unit, its home, and keeps it to the end.
While it holds that lock it takes other locks one at a time, in order, to
write results back, and drops each of them again; what it cannot get in
order is put off. So every wait is either for the home, with nothing held
but what the caller held, or for another unit, with the home on top of
that (`Thread.WaitsFor`), and the caller holds afterwards what it held
before.

# The plain lock

A request looks at the order before it waits for its home. The resolving
of a single file does not: it waits for the unit whatever is held. It
keeps the order only if the unit is not blocked when it begins
(`waits_inOrder`), and `not_waits_inOrder` shows what happens otherwise.
-/
import StagedResolve.Proofs.Holding
import StagedResolve.Proofs.Threads

namespace StagedResolve

open StagedResolve.Action

-- ============================================================ proper threads

namespace Thread

variable {s t : Thread} {l : LockId} {g : Guard} {home id : UnitId}

/-- The list of held units is exact, and nobody else has what is held. -/
structure Proper (t : Thread) : Prop where
  listed : ∀ u, u ∈ t.held ↔ t.owns (.ofUnit u) = true
  exclusive : ∀ l, t.owns l = true → (t.mutex l).theirs = false

/-- A thread that holds nothing is proper. -/
theorem proper_start : start.Proper := by
  have howns : ∀ l, start.owns l = false := fun l => rfl
  refine ⟨fun u => ?_, fun l hl => ?_⟩
  · rw [howns]
    constructor
    · intro hu
      cases hu
    · intro hu
      cases hu
  · rw [howns] at hl
    cases hl

/-- Other threads may take what is not held. -/
theorem Proper.otherTakes (h : t.Proper) (hl : t.owns l = false) :
    (t.otherTakes l).Proper := by
  have hsame : t.SameHolds (t.otherTakes l) := .of_insert rfl rfl rfl
  have howns : ∀ l', (t.otherTakes l).owns l' = t.owns l' := fun l' => by
    rw [owns, owns, hsame.ours]
  refine ⟨fun u => ?_, fun l' hl' => ?_⟩
  · rw [hsame.held, howns]
    exact h.listed u
  · rw [howns] at hl'
    rw [mutex_insert t l l' _ (t.otherTakes l) rfl, if_neg]
    · exact h.exclusive l' hl'
    · rintro rfl
      exact absurd (hl.symm.trans hl') (by decide)

/-- Taking the lock of a unit that nobody else has leaves the thread
proper. -/
theorem Proper.acquire (h : t.Proper)
    (hfree : (t.mutex (.ofUnit id)).theirs = false) :
    (t.acquire (.ofUnit id)).2.Proper := by
  have howns : ∀ l, (t.acquire (.ofUnit id)).2.owns l = true ↔
      t.owns l = true ∨ .ofUnit id = l := by
    intro l
    rw [owns_iff, mutex_acquire, owns_iff]
    split
    · next heq => simp [heq]
    · next hne => simp [hne]
  constructor
  case listed =>
    intro u
    rw [howns, ← h.listed]
    show u ∈ (if t.owns (.ofUnit id) then t.held else id :: t.held) ↔ _
    have heq : LockId.ofUnit id = .ofUnit u ↔ u = id := by
      constructor
      · exact fun h => (congrArg LockId.unit h).symm
      · exact fun h => h ▸ rfl
    rw [heq]
    split
    · next hid =>
      refine ⟨Or.inl, fun hu => hu.elim (fun h => h) ?_⟩
      rintro rfl
      exact (h.listed u).mpr hid
    · rw [List.mem_cons, or_comm]
  case exclusive =>
    intro l hl
    rw [mutex_insert t (.ofUnit id) l _ (t.acquire (.ofUnit id)).2 rfl]
    split
    · exact hfree
    · next hne => exact h.exclusive l (((howns l).mp hl).resolve_right hne)

/-- So does waiting for it. -/
theorem Proper.wait (h : t.Proper) (l : LockId) : (t.wait l).Proper := by
  have hmutex : ∀ l', (t.wait l).mutex l' =
      if l = l' then { t.mutex l with theirs := false } else t.mutex l' :=
    fun l' => mutex_insert t l l' _ (t.wait l) rfl
  have howns : ∀ l', (t.wait l).owns l' = t.owns l' := by
    intro l'
    rw [owns, owns, hmutex]
    split
    · next heq => rw [← heq]
    · rfl
  refine ⟨fun u => ?_, fun l' hl' => ?_⟩
  · rw [howns]
    exact h.listed u
  · rw [hmutex]
    split
    · rfl
    · exact h.exclusive l' (by rwa [howns] at hl')

/-- Taking a lock at all leaves the thread proper. -/
theorem Proper.lock (h : t.Proper) (id : UnitId) :
    (t.lock (.ofUnit id)).2.Proper := by
  unfold Thread.lock
  split
  · refine (h.wait _).acquire ?_
    rw [mutex_insert t _ _ _ (t.wait (.ofUnit id)) rfl, if_pos rfl]
  · next hfree => exact h.acquire (by simpa using hfree)

/-- So does taking it in order, or not at all. -/
theorem Proper.lockOrdered (h : t.Proper) (id : UnitId) :
    (t.lockOrdered (.ofUnit id)).2.Proper := by
  cases hg : (t.lockOrdered (.ofUnit id)).1 with
  | none =>
      rw [(blocked_of_lockOrdered hg).2]
      exact h
  | some g =>
      rw [lockOrdered_eq_some hg]
      exact h.lock id

/-- Holding the same among locks of which others have no more leaves the
thread proper. -/
theorem Proper.of_alike (h : s.Proper) (ht : s.Alike t) : t.Proper := by
  have howns : ∀ l, t.owns l = s.owns l := fun l => by
    rw [owns, owns, ht.ours]
  refine ⟨fun u => ?_, fun l hl => ?_⟩
  · rw [ht.held, howns]
    exact h.listed u
  · have hfree := h.exclusive l (by rwa [howns] at hl)
    cases htheirs : (t.mutex l).theirs with
    | false => rfl
    | true => exact absurd (hfree.symm.trans (ht.theirs l htheirs)) (by decide)

-- ======================================================== what is waited for

/-- A wait that the thread may begin: for a unit above all that it holds,
which another thread has. -/
structure Permits (t : Thread) (x : Wait) : Prop where
  held : x.held = t.held
  busy : (t.mutex (.ofUnit x.unit)).theirs = true
  above : t.mayWaitFor x.unit = true

/-- A wait that may begin is in order. -/
theorem Permits.inOrder {x : Wait} (h : t.Permits x) : x.inOrder = true := by
  have habove := mayWaitFor_iff.mp h.above
  rw [Wait.inOrder, h.held, List.all_eq_true]
  exact fun u hu => decide_eq_true (habove u hu)

/-- A thread that holds the same may begin the same waits. -/
theorem Permits.of_alike {x : Wait} (hst : s.Alike t) (h : t.Permits x) :
    s.Permits x := by
  refine ⟨h.held.trans hst.held, hst.theirs _ h.busy, ?_⟩
  have habove := h.above
  rwa [mayWaitFor, highest?, hst.held] at habove

/-- A lock that another thread has may be waited for where the order of
units allows it. -/
theorem Proper.permits (h : t.Proper)
    (hmay : (t.owns (.ofUnit id) || t.mayWaitFor id) = true)
    (hbusy : (t.mutex (.ofUnit id)).theirs = true) :
    t.Permits ⟨id, t.held⟩ := by
  refine ⟨rfl, hbusy, ?_⟩
  rw [Bool.or_eq_true] at hmay
  refine hmay.resolve_left fun howns => ?_
  exact absurd ((h.exclusive _ howns).symm.trans hbusy) (by decide)

/-- A lock that is taken in order is waited for at most once, and only if
that may be. -/
theorem Proper.waits_lockOrdered (h : t.Proper) (id : UnitId) :
    ∃ new, (t.lockOrdered (.ofUnit id)).2.waits = new ++ t.waits ∧
      ∀ x ∈ new, x.unit = id ∧ t.Permits x := by
  have hnone : ∀ r : Thread, r.waits = t.waits → ∃ new,
      r.waits = new ++ t.waits ∧ ∀ x ∈ new, x.unit = id ∧ t.Permits x :=
    fun r hr => ⟨[], hr, fun x hx => by cases hx⟩
  unfold Thread.lockOrdered
  split
  · next hmay =>
    show ∃ new, (t.lock (.ofUnit id)).2.waits = new ++ t.waits ∧ _
    unfold Thread.lock
    split
    · next hbusy =>
      refine ⟨[⟨id, t.held⟩], rfl, fun x hx => ?_⟩
      cases List.mem_singleton.mp hx
      exact ⟨rfl, h.permits hmay hbusy⟩
    · exact hnone _ rfl
  · unfold tryLock
    split
    · exact hnone _ rfl
    · exact hnone _ rfl

/-- The thread holds what it held, and has only begun waits that it might
begin then. -/
structure Returns (s t : Thread) : Prop where
  alike : s.Alike t
  waits : ∃ new, t.waits = new ++ s.waits ∧ ∀ x ∈ new, s.Permits x

/-- Nothing has happened to locks. -/
theorem Returns.of_eq (hm : t.mutexes = s.mutexes) (hheld : t.held = s.held)
    (hw : t.waits = s.waits) : s.Returns t :=
  ⟨.of_eq hm hheld, [], hw, fun x hx => by cases hx⟩

/-- Another lock is taken in order and dropped again. -/
theorem Returns.release {r : Thread} (hs : s.Proper) (h : s.Returns t)
    (hg : (t.lockOrdered (.ofUnit id)).1 = some g)
    (hr : (t.lockOrdered (.ofUnit id)).2.Returns r)
    (hwaits : r.waits = (t.lockOrdered (.ofUnit id)).2.waits) :
    s.Returns (r.release g) := by
  obtain ⟨new, hnew, hall⟩ := h.waits
  obtain ⟨more, hmore, hmay⟩ := (hs.of_alike h.alike).waits_lockOrdered id
  refine ⟨h.alike.trans (.release hg hr.alike), more ++ new, ?_, ?_⟩
  · show r.waits = _
    rw [hwaits, hmore, hnew, List.append_assoc]
  · intro x hx
    rcases List.mem_append.mp hx with hx | hx
    · exact .of_alike h.alike (hmay x hx).2
    · exact hall x hx

/-- A wait of a thread that works for a unit, its home: it is in order, for
a lock that another thread has, and what the thread holds is what it held
at the start, and its home as well unless that is what it waits for. -/
structure Awaits (s : Thread) (home : UnitId) (x : Wait) : Prop where
  inOrder : x.inOrder = true
  busy : (s.mutex (.ofUnit x.unit)).theirs = true
  held : ∀ u, u ∈ x.held ↔
    s.owns (.ofUnit u) = true ∨ (u = home ∧ x.unit ≠ home)

/-- What a thread has done about locks while it worked for a unit: it holds
what it held, and has waited in order. -/
structure WaitsFor (home : UnitId) (s t : Thread) : Prop where
  alike : s.Alike t
  waits : ∃ new, t.waits = new ++ s.waits ∧ ∀ x ∈ new, s.Awaits home x

/-- A wait for the home. -/
theorem Permits.awaits {x : Wait} (hs : s.Proper) (h : s.Permits x)
    (hx : x.unit = home) : s.Awaits home x := by
  refine ⟨h.inOrder, h.busy, fun u => ?_⟩
  rw [h.held, hs.listed, hx]
  simp

/-- It has at most waited for its home. -/
theorem WaitsFor.of_eq (hs : s.Proper) (hm : t.mutexes = s.mutexes)
    (hheld : t.held = s.held) (hw : ∃ new, t.waits = new ++ s.waits ∧
      ∀ x ∈ new, x.unit = home ∧ s.Permits x) : s.WaitsFor home t := by
  obtain ⟨new, hnew, hall⟩ := hw
  exact ⟨.of_eq hm hheld, new, hnew, fun x hx =>
    (hall x hx).2.awaits hs (hall x hx).1⟩

/-- Others have no more once a lock was taken. -/
theorem theirs_of_lock {l' : LockId}
    (h : ((s.lock l).2.mutex l').theirs = true) :
    (s.mutex l').theirs = true := by
  have hacquired : ∀ r : Thread, ((r.acquire l).2.mutex l').theirs = true →
      (r.mutex l').theirs = true := by
    intro r hr
    rw [mutex_insert r l l' _ (r.acquire l).2 rfl] at hr
    split at hr
    · next heq => exact heq ▸ hr
    · exact hr
  unfold lock at h
  split at h
  · have hwait := hacquired _ h
    rw [mutex_insert s l l' _ (s.wait l) rfl] at hwait
    split at hwait
    · cases hwait
    · exact hwait
  · exact hacquired _ h

/-- What is owned once the lock of a unit was taken. -/
theorem owns_lock (s : Thread) (home u : UnitId) :
    (s.lock (.ofUnit home)).2.owns (.ofUnit u) = true ↔
      s.owns (.ofUnit u) = true ∨ u = home := by
  obtain ⟨r, hr, heq⟩ := s.lock_eq (.ofUnit home)
  rw [heq, owns_iff, mutex_acquire, hr.ours, hr.ours, owns_iff]
  split
  · next h =>
    have hu : home = u := congrArg LockId.unit h
    simp [hu]
  · next h =>
    refine ⟨Or.inl, fun hu => hu.resolve_right ?_⟩
    rintro rfl
    exact h rfl

/-- Once the home is held, a wait that may begin is for another unit. -/
theorem Permits.awaits_lock {x : Wait} (hs : s.Proper)
    (h : (s.lock (.ofUnit home)).2.Permits x) : s.Awaits home x := by
  have hne : x.unit ≠ home := by
    intro heq
    have hfree := (hs.lock home).exclusive (.ofUnit x.unit)
      ((s.owns_lock home x.unit).mpr (Or.inr heq))
    exact absurd (hfree.symm.trans h.busy) (by decide)
  refine ⟨h.inOrder, theirs_of_lock h.busy, fun u => ?_⟩
  rw [h.held, (hs.lock home).listed, owns_lock]
  simp [hne]

/-- It has taken the lock of its home, has done something under it and has
dropped it again. -/
theorem WaitsFor.of_returns (hs : s.Proper)
    (hg : (s.lockOrdered (.ofUnit home)).1 = some g)
    (h : (s.lockOrdered (.ofUnit home)).2.Returns t) :
    s.WaitsFor home (t.release g) := by
  obtain ⟨first, hfirst, hmay⟩ := hs.waits_lockOrdered home
  obtain ⟨new, hnew, hall⟩ := h.waits
  refine ⟨.release hg h.alike, new ++ first, ?_, fun x hx => ?_⟩
  · show t.waits = _
    rw [hnew, hfirst, List.append_assoc]
  · rw [lockOrdered_eq_some hg] at hall
    rcases List.mem_append.mp hx with hx | hx
    · exact (hall x hx).awaits_lock hs
    · exact (hmay x hx).2.awaits hs (hmay x hx).1

end Thread

-- ======================================================= what leaves locks be

/-- A hook takes no locks itself: of the thread it changes the token only,
and it leaves a registry that is in order. -/
def Hook.Lockless (h : Hook) : Prop :=
  ∀ g p u x (w : World),
    (∃ token, (h g p u x w).2.thread = { w.thread with token := token }) ∧
      (w.registry.Coherent → (h g p u x w).2.registry.Coherent)

namespace Hook

/-- Writing to the log takes no locks. -/
theorem lockless_recorder : recorder.Lockless :=
  fun _ _ _ _ _ => ⟨⟨_, rfl⟩, id⟩

/-- Cancelling the token takes no locks. -/
theorem lockless_canceller : canceller.Lockless :=
  fun _ _ _ _ _ => ⟨⟨_, rfl⟩, id⟩

/-- Failing takes no locks. -/
theorem lockless_failing : failing.Lockless :=
  fun _ _ _ _ _ => ⟨⟨_, rfl⟩, id⟩

/-- Leaving a note takes no locks. -/
theorem lockless_annotator : annotator.Lockless := by
  intro g p u x w
  unfold annotator Action.writeSlots Action.writeState
  split
  · exact ⟨⟨_, rfl⟩, id⟩
  · split
    · exact ⟨⟨_, rfl⟩, id⟩
    · exact ⟨⟨_, rfl⟩, id⟩

/-- A hook that takes no locks takes none where it is active. -/
theorem Lockless.only {h : Hook} (hh : h.Lockless) (phase : Option Phase)
    (name : Option String) : (only phase name h).Lockless := by
  intro g p u x w
  unfold Hook.only
  split
  · exact hh g p u x w
  · exact ⟨⟨_, rfl⟩, id⟩

end Hook

/-- The registry is in order, and so is the thread in some respect. -/
def World.With (r : Thread → Prop) (w : World) : Prop :=
  w.registry.Coherent ∧ r w.thread

section requests

variable {setup : Setup} {cancellable : Bool} {r : Thread → Prop}
  {s : Thread} {home : UnitId}

/-- A condition on locks is kept by everything that takes none. -/
theorem agrees_with (hr : ∀ t token, r t → r { t with token := token })
    (hhooks : ∀ h ∈ setup.hooks, h.Lockless) :
    (SideBySide.solo (World.With r) (World.With r)).Agrees setup
      cancellable where
  registry := fun v w h => h.1 ▸ rfl
  classifier := fun k => .of_triple fun w hw =>
    ⟨(hw.1.classifier k).1, hw.2⟩
  stop := fun _ _ h => h
  named := fun v w id u h hu => h.2.1.named id u hu
  state := fun v w u d h _ => h.1 ▸ rfl
  session := fun v w h => h.1 ▸ rfl
  update := fun f => .of_triple (.update fun w hw => hw)
  write := fun g u d f _ => .of_triple
    (writeState_triple (fun _ hw => hw) fun _ hw _ => hw)
  count := fun f _ _ => .of_triple (.update fun w hw => hw)
  check := fun phase => .of_triple (.checkCancelled fun w hw => hw)
  hooks := fun h hh g phase u x => by
    refine .of_triple fun w hw => ?_
    obtain ⟨⟨token, htoken⟩, hregistry⟩ := hhooks h hh g phase u x w
    have hafter : World.With r (h g phase u x w).2 :=
      ⟨hregistry hw.1, htoken ▸ hr w.thread token hw.2⟩
    rcases hx : h g phase u x w with ⟨e | a, w'⟩
    · rwa [hx] at hafter
    · rwa [hx] at hafter

/-- Under the lock of its home a thread returns from writing to other
units. -/
theorem phases_returns (hs : s.Proper)
    (hhooks : ∀ h ∈ setup.hooks, h.Lockless) :
    (SideBySide.solo (World.With s.Returns) (World.With s.Returns)).Phases
      setup cancellable where
  toAgrees := agrees_with (fun t token ht => ⟨ht.alike.trans
    (.of_eq rfl rfl), ht.waits⟩) hhooks
  elsewhere := fun id u classes => by
    refine .of_triple fun w hw => ?_
    rw [bind_run_ok (lockUnitOrdered_run id w)]
    cases hg : (w.thread.lockOrdered (.ofUnit id)).1 with
    | none =>
        rw [(Thread.blocked_of_lockOrdered hg).2]
        exact hw
    | some g =>
        -- writing results back does nothing about locks
        let locked : Thread → Prop := fun t => ∃ token,
          t = { (w.thread.lockOrdered (.ofUnit id)).2 with token := token }
        have hagrees : (SideBySide.solo (World.With locked)
            (World.With locked)).Agrees setup cancellable :=
          agrees_with (fun t token ht => ⟨token, by
            obtain ⟨_, rfl⟩ := ht
            rfl⟩) hhooks
        have hbody : Triple (World.With locked) (each (applyTo g u) classes)
            (fun _ => World.With locked) (World.With locked) :=
          .each fun c _ => (hagrees.applyTo g u c).triple
        have hreturn : ∀ v, World.With locked v →
            World.With s.Returns { v with thread := v.thread.release g } := by
          rintro v ⟨hv, token, hthread⟩
          refine ⟨hv, ?_⟩
          show s.Returns (v.thread.release g)
          rw [hthread]
          exact hw.2.release hs hg (.of_eq rfl rfl rfl) rfl
        exact hbody.holding (fun _ => hreturn) hreturn _ ⟨hw.1, _, rfl⟩

/-- The lock of the home was taken in order. -/
def Thread.Took (s : Thread) (home : UnitId) (g : Guard) (t : Thread) : Prop :=
  (s.lockOrdered (.ofUnit home)).1 = some g ∧
    ∃ token, t = { (s.lockOrdered (.ofUnit home)).2 with token := token }

/-- The lock for a request, which is taken in order or not at all. -/
theorem lockForRequest_order (hs : s.Proper) (phase : Phase) :
    Triple (World.With (· = s)) (lockForRequest home phase cancellable)
      (fun g => World.With (s.Took home g)) (World.With (s.WaitsFor home)) := by
  refine .read_bind fun mayWait => ?_
  split
  · next hmay =>
    have htaken : (s.owns (.ofUnit home) || s.mayWaitFor home) = true →
        s.lockOrdered (.ofUnit home) =
          (some (s.lock (.ofUnit home)).1, (s.lock (.ofUnit home)).2) := by
      intro h
      unfold Thread.lockOrdered
      exact if_pos h
    split
    · rintro w ⟨⟨hw, rfl⟩, hread⟩
      have hmay := hread.trans hmay
      have htaken := htaken hmay
      unfold lockUnitCancellable
      rcases hr : w.thread.lockCancellable (.ofUnit home) phase with ⟨e | g, t⟩
      · refine ⟨hw, ?_⟩
        show w.thread.WaitsFor home t
        unfold Thread.lockCancellable at hr
        split at hr
        · cases hr
          exact .of_eq hs rfl rfl ⟨[], rfl, fun x hx => by cases hx⟩
        · split at hr
          · next hbusy =>
            cases hr
            rw [Bool.and_eq_true] at hbusy
            refine .of_eq hs rfl rfl ⟨[_], rfl, fun x hx => ?_⟩
            cases List.mem_singleton.mp hx
            exact ⟨rfl, hs.permits hmay hbusy.1⟩
          · cases hr
      · have heq := Thread.lockCancellable_eq_ok (congrArg Prod.fst hr) phase
        cases hr.symm.trans heq
        exact ⟨hw, congrArg Prod.fst htaken, _, (congrArg Prod.snd htaken).symm⟩
    · rintro w ⟨⟨hw, rfl⟩, hread⟩
      have htaken := htaken (hread.trans hmay)
      exact ⟨hw, congrArg Prod.fst htaken, _, (congrArg Prod.snd htaken).symm⟩
  · refine .read_then fun held => ?_
    refine .bind (Q := fun found => World.With fun t =>
      (s.lockOrdered (.ofUnit home)).1 = found ∧
        t = (s.lockOrdered (.ofUnit home)).2) ?_ fun found => ?_
    · rintro w ⟨⟨hw, rfl⟩, -⟩
      exact ⟨hw, rfl, rfl⟩
    · cases found with
      | some g => exact .pure fun w hw => ⟨hw.1, hw.2.1, _, hw.2.2⟩
      | none =>
          refine .stop fun w hw => ⟨hw.1, ?_⟩
          obtain ⟨hnone, hthread⟩ := hw.2
          rw [hthread, (Thread.blocked_of_lockOrdered hnone).2]
          exact .of_eq hs rfl rfl ⟨[], rfl, fun x hx => by cases hx⟩

/-- Something is done under the lock of the home, which is dropped
afterwards. -/
theorem holding_order (hs : s.Proper) {g : Guard} {x : Action Unit}
    (hx : Triple
      (World.With (s.lockOrdered (.ofUnit home)).2.Returns) x
      (fun _ => World.With (s.lockOrdered (.ofUnit home)).2.Returns)
      (World.With (s.lockOrdered (.ofUnit home)).2.Returns)) :
    Triple (World.With (s.Took home g)) (holding g x)
      (fun _ => World.With (s.WaitsFor home))
      (World.With (s.WaitsFor home)) := by
  rintro w ⟨hw, hg, token, hthread⟩
  have hreturn : ∀ v, World.With (s.lockOrdered (.ofUnit home)).2.Returns v →
      World.With (s.WaitsFor home)
        { v with thread := v.thread.release g } :=
    fun v hv => ⟨hv.1, .of_returns hs hg hv.2⟩
  refine hx.holding (fun _ => hreturn) hreturn w ⟨hw, ?_⟩
  rw [hthread]
  exact .of_eq rfl rfl rfl

/-- A request leaves a thread that has waited in order. -/
theorem request_order (hs : s.Proper)
    (hhooks : ∀ h ∈ setup.hooks, h.Lockless) (allowLocal : Bool)
    (x : Symbol) (phase : Phase) :
    Triple (World.With (· = s))
      (request setup allowLocal x phase cancellable)
      (fun _ => World.With (s.WaitsFor x.unit))
      (World.With (s.WaitsFor x.unit)) := by
  have hstill : ∀ w, World.With (· = s) w →
      World.With (s.WaitsFor x.unit) w := by
    rintro w ⟨hw, rfl⟩
    exact ⟨hw, .of_eq hs rfl rfl ⟨[], rfl, fun x hx => by cases hx⟩⟩
  refine .bind (Q := fun _ => World.With (· = s))
    (.update fun w hw => hw) fun _ => ?_
  split
  · exact .pure hstill
  refine .bind (Q := fun r w => World.With (· = s) w ∧ r.1.id = x.unit)
    (fun w hw => ?_) fun r => .assume fun hid => ?_
  · unfold Action.declaration
    rcases hr : w.registry.declaration x with e | ⟨u, d⟩
    · exact hstill w hw
    · obtain ⟨hu, -⟩ := Registry.declaration_eq_ok_iff.mp hr
      exact ⟨hw, hw.1.named _ u hu⟩
  obtain ⟨u, d⟩ := r
  dsimp only at hid ⊢
  split
  · exact .pure hstill
  rcases hgoal : u.designateWith allowLocal x.decl with e | goal
  · exact .bind (Q := fun _ _ => False) (.stop hstill) fun _ _ hw => hw.elim
  obtain rfl := CompilationUnit.unit_of_designateWith hgoal
  refine .bind (Q := fun a w => World.With (· = s) w ∧ a = goal)
    (.pure fun w hw => ⟨hw, rfl⟩) fun a => .assume ?_
  rintro rfl
  refine .read_then fun current => ?_
  split
  · exact .update fun w hw => hstill w hw
  · refine Triple.countingCancellation ?_ fun w hw => hw
    rw [← hid]
    refine .bind (lockForRequest_order hs phase) fun g => holding_order hs ?_
    exact ((phases_returns (hs.lockOrdered _) hhooks).resolveLocked a
      phase g).triple

/-- So does the resolving of a file that is not blocked when it begins. -/
theorem resolveFile_order (hs : s.Proper)
    (hhooks : ∀ h ∈ setup.hooks, h.Lockless)
    (hfree : ¬ s.Blocked (.ofUnit home)) :
    Triple (World.With (· = s)) (resolveFile setup home)
      (fun _ => World.With (s.WaitsFor home))
      (World.With (s.WaitsFor home)) := by
  refine .read_then fun found => ?_
  cases found with
  | none =>
      rintro w ⟨hw, rfl⟩
      exact ⟨hw, .of_eq hs rfl rfl ⟨[], rfl, fun x hx => by cases hx⟩⟩
  | some u =>
      -- the plain lock is got in order after all
      have htook : s.lockOrdered (.ofUnit home) =
          (some (s.lock (.ofUnit home)).1, (s.lock (.ofUnit home)).2) := by
        cases hg : (s.lockOrdered (.ofUnit home)).1 with
        | none => exact absurd (Thread.blocked_of_lockOrdered hg).1 hfree
        | some g => exact Thread.lockOrdered_eq_some hg
      refine .bind (Q := fun g => World.With (s.Took home g)) ?_ fun g => ?_
      · rintro w ⟨hw, rfl⟩
        exact ⟨hw, congrArg Prod.fst htook, _, (congrArg Prod.snd htook).symm⟩
      · have hp : (SideBySide.solo
            (World.With (s.lockOrdered (.ofUnit home)).2.Returns)
            (World.With (s.lockOrdered (.ofUnit home)).2.Returns)).Phases
              setup false :=
          phases_returns (hs.lockOrdered _) hhooks
        exact holding_order hs (Keeps.bind (hp.resolveImports trivial g) fun _ =>
          hp.resolveFileAnnotations trivial
            (fun _ _ s h => hp.committedClasses h s) g .bodies).triple

end requests

-- ============================================================= the resolver

/-- The unit for which a call of the resolver takes a lock. -/
def Call.home? : Call → Option UnitId
  | .resolve _ s _ _ => some s.unit
  | .resolveFile id => some id
  | _ => none

/-- Whatever a thread holds properly and whatever others hold: while the
resolver is called it waits only for locks that others have, and whenever
it does, for a unit above all that the thread holds at that moment. The
one exception is the resolving of a file whose unit is blocked: another
thread has it, and it is not above what is held. -/
theorem waits_inOrder (setup : Setup)
    (hhooks : ∀ h ∈ setup.hooks, h.Lockless) (w : World)
    (hw : w.registry.Coherent) (hs : w.thread.Proper) (call : Call)
    (home : UnitId) (hcall : call.home? = some home)
    (hfile : call = .resolveFile home → ¬ w.thread.Blocked (.ofUnit home)) :
    w.thread.WaitsFor home (call.run setup w).thread := by
  cases call with
  | resolve allowLocal s phase cancellable =>
      cases hcall
      exact ((request_order hs hhooks allowLocal s phase).world
        ⟨hw, rfl⟩).2
  | resolveFile id =>
      cases hcall
      exact ((resolveFile_order hs hhooks (hfile rfl)).world ⟨hw, rfl⟩).2
  | _ => cases hcall

/-- Three files with a class each, of which the second class extends the
third one and that the first one, before a thread. -/
def World.threeFiles (t : Thread) : World :=
  { World.after (Setup.plain .default) [.addUnit UnitSpec.plainClass,
      .addUnit (.ofEntries "b.kt" [.member 0 (.classNamed "B" ["D"])]),
      .addUnit (.ofEntries "d.kt" [.member 0 (.classNamed "D" ["C"])])]
    with thread := t }

/-- Its registry is in order. -/
theorem World.coherent_threeFiles (t : Thread) :
    (threeFiles t).registry.Coherent :=
  ((Reaches.after (Setup.plain .default) _).coherent
    (Setup.quiet_plain _)).registry

/-- The thread holds the first file and others have the other two. While it
resolves the second class it waits for the file of that, and then, holding
both, for the third one. -/
theorem waits_inOrder_threeFiles :
    let s := (((Thread.start.otherTakes (.ofUnit ⟨1⟩)).otherTakes
      (.ofUnit ⟨2⟩)).lock (.ofUnit ⟨0⟩)).2
    let t := (Call.run (Setup.plain .default)
      (.resolve false ⟨⟨1⟩, ⟨1⟩⟩ .supertypes false)
      (World.threeFiles s)).thread
    s.Proper ∧ s.WaitsFor ⟨1⟩ t ∧
      t.waits = [⟨⟨2⟩, [⟨1⟩, ⟨0⟩]⟩, ⟨⟨1⟩, [⟨0⟩]⟩] := by
  intro s t
  have hs : s.Proper :=
    ((Thread.proper_start.otherTakes rfl).otherTakes rfl).lock ⟨0⟩
  refine ⟨hs, ?_, by decide +kernel⟩
  exact waits_inOrder (Setup.plain .default) (fun h hh => by cases hh)
    (World.threeFiles s) (World.coherent_threeFiles s) hs
    (.resolve false ⟨⟨1⟩, ⟨1⟩⟩ .supertypes false) ⟨1⟩ rfl
    fun heq => by cases heq

/-- The resolving of a file does not ask for the order of units: it waits
for the first file while the second one is held. -/
theorem not_waits_inOrder :
    ¬ ∀ (setup : Setup) (w : World), (∀ h ∈ setup.hooks, h.Lockless) →
      w.registry.Coherent → w.thread.Proper →
      ∀ (call : Call) (home : UnitId), call.home? = some home →
        w.thread.WaitsFor home (call.run setup w).thread := by
  intro h
  let s := ((Thread.start.otherTakes (.ofUnit ⟨0⟩)).lock (.ofUnit ⟨1⟩)).2
  have hs : s.Proper := (Thread.proper_start.otherTakes rfl).lock ⟨1⟩
  obtain ⟨new, hnew, hall⟩ := (h (Setup.plain .default) (World.threeFiles s)
    (fun h hh => by cases hh) (World.coherent_threeFiles s) hs
    (.resolveFile ⟨0⟩) ⟨0⟩ rfl).waits
  have hwaits : (Call.run (Setup.plain .default) (.resolveFile ⟨0⟩)
      (World.threeFiles s)).thread.waits = [⟨⟨0⟩, [⟨1⟩]⟩] := by
    decide +kernel
  have hempty : (World.threeFiles s).thread.waits = [] := rfl
  rw [hwaits, hempty, List.append_nil] at hnew
  have hmem : (⟨⟨0⟩, [⟨1⟩]⟩ : Wait) ∈ new := hnew ▸ List.mem_singleton.mpr rfl
  exact absurd (hall _ hmem).inOrder (by decide)

end StagedResolve
