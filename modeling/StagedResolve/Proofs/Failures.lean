/-
Failures: what a request that fails leaves behind.

A request fails with an error before its phases begin or in one of them
(`BreaksOff`). The walk of a phase writes slots as it goes, and markers
rise when it is over; so the phases that were completed count, and of the
one that failed no marker tells.

# Where markers rise early

Sessions do not wait. They mark every class whose clause they write back,
and its members, while the walk that asked for them is still going on. So
if the supertype phase fails, what its sessions have finished is marked
all the same; and if the last phase fails, so are the local classes that
it came by. No marker rises further than the supertype phase in this way
(`World.Within`), and in all other phases none rises at all.
-/
import StagedResolve.Proofs.Histories

namespace StagedResolve

open StagedResolve.Action World

-- ============================================================ ways to fail

namespace Action

variable {α β : Type}

/-- What a run leaves that ends with an error. -/
def Leaves (P : World → Prop) (x : Action α)
    (E : ResolveError → World → Prop) : Prop :=
  ∀ w e w', P w → x w = (.error (.error e), w') → E e w'

namespace Leaves

variable {P : World → Prop} {Q : α → World → Prop} {x : Action α}
  {f : α → Action β} {E : ResolveError → World → Prop}

/-- A triple says it for all failures alike. -/
theorem of_triple {F : World → Prop} (h : Triple P x Q F)
    (hE : ∀ e w, F w → E e w) : Leaves P x E :=
  fun _ _ _ hw hx => hE _ _ (h.error hw hx)

/-- The precondition may be strengthened. -/
theorem pre {P' : World → Prop} (h : Leaves P x E)
    (hP : ∀ w, P' w → P w) : Leaves P' x E :=
  fun w e w' hw hx => h w e w' (hP w hw) hx

/-- One action after another fails in the first or in the second. -/
theorem bind (hx : Leaves P x E)
    (hQ : ∀ w a w', P w → x w = (.ok a, w') → Q a w')
    (hf : ∀ a, Leaves (Q a) (f a) E) : Leaves P (x >>= f) E := by
  intro w e w' hw hrun
  rcases h : x w with ⟨e' | a, v⟩
  · rw [bind_run_error h] at hrun
    cases hrun
    exact hx w e w' hw h
  · rw [bind_run_ok h] at hrun
    exact hf a v e w' (hQ w a v hw h) hrun

/-- Where the first action cannot do harm. -/
theorem bind_triple {F : World → Prop} (hx : Triple P x Q F)
    (hE : ∀ e w, F w → E e w) (hf : ∀ a, Leaves (Q a) (f a) E) :
    Leaves P (x >>= f) E :=
  .bind (.of_triple hx hE) (fun _ _ _ hw hx' => hx.ok hw hx') hf

/-- Reading does not fail. -/
theorem read_bind {g : World → α}
    (hf : ∀ a, Leaves (fun w => P w ∧ g w = a) (f a) E) :
    Leaves P (Action.read g >>= f) E :=
  fun w e w' hw hrun => hf (g w) w e w' ⟨hw, rfl⟩ hrun

/-- What is assumed outside of the world may be used inside. -/
theorem assume {p : Prop} (h : p → Leaves P x E) :
    Leaves (fun w => P w ∧ p) x E :=
  fun w e w' hw hrun => h hw.2 w e w' hw.1 hrun

/-- Answering does not fail. -/
theorem pure {a : α} : Leaves P (Pure.pure a : Action α) E :=
  fun _ _ _ _ h => by cases h

end Leaves

/-- The action may stop with a fault, but not with an error. -/
def Unfailing (x : Action α) : Prop :=
  Leaves (fun _ => True) x fun _ _ => False

namespace Unfailing

variable {x : Action α} {f : α → Action β}

/-- What does not fail leaves anything. -/
theorem leaves (h : Unfailing x) (P : World → Prop)
    (E : ResolveError → World → Prop) : Leaves P x E :=
  fun w e w' _ hx => (h w e w' trivial hx).elim

/-- One action after another. -/
theorem bind (hx : Unfailing x) (hf : ∀ a, Unfailing (f a)) :
    Unfailing (x >>= f) :=
  Leaves.bind (Q := fun _ _ => True) hx (fun _ _ _ _ _ => trivial) hf

/-- A loop. -/
theorem each {f : α → Action Unit} (h : ∀ a, Unfailing (f a))
    (as : List α) : Unfailing (Action.each f as) := by
  induction as with
  | nil => exact Leaves.pure
  | cons a rest ih => exact bind (h a) fun _ => ih

/-- A change of the world does not fail. -/
theorem update (f : World → World) : Unfailing (Action.update f) :=
  fun _ _ _ _ h => by cases h

/-- Writing under the guard of another unit, or past the end of a unit, is
a fault. -/
theorem writeState (g : Guard) (u : CompilationUnit) (d : DeclId)
    (f : DeclState → DeclState) : Unfailing (Action.writeState g u d f) := by
  intro w e w' _ h
  unfold Action.writeState at h
  split at h
  · cases h
  · split at h
    · cases h
    · cases h

/-- Committing a walk. -/
theorem commit (v : Visits) (g : Guard) (u : CompilationUnit) (p : Phase) :
    Unfailing (v.commit g u p) :=
  bind (each (fun d => writeState g u d _) _) fun _ =>
    each (fun d => bind (writeState g u d _) fun _ => writeState g u d _) _

/-- A broken promise about markers is a fault. -/
theorem checkMarkers (goal : Designation) (p : Phase) :
    Unfailing (Action.checkMarkers goal p) := by
  refine Leaves.read_bind fun found => ?_
  cases found with
  | none => exact .pure
  | some f => exact fun _ _ _ _ h => by cases h

end Unfailing

end Action

-- ======================================================= markers that stay

namespace World

/-- Time has passed, and above a limit all markers are where they were. -/
structure Within (limit : Phase) (v w : World) : Prop where
  later : v.Later w
  own : ∀ u d q, w.Registered u → limit < q →
    (q ≤ w.own u d ↔ q ≤ v.own u d)
  below : ∀ u d q, w.Registered u → limit < q →
    (q ≤ w.below u d ↔ q ≤ v.below u d)

variable {v w : World} {limit : Phase}

/-- Nothing has happened yet. -/
theorem Within.refl (limit : Phase) (v : World) : v.Within limit v :=
  ⟨.refl v, fun _ _ _ _ _ => Iff.rfl, fun _ _ _ _ _ => Iff.rfl⟩

/-- Units and states are all that counts. -/
theorem Within.of_eq {w' : World} (h : v.Within limit w)
    (hr : w'.registry = w.registry) (hs : w'.states = w.states)
    (hd : w.counters.deferred ≤ w'.counters.deferred) :
    v.Within limit w' := by
  have hstate : ∀ u d, w'.state u d = w.state u d := fun u d => by
    rw [state, state, hs]
  refine ⟨h.later.trans (Onward.of_eq hr hs hd).toLater, fun u d q hu hq => ?_,
    fun u d q hu hq => ?_⟩ <;> rw [Registered, hr] at hu
  · rw [World.own, hstate]
    exact h.own u d q hu hq
  · rw [World.below, hstate]
    exact h.below u d q hu hq

/-- Where the limit is the start of the sequence nothing is marked. -/
theorem Within.eq_of_raw (h : v.Within .raw w) {u : CompilationUnit}
    (hu : w.Registered u) (d : DeclId) :
    w.own u d = v.own u d ∧ w.below u d = v.below u d := by
  have heq : ∀ {p q : Phase}, (∀ r, .raw < r → (r ≤ p ↔ r ≤ q)) → p = q := by
    intro p q hpq
    have hle : ∀ {a b : Phase}, (.raw < a → a ≤ b) → a ≤ b := by
      intro a b hab
      cases a <;> first | exact Phase.raw_le b | exact hab (by decide)
    have hp := hle fun h => (hpq p h).mp (Phase.le_refl p)
    have hq := hle fun h => (hpq q h).mpr (Phase.le_refl q)
    exact Phase.position_inj (Nat.le_antisymm hp hq)
  exact ⟨heq fun r hr => h.own u d r hu hr, heq fun r hr => h.below u d r hu hr⟩

/-- The limit may be higher. -/
theorem Within.mono {limit' : Phase} (h : v.Within limit w)
    (hle : limit ≤ limit') : v.Within limit' w :=
  ⟨h.later, fun u d q hu hq => h.own u d q hu (Nat.lt_of_le_of_lt hle hq),
    fun u d q hu hq => h.below u d q hu (Nat.lt_of_le_of_lt hle hq)⟩

/-- The same of a declaration that is known by its symbol. -/
theorem Within.le_markers_iff (h : v.Within limit w) (hv : v.Coherent)
    {s : Symbol} {m m' : Phase × Phase} (hm : v.markers? s = some m)
    (hm' : w.markers? s = some m') {q : Phase} (hq : limit < q) :
    q ≤ m'.1 ↔ q ≤ m.1 := by
  obtain ⟨u, hu, rfl⟩ := Option.map_eq_some_iff.mp hm
  obtain ⟨u', hu', rfl⟩ := Option.map_eq_some_iff.mp hm'
  have hreg := h.later.registered (hv.registered hu).1
  rw [← (hv.registered hu).2, hreg] at hu'
  cases hu'
  exact h.own u s.decl q hreg hq

/-- A declaration that nobody has touched in either world is in the same
state in both. -/
theorem state_eq_of_untouched {u : CompilationUnit} {d : DeclId}
    (hv : v.states.find? (u.symbol d) = none)
    (hw : w.states.find? (u.symbol d) = none) :
    w.state u d = v.state u d := by
  rw [state, state, hv, hw]

/-- Markers stay within a limit as long as they are not raised past it. -/
theorem Coherent.steady_within (hv : v.Coherent) (limit : Phase) :
    Steady limit fun w => w.Coherent ∧ v.Within limit w := by
  have hself := Steady.coherent_self limit
  constructor
  case coherent => exact fun _ h => h.1
  case classifier =>
    rintro w k ⟨hw, h⟩
    have hlater := later_classifier hw k
    -- a unit that is built now had no states before
    have hstate : ∀ u d, (Action.classifier k w).2.Registered u →
        w.Registered u ∨ w.state u d = v.state u d := by
      intro u d hu
      refine (hlater.registry.known u.id u hu).imp_right fun hid => ?_
      refine state_eq_of_untouched (hv.fresh _ ?_) (hw.fresh _ hid)
      exact Nat.le_trans h.later.registry.next hid
    refine ⟨hw.classifier k, h.later.trans hlater.toLater, fun u d q hu hq => ?_,
      fun u d q hu hq => ?_⟩
    · rcases hstate u d hu with hreg | heq
      · exact h.own u d q hreg hq
      · exact iff_of_eq (congrArg (fun s => q ≤ DeclState.own s) heq)
    · rcases hstate u d hu with hreg | heq
      · exact h.below u d q hreg hq
      · exact iff_of_eq (congrArg (fun s => q ≤ DeclState.below s) heq)
  case counters =>
    exact fun w c hc h => ⟨hself.counters w c hc h.1, h.2.of_eq rfl rfl hc⟩
  case touches =>
    rintro u w ⟨hu, h⟩ ht
    have hreg : ∀ c, w.Registered c → u.Registered c := fun c hc => by
      rwa [Registered, ht.registry] at hc
    refine ⟨hu.touches ht, h.later.trans ht.later.toLater, fun c d q hc hq => ?_,
      fun c d q hc hq => ?_⟩
    · rw [ht.own c d (hreg c hc)]
      exact h.own c d q (hreg c hc) hq
    · rw [ht.below c d (hreg c hc)]
      exact h.below c d q (hreg c hc) hq
  case session =>
    exact fun w s h => ⟨hself.session w s h.1, h.2.of_eq rfl rfl (Nat.le_refl _)⟩
  case thread =>
    exact fun w t h => ⟨hself.thread w t h.1, h.2.of_eq rfl rfl (Nat.le_refl _)⟩
  case write =>
    rintro w u d s ⟨hw, h⟩ hu - hs
    refine ⟨hw.setState hu hs, h.later.trans (later_setState hu hs).toLater,
      fun c e q hc hq => ?_, fun c e q hc hq => ?_⟩
    · refine Iff.trans ?_ (h.own c e q hc hq)
      rw [World.own, state_setState hu hc]
      split
      · next heq =>
        obtain ⟨rfl, rfl⟩ := heq
        exact hs.own_iff hq
      · rfl
    · refine Iff.trans ?_ (h.below c e q hc hq)
      rw [World.below, state_setState hu hc]
      split
      · next heq =>
        obtain ⟨rfl, rfl⟩ := heq
        exact hs.below_iff hq
      · rfl

end World

-- ============================================================== one phase

/-- How far markers can rise while the walk of a phase is under way. -/
def Phase.sessionLimit : Phase → Phase
  | supertypes | bodies => supertypes
  | _ => raw

/-- That is the supertype phase at most. -/
theorem Phase.sessionLimit_le (p : Phase) : p.sessionLimit ≤ supertypes := by
  cases p <;> decide

namespace Action

variable {setup : Setup} {goal : Designation} {g : Guard}
  {cancellable : Bool}

/-- A phase that fails has marked nothing but what its sessions have. -/
theorem runPhase_leaves (hquiet : setup.Quiet) {v : World} (hv : v.Coherent)
    (hu : v.Registered goal.unit) (p : Phase) :
    Leaves (fun w => w = v) (runPhase setup goal g cancellable p)
      fun _ w => v.Within p.sessionLimit w := by
  have hI := (hv.steady_within p.sessionLimit).and_registered goal.unit
  have hend : ∀ (_ : ResolveError) w, (w.Coherent ∧ v.Within p.sessionLimit w) ∧
      w.Registered goal.unit → v.Within p.sessionLimit w := fun _ _ h => h.1.2
  unfold runPhase
  cases hrule : p.rule? with
  | none => exact .pure
  | some rule =>
      refine .pre (P := fun w => (w.Coherent ∧ v.Within p.sessionLimit w) ∧
        w.Registered goal.unit) ?_ ?_
      · refine .bind_triple (hI.idle.enter setup goal.unit g cancellable) hend
          fun c => .assume ?_
        rintro ⟨hsetup, hunit, -, -⟩
        refine .bind_triple (hI.updateSession _) hend fun _ => ?_
        have hwalk := hI.walk (c := c) ?_
          (fun w hw => hunit ▸ hw.2) (hsetup ▸ hquiet) hrule
        · refine .bind_triple (hwalk.run (.anywhere _ goal)).triple hend fun visits => ?_
          refine Unfailing.leaves (.bind (.commit _ _ _ _) fun _ =>
            .bind (.update _) fun _ => ?_) _ _
          split
          · exact .checkMarkers goal p
          · exact Leaves.pure
        · rintro (rfl | rfl) <;> decide
      · rintro w rfl
        exact ⟨⟨hv, .refl _ _⟩, hu⟩

-- ============================================================== a request

/-- A loop that fails does so at one of its members. -/
theorem each_error {α : Type} {f : α → Action Unit} {as : List α}
    {v w : World} {e : Failure} (h : each f as v = (.error e, w)) :
    ∃ done a rest u, as = done ++ a :: rest ∧ each f done v = (.ok (), u) ∧
      f a u = (.error e, w) := by
  induction as generalizing v with
  | nil => cases h
  | cons a rest ih =>
      rcases ha : f a v with ⟨e' | ⟨⟩, u⟩
      · have hrun := (bind_run_error ha _).symm.trans h
        cases hrun
        exact ⟨[], a, rest, v, rfl, rfl, ha⟩
      · obtain ⟨done, b, post, u', rfl, hdone, hb⟩ :=
          ih ((bind_run_ok ha _).symm.trans h)
        exact ⟨a :: done, b, post, u', rfl, (bind_run_ok ha _).trans hdone, hb⟩

/-- What a request does before its phases begin. -/
def beginRequest (goal : Designation) (phase : Phase) (cancellable : Bool) :
    Action Guard := do
  count Counters.countRequest
  let g ← lockForRequest goal.unit.id phase cancellable
  let _ ← resolveImports g goal.unit
  return g

/-- The phase `p` of a request fails in the world `v`, which the phases
before it have left. -/
structure BreaksOff (setup : Setup) (goal : Designation) (phase : Phase)
    (cancellable : Bool) (w : World) (e : ResolveError) (p : Phase)
    (v : World) : Prop where
  intro ::
  run : ∃ g w₀ done rest w₁,
    beginRequest goal phase cancellable w = (.ok g, w₀) ∧
    (max (w₀.current goal) .lastFileWide).stepsTo phase = done ++ p :: rest ∧
    runPhases setup goal g cancellable done w₀ = (.ok (), v) ∧
    (do checkCancelled cancellable p
        runPhase setup goal g cancellable p) v = (.error (.error e), w₁)

end Action

/-- Resolving imports marks the file. -/
theorem Steady.resolveImports {goal : Phase} {I : World → Prop}
    (hI : Steady goal I) (hgoal : .imports ≤ goal) {g : Guard}
    {u : CompilationUnit} (hu : ∀ w, I w → w.Registered u) :
    Triple I (Action.resolveImports g u) (fun _ => I) I := by
  refine .read_then fun own => ?_
  split
  · exact .pure fun _ hw => hw
  · refine .bind (hI.idle.lookups.importDirectives u.imports .empty).triple fun r => ?_
    refine .bind (hI.writeSlots hu) fun _ => ?_
    exact .bind (hI.raiseOwn hu hgoal) fun _ => .pure fun _ hw => hw

namespace Action

variable {setup : Setup} {goal : Designation} {g : Guard} {phase : Phase}
  {cancellable : Bool}

/-- What is done under the lock fails before the phases begin, or in one
of them. -/
theorem resolveLocked_leaves {I : World → Prop} (hI : Steady .imports I)
    (hu : ∀ w, I w → w.Registered goal.unit) {w₀ : World} (hw₀ : I w₀) :
    Leaves (fun w => w = w₀) (resolveLocked setup goal phase cancellable g)
      fun e w' => I w' ∨ ∃ b u, resolveImports g goal.unit w₀ = (.ok b, u) ∧
        I u ∧ runPhases setup goal g cancellable
          ((max (u.current goal) .lastFileWide).stepsTo phase) u =
            (.error (.error e), w') := by
  have himports := hI.resolveImports (Phase.le_refl _) (g := g) hu
  refine .bind (Q := fun b u => I u ∧
    resolveImports g goal.unit w₀ = (.ok b, u)) ?_ ?_ fun b => ?_
  · exact .of_triple (himports.pre fun w hw => by rw [hw]; exact hw₀)
      fun _ _ => Or.inl
  · rintro w b u rfl hrun
    exact ⟨himports.ok hw₀ hrun, hrun⟩
  split
  · -- a file
    refine .read_bind fun reached => ?_
    split
    · refine .pre (P := I) ?_ fun w hw => hw.1.1
      refine .bind_triple (.checkCancelled fun _ hw => hw) (fun _ _ => Or.inl)
        fun _ => ?_
      refine .read_bind fun own => .pre (P := I) ?_ fun w hw => hw.1
      split
      · exact .pure
      · refine .bind_triple (hI.idle.enter setup goal.unit g false)
          (fun _ _ => Or.inl) fun c => .assume ?_
        rintro ⟨-, hunit, -, -⟩
        have hwork := hI.idle.work (c := c) fun w hw => hunit ▸ hu w hw
        refine .bind_triple (hwork.resolveAnnotations trivial phase).triple
          (fun _ _ => Or.inl) fun _ => ?_
        exact Unfailing.leaves (.writeState _ _ _ _) _ _
    · exact .pure
  · refine .read_bind fun current => ?_
    split
    · exact Unfailing.leaves (.update _) _ _
    · rintro w e w' ⟨⟨hw, hrun⟩, rfl⟩ hfail
      exact Or.inr ⟨b, w, hrun, hw, hfail⟩

/-- A failure goes on as it is when cancellations are counted. -/
theorem countingCancellation_error {x : Action Unit} {w w' : World}
    {e : Failure} (h : countingCancellation x w = (.error e, w')) :
    ∃ v, x w = (.error e, v) ∧ w'.registry = v.registry ∧
      w'.states = v.states ∧ v.counters.deferred ≤ w'.counters.deferred := by
  have hattempt : attempt x w = (.ok (x w).1, (x w).2) := rfl
  unfold countingCancellation at h
  rw [bind_run_ok hattempt] at h
  rcases hx : x w with ⟨e' | ⟨⟩, v⟩
  · rw [hx] at h
    dsimp only at h
    refine ⟨v, ?_⟩
    split at h <;> cases h <;> exact ⟨rfl, rfl, rfl, Nat.le_refl _⟩
  · rw [hx] at h
    cases h

/-- A phase that fails has marked nothing but what its sessions have, nor
has a look at the token before it. -/
theorem checkedPhase_leaves (hquiet : setup.Quiet) {v : World}
    (hv : v.Coherent) (hu : v.Registered goal.unit) (p : Phase) :
    Leaves (fun w => w = v) (do
        checkCancelled cancellable p
        runPhase setup goal g cancellable p)
      fun _ w => v.Within p.sessionLimit w :=
  .bind_triple (.checkCancelled fun _ hw => hw)
    (fun _ w hw => hw ▸ .refl p.sessionLimit w)
    fun _ => runPhase_leaves hquiet hv hu p

/-- A request fails before its phases begin, or breaks off in one of
them. -/
theorem resolveUnderLock_leaves (hquiet : setup.Quiet) {w w₁ : World}
    (hw : w.Coherent) (hu : w.Registered goal.unit)
    (hw₁ : w₁ = { w with counters := w.counters.countRequest }) :
    Leaves (fun v => v = w₁)
      (Action.resolveUnderLock setup goal phase cancellable)
      fun e w' => w.Within .imports w' ∨ ∃ p v,
        BreaksOff setup goal phase cancellable w e p v ∧
          v.Within p.sessionLimit w' := by
  have hI := (hw.steady_within .imports).and_registered goal.unit
  have hstart : (w₁.Coherent ∧ w.Within .imports w₁) ∧
      w₁.Registered goal.unit := by
    rw [hw₁]
    exact hI.counters w _ (Nat.le_refl _) ⟨⟨hw, .refl _ w⟩, hu⟩
  have hlock := lockForRequest_triple hI.thread goal.unit.id phase cancellable
  refine .bind (Q := fun g v => ((v.Coherent ∧ w.Within .imports v) ∧
    v.Registered goal.unit) ∧
      lockForRequest goal.unit.id phase cancellable w₁ = (.ok g, v)) ?_ ?_
        fun g => ?_
  · exact .of_triple (hlock.pre fun v hv => by rw [hv]; exact hstart)
      fun _ _ hv => Or.inl hv.1.2
  · rintro v g v' rfl hrun
    exact ⟨(hlock.ok hstart hrun).1, hrun⟩
  rintro v e w' ⟨hv, hg⟩ hrun
  unfold holding at hrun
  rcases hr : resolveLocked setup goal phase cancellable g v with ⟨r, v'⟩
  rw [hr] at hrun
  cases hrun
  rcases resolveLocked_leaves hI (fun _ hw => hw.2) hv v e v' rfl hr with
    hout | ⟨b, v₀, himports, hv₀, hphases⟩
  · exact Or.inl (hout.1.2.of_eq rfl rfl (Nat.le_refl _))
  · obtain ⟨done, p, rest, u, hsplit, hdone, hfail⟩ := each_error hphases
    have hcoherent := (Steady.coherent_self .bodies).and_registered goal.unit
    obtain ⟨hu', hreg⟩ := (hcoherent.runPhases (fun p _ => p.le_bodies) hquiet
      fun _ hw => hw.2).ok ⟨hv₀.1.1, hv₀.2⟩ hdone
    have hbegin : beginRequest goal phase cancellable w = (.ok g, v₀) := by
      unfold beginRequest
      rw [bind_run_ok (show count Counters.countRequest w = (.ok (), w₁) from
        hw₁ ▸ rfl), bind_run_ok hg, bind_run_ok himports]
      rfl
    refine Or.inr ⟨p, u, ⟨g, v₀, done, rest, v', hbegin, hsplit, hdone, hfail⟩, ?_⟩
    exact (checkedPhase_leaves hquiet hu' hreg p u e v' rfl hfail).of_eq rfl rfl
      (Nat.le_refl _)

end Action

/-- What a failed request leaves behind. If it fails before its phases
begin, only the imports of the file may have been marked. Otherwise some
phases were completed and the next one has failed; then all markers are
those that the completed phases have left (`v`), but for what sessions have
marked: in the supertype phase and in the last one markers may have risen
as far as the supertypes, and nowhere further. -/
theorem within_of_error {setup : Setup} (hquiet : setup.Quiet)
    {w w' : World} (hw : Reaches setup anyCall w) {allowLocal : Bool}
    {s : Symbol} {phase : Phase} {cancellable : Bool} {e : ResolveError}
    (hrun : Action.request setup allowLocal s phase cancellable w =
      (.error (.error e), w')) :
    w.Within .imports w' ∨ ∃ u goal p v, w.Registered u ∧
      u.designateWith allowLocal s.decl = .ok goal ∧
      BreaksOff setup goal phase cancellable w e p v ∧
      v.Within .supertypes w' ∧ (p ≠ .supertypes → p ≠ .bodies →
        ∀ c d, w'.Registered c →
          w'.own c d = v.own c d ∧ w'.below c d = v.below c d) := by
  have hcoherent := hw.coherent hquiet
  have hwithin : ∀ v, v = { w with counters := w.counters.countRequest } →
      w.Within .imports v := by
    rintro v rfl
    exact (Within.refl .imports w).of_eq rfl rfl (Nat.le_refl _)
  suffices hleaves : Leaves (fun v => v = w)
      (Action.request setup allowLocal s phase cancellable) fun e w' =>
        w.Within .imports w' ∨ ∃ u goal p v, w.Registered u ∧
          u.designateWith allowLocal s.decl = .ok goal ∧
          BreaksOff setup goal phase cancellable w e p v ∧
          v.Within p.sessionLimit w' by
    refine (hleaves w e w' rfl hrun).imp_right ?_
    rintro ⟨u, goal, p, v, hu, hgoal, hbreaks, hlimit⟩
    exact ⟨u, goal, p, v, hu, hgoal, hbreaks, hlimit.mono p.sessionLimit_le,
      fun hp hp' c d hc => (hlimit.mono (by
        cases p <;> first | exact absurd rfl hp | exact absurd rfl hp' | decide)
        ).eq_of_raw hc d⟩
  refine .bind (Q := fun _ v => v =
    { w with counters := w.counters.countRequest })
    ((Unfailing.update _).leaves _ _) ?_ fun _ => ?_
  · rintro v a v' rfl h
    cases h
    rfl
  split
  · exact .pure
  refine .bind (Q := fun r v => v =
    { w with counters := w.counters.countRequest } ∧
      w.registry.declaration s = .ok r) ?_ ?_ fun r => ?_
  · intro v e' v' hv h
    unfold Action.declaration at h
    cases hd : v.registry.declaration s <;> rw [hd] at h <;> cases h
    exact Or.inl (hwithin _ hv)
  · rintro v r v' rfl h
    unfold Action.declaration at h
    cases hd : w.registry.declaration s <;> rw [hd] at h <;> cases h
    exact ⟨rfl, rfl⟩
  obtain ⟨u, x⟩ := r
  dsimp only
  split
  · exact .pure
  · refine .assume fun hs => ?_
    have hu := (hcoherent.registered (Registry.declaration_eq_ok_iff.mp hs).1).1
    rcases hgoal : u.designateWith allowLocal s.decl with e' | goal
    · intro v e'' v' hv h
      cases h
      exact Or.inl (hwithin _ hv)
    obtain rfl := CompilationUnit.unit_of_designateWith hgoal
    show Leaves _ (Action.resolveDesignation setup goal phase cancellable) _
    refine Leaves.read_bind fun current => ?_
    split
    · exact (Unfailing.update _).leaves _ _
    · -- the markers do not answer, so the request goes on under the lock
      rintro v e' v' ⟨hv, -⟩ h
      obtain ⟨v₁, hrun₁, hr, hs, hd⟩ := countingCancellation_error h
      refine (resolveUnderLock_leaves hquiet hcoherent hu hv v e' v₁ rfl
        hrun₁).imp (fun h => h.of_eq hr hs hd) ?_
      rintro ⟨p, v₂, hbreaks, hlimit⟩
      exact ⟨goal.unit, goal, p, v₂, hu, hgoal, hbreaks, hlimit.of_eq hr hs hd⟩

/-- A resolver one hook of which fails a phase for declarations of one
name. -/
def Setup.failingAt (phase : Phase) (name : String) : Setup :=
  { Setup.plain .default with
    hooks := [.only (some phase) (some name) .failing] }

/-- Such a resolver is quiet. -/
theorem Setup.quiet_failingAt (phase : Phase) (name : String) :
    (failingAt phase name).Quiet := fun h hh => by
  rw [List.mem_singleton.mp hh]
  exact Hook.quiet_failing.only _ _

/-- The types of a function in a class cannot be resolved: the class and the
function keep the markers of the phases before. -/
theorem within_of_error_failingTypes :
    let setup := Setup.failingAt .types "f"
    let w := World.after setup [.addUnit .plainClass]
    let w' := (Action.request setup false ⟨⟨0⟩, ⟨2⟩⟩ .types false w).2
    let e := ResolveError.unexpectedKind ⟨⟨0⟩, ⟨2⟩⟩ .function .types
    w'.markers? ⟨⟨0⟩, ⟨1⟩⟩ = some (.sealedInheritors, .raw) ∧
      ∃ goal p v, BreaksOff setup goal .types false w e p v ∧
        v.Within .supertypes w' := by
  intro setup w w' e
  have hfails : (Action.request setup false ⟨⟨0⟩, ⟨2⟩⟩ .types false w).1 =
      .error (.error e) := by decide +kernel
  have hmarkers : w'.markers? ⟨⟨0⟩, ⟨1⟩⟩ = some (.sealedInheritors, .raw) := by
    decide +kernel
  refine ⟨hmarkers, ?_⟩
  rcases within_of_error (Setup.quiet_failingAt _ _) (Reaches.after setup _)
    (run_of_fst hfails) with hearly | ⟨u, goal, p, v, -, -, hbreaks, hlimit, -⟩
  · -- the supertypes of the class have been marked since
    have hbefore : w.markers? ⟨⟨0⟩, ⟨1⟩⟩ = some (.raw, .raw) := by decide +kernel
    have hw := (Reaches.after setup [.addUnit .plainClass]).coherent
      (Setup.quiet_failingAt .types "f")
    have := (hearly.le_markers_iff hw hbefore hmarkers
      (q := .supertypes) (by decide)).mp (by decide)
    exact absurd this (by decide)
  · exact ⟨goal, p, v, hbreaks, hlimit⟩

/-- The supertypes of a class are marked although the phase that resolved
them has failed. -/
theorem markers_raised_failingSupertypes :
    let setup := Setup.failingAt .supertypes "C"
    let w := World.after setup [.addUnit .plainClass]
    let run := Action.request setup false ⟨⟨0⟩, ⟨1⟩⟩ .supertypes false w
    run.1 = .error (.error (.unexpectedKind ⟨⟨0⟩, ⟨1⟩⟩ .classDecl .supertypes)) ∧
      w.markers? ⟨⟨0⟩, ⟨1⟩⟩ = some (.raw, .raw) ∧
      run.2.markers? ⟨⟨0⟩, ⟨1⟩⟩ = some (.supertypes, .raw) := by
  decide +kernel

end StagedResolve
