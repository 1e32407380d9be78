/-
One phase for a designation, from entering its unit to its commit.

A phase begins a session of its own, walks, and commits what the walk
came by. What holds between phases (`I`) and what holds during a walk
(`K`) need not be the same: the walk of the supertype phase knows about
its session, and the commit has to make up for what the walk does not
care about. `runPhase_advances` is the frame in which the parts meet;
what a particular account of the markers has to show is what its work
establishes and what its commit needs.
-/
import StagedResolve.Proofs.Commits
import StagedResolve.Proofs.Requests

namespace StagedResolve

open StagedResolve.Action World

-- ============================================================ the route up

namespace Walk.Route

variable {rule : PhaseRule} {c : Context} {D : DeclId → World → Prop}
  {goal : Designation} {v : Visits} {w : World}

/-- What is visited has a parent. -/
theorem parent_isSome {parent : DeclId} (h : Route rule c D goal parent v w)
    {d : DeclId} (hd : d ∈ v.headers ∨ d ∈ v.members) :
    ∃ q, c.unit.parent? d = some q := by
  rcases hd with hd | hd
  · rcases (h.header d hd).2 with hp | ⟨q, -, hp⟩
    · exact ⟨_, hp⟩
    · exact ⟨q, hp⟩
  · rcases h.member d hd with ⟨-, hp | ⟨q, -, hp⟩⟩ | ⟨-, q, -, hp⟩ |
      ⟨-, q, -, hp⟩
    · exact ⟨_, hp⟩
    · exact ⟨q, hp⟩
    · exact ⟨q, hp⟩
    · exact ⟨q, hp⟩

/-- What is visited is there. -/
theorem decl_isSome {parent : DeclId} (h : Route rule c D goal parent v w)
    {d : DeclId} (hd : d ∈ v.headers ∨ d ∈ v.members) :
    (c.unit.decl? d).isSome := by
  obtain ⟨q, hq⟩ := h.parent_isSome hd
  obtain ⟨x, hx, -⟩ := Option.bind_eq_some_iff.mp hq
  rw [hx]
  rfl

/-- The parent of what is visited is the file, or visited. -/
theorem parent (h : Route rule c D goal .root v w) {d q : DeclId}
    (hd : d ∈ v.headers ∨ d ∈ v.members) (hq : c.unit.parent? d = some q) :
    q.isRoot = true ∨ q ∈ v.headers ∨ q ∈ v.members := by
  have htop : ∀ {p : DeclId}, c.unit.parent? d = some p → p = q :=
    fun hp => Option.some.inj (hp.symm.trans hq)
  rcases hd with hd | hd
  · rcases (h.header d hd).2 with hp | ⟨p, hmem, hp⟩
    · rw [← htop hp]
      exact Or.inl rfl
    · rw [← htop hp]
      exact Or.inr (Or.inl hmem)
  · rcases h.member d hd with ⟨-, hp | ⟨p, hmem, hp⟩⟩ | ⟨-, p, hmem, hp⟩ |
      ⟨-, p, hmem, hp⟩
    · rw [← htop hp]
      exact Or.inl rfl
    · rw [← htop hp]
      exact Or.inr (Or.inl hmem)
    · rw [← htop hp]
      exact Or.inr (Or.inl hmem)
    · rw [← htop hp]
      exact Or.inr (Or.inr hmem)

/-- Everything around what is visited is visited, up to the file. -/
theorem ancestors (hu : c.unit.WellFormed) (h : Route rule c D goal .root v w)
    {d a : DeclId} (hd : d ∈ v.headers ∨ d ∈ v.members)
    (ha : a ∈ c.unit.ancestors d) :
    a.isRoot = true ∨ a ∈ v.headers ∨ a ∈ v.members := by
  induction d using hu.parent_induction with
  | top d hp =>
      rw [CompilationUnit.WellFormed.ancestors_of_no_parent hp] at ha
      cases ha
  | step d p hp ih =>
      rw [hu.ancestors_of_parent hp] at ha
      have hup := h.parent hd hp
      rcases List.mem_cons.mp ha with rfl | ha
      · exact hup
      · rcases hup with hroot | hup
        · -- there is nothing around the file
          have hlt := hu.index_lt_of_mem_ancestors ha
          have hzero : p.index = 0 := eq_of_beq hroot
          omega
        · exact ih hup ha

end Walk.Route

-- ============================================================= the commit

/-- What own markers have reached once a walk is committed. -/
theorem World.Rewrites.le_own_iff {u : CompilationUnit} {v : Visits}
    {p q : Phase} {w w' : World} {d : DeclId}
    (h : Rewrites u (v.committed p) w w') (hu : w.Registered u) :
    q ≤ w'.own u d ↔
      q ≤ w.own u d ∨ ((d ∈ v.headers ∨ d ∈ v.members) ∧ q ≤ p) := by
  rw [World.own, h.state_self hu]
  unfold Visits.committed
  dsimp only
  split
  · next hd => simp [hd, Phase.le_raise_iff, World.own]
  · next hd => simp [hd, World.own]

/-- What markers of wholes have reached once a walk is committed. -/
theorem World.Rewrites.le_below_iff {u : CompilationUnit} {v : Visits}
    {p q : Phase} {w w' : World} {d : DeclId}
    (h : Rewrites u (v.committed p) w w') (hu : w.Registered u) :
    q ≤ w'.below u d ↔ q ≤ w.below u d ∨ (d ∈ v.members ∧ q ≤ p) := by
  rw [World.below, h.state_self hu]
  unfold Visits.committed
  dsimp only
  split
  · next hd => simp [hd, Phase.le_raise_iff, World.below]
  · next hd => simp [hd, World.below]

/-- A commit lowers no marker. -/
theorem World.Rewrites.later {u : CompilationUnit} {v : Visits} {p : Phase}
    {w w' : World} (h : Rewrites u (v.committed p) w w') : w.Onward w' := by
  refine ⟨⟨?_, fun u' e hu' => ?_, fun u' e hu' => ?_, ?_⟩,
    fun hw' => h.registry ▸ hw', h.registry ▸ .refl _⟩
  · rw [h.registry]
    exact .refl _
  · rw [World.own, World.own, h.state u' e hu']
    split
    · next heq =>
      subst heq
      unfold Visits.committed
      dsimp only
      split
      · exact Phase.le_raise _ _
      · exact Phase.le_refl _
    · exact Phase.le_refl _
  · rw [World.below, World.below, h.state u' e hu']
    split
    · next heq =>
      subst heq
      unfold Visits.committed
      dsimp only
      split
      · exact Phase.le_raise _ _
      · exact Phase.le_refl _
    · exact Phase.le_refl _
  · exact Nat.le_of_eq (by rw [h.rest])

/-- A commit changes no slots. -/
theorem World.Rewrites.slots {u : CompilationUnit} {v : Visits} {p : Phase}
    {w w' : World} (h : Rewrites u (v.committed p) w w') (u' : CompilationUnit)
    (d : DeclId) (hu' : w.Registered u') : w'.slots u' d = w.slots u' d := by
  rw [World.slots, World.slots, h.state u' d hu']
  split
  · next heq =>
    subst heq
    rfl
  · rfl

/-- A commit keeps a world coherent. -/
theorem World.Rewrites.coherent {u : CompilationUnit} {v : Visits} {p : Phase}
    {w w' : World} (h : Rewrites u (v.committed p) w w') (hw : w.Coherent)
    (hu : w.Registered u) : w'.Coherent := by
  have hlater := h.later
  refine ⟨by rw [h.registry]; exact hw.registry, fun s hs => ?_,
    fun u' d x hu' hx => ?_, fun u' d x hu' hx => ?_⟩
  · rw [h.registry] at hs
    rw [h.others s ?_]
    · exact hw.fresh s hs
    · intro heq
      have := hw.registry.issued u.id u hu
      rw [heq] at hs
      omega
  · have hu := h.registered_iff.mp hu'
    exact Phase.le_trans (hw.startOwn u' d x hu hx) (hlater.own u' d hu)
  · have hu := h.registered_iff.mp hu'
    exact Phase.le_trans (hw.startBelow u' d x hu hx) (hlater.below u' d hu)

/-- A commit under the guard of the unit establishes what follows from the
new markers. -/
theorem Visits.commit_triple {S : World → World → Prop} [Course S]
    {rule : PhaseRule} {c : Context} {D : DeclId → World → Prop}
    {goal : Designation} {g : Guard} {phase : Phase} {v : Visits}
    {K I T E R : World → Prop} (hR : KeptBy S R)
    (hg : g.lock = .ofUnit goal.unit.id) (hunit : c.unit = goal.unit)
    (hu : ∀ w, K w → w.Registered goal.unit)
    (hcommit : ∀ w w', K w → Walk.Route rule c D goal .root v w →
      goal.target ∈ v.members →
      Rewrites goal.unit (v.committed phase) w w' → I w' ∧ T w') :
    Triple (fun w => (K w ∧ R w) ∧ Walk.Route rule c D goal .root v w ∧
        goal.target ∈ v.members) (v.commit g goal.unit phase)
      (fun _ w => I w ∧ R w ∧ T w) E := by
  rintro w ⟨⟨hK, hRw⟩, hroute, htarget⟩
  obtain ⟨w', hrun, hw'⟩ := commit_run (p := phase) hg (hu w hK)
    fun d hd => hunit ▸ hroute.decl_isSome hd
  rw [hrun]
  obtain ⟨hI, hT⟩ := hcommit w w' hK hroute htarget hw'
  exact ⟨hI, hR w w' (Course.of_slots w w' hw'.later hw'.slots) hRw, hT⟩

-- ============================================================== one phase

/-- The context of a phase is that of its unit. -/
theorem Static.enter {I : World → Prop} (hI : Static I) (setup : Setup)
    (u : CompilationUnit) (g : Guard) (cancellable : Bool) :
    Triple I (Context.enter setup u g cancellable) (fun c w => I w ∧
      (c.setup = setup ∧ c.unit = u ∧ c.guard = g ∧
        c.cancellable = cancellable)) I := by
  refine .bind (hI.lookups.ofUnit _ fun v w h => by rw [h.1]).triple
    fun scope => ?_
  exact .pure fun w hw => ⟨hw, rfl, rfl, rfl, rfl⟩

/-- A phase keeps what holds between phases and establishes what its
commit does. -/
theorem runPhase_advances {S : World → World → Prop} [Course S]
    {setup : Setup} {goal : Designation} {g : Guard} {cancellable : Bool}
    {phase : Phase} {I K E T : World → Prop} {D : DeclId → World → Prop}
    (hI : Static I) (hIE : ∀ w, I w → E w) (hT : KeptBy S T)
    (hidle : phase.rule? = none → ∀ w, I w → T w)
    (hstart : ∀ w, I w → K { w with session := .start })
    (hwalk : ∀ rule c, phase.rule? = some rule → c.setup = setup →
      c.unit = goal.unit → c.guard = g →
      Walk.EstablishesBy S rule c goal K E D)
    (hcommit : ∀ rule c v R, phase.rule? = some rule →
      c.unit = goal.unit → KeptBy S R →
      Triple (fun w => (K w ∧ R w) ∧ Walk.Route rule c D goal .root v w ∧
          goal.target ∈ v.members) (v.commit g goal.unit phase)
        (fun _ w => I w ∧ R w ∧ T w) E) :
    AdvancesBy S I (runPhase setup goal g cancellable phase) (fun _ => T)
      E := by
  intro R hR
  unfold runPhase
  cases hrule : phase.rule? with
  | none => exact .pure fun w hw => ⟨hw, hidle hrule w hw.1⟩
  | some rule =>
      have hIR := hI.and_lasting hR
      refine .bind ((hIR.enter setup goal.unit g cancellable).conseq
        (fun _ hw => hw) (fun _ _ hw => hw) fun w hw => hIE w hw.1) fun c => ?_
      refine .assume ?_
      rintro ⟨hsetup, hunit, hguard, -⟩
      have hstep := hwalk rule c hrule hsetup hunit hguard
      -- the session starts afresh
      refine .bind (Q := fun _ w => K w ∧ R w) (.update fun w hw => ?_)
        fun _ => ?_
      · exact ⟨hstart w hw.1, hR.of_eq w _ rfl rfl (Nat.le_refl _) hw.2⟩
      refine .bind (hstep.run R hR) fun v => ?_
      refine .bind (hcommit rule c v R hrule hunit hR) fun _ => ?_
      have hIRT := hI.and_lasting (hR.and hT)
      have hcount : ∀ n : Counters, n.deferred ≤ (n.countCommit phase).deferred :=
        fun _ => Nat.le_refl _
      refine .bind ((hIRT.count hcount).conseq (fun _ hw => hw)
        (fun _ _ hw => hw) fun w hw => hIE w hw.1) fun _ => ?_
      have hend : ∀ w, I w ∧ R w ∧ T w → (I w ∧ R w) ∧ T w :=
        fun w hw => ⟨⟨hw.1, hw.2.1⟩, hw.2.2⟩
      split
      · unfold checkMarkers
        refine .read_then fun fault => ?_
        cases fault with
        | none => exact .pure hend
        | some f => exact .stop fun w hw => hIE w hw.1
      · exact .pure hend

/-- Phases one after the other, with a look at the token before each. -/
theorem runPhases_advances {S : World → World → Prop} {setup : Setup}
    {goal : Designation} {g : Guard} {cancellable : Bool}
    {phases : List Phase} {I E : World → Prop} {T : Phase → World → Prop}
    (hIE : ∀ w, I w → E w) (hT : ∀ p, KeptBy S (T p))
    (h : ∀ p ∈ phases, AdvancesBy S I (runPhase setup goal g cancellable p)
      (fun _ => T p) E) :
    AdvancesBy S I (runPhases setup goal g cancellable phases)
      (fun _ w => ∀ p ∈ phases, T p w) E := by
  refine .each hT fun p hp => ?_
  refine .andThen (Q := fun _ _ => True) (fun R _ => ?_) fun _ => h p hp
  exact (Triple.checkCancelled fun w hw => hIE w hw.1).post
    fun _ _ hw => ⟨hw, trivial⟩

end StagedResolve
