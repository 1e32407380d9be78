/-
Inference: every value has its type once a request for types answers.

# One phase

A walk resolves the signatures of what it visits in the phase of types,
and infers types in the phase of implicit types; in the last phase a
declaration in executable code catches up on both (`Walk.ValueDone`). What
is visited outside of executable code in a later phase has gone through
the earlier ones, since the target has (`World.Attained`). So the markers
that a commit raises stand for what they should.

# A request

Phases are run in order, beginning with the first that the markers do not
answer; so when the last one is over the target has attained it
(`valueTypes_of_resolve`).

# What is not promised

A type parameter may have members. A walk that passes a class works on its
type parameters and marks them as wholes, and nobody looks at their
members any more (`not_valueTypes`).
-/
import StagedResolve.Proofs.Values

namespace StagedResolve

open StagedResolve.Action World

-- ================================================================ visits

/-- What is on the path of a designation has a member: the next one on the
way to the target. -/
theorem CompilationUnit.Regular.hasMembers_of_path {allowLocal : Bool}
    {s d : DeclId} {goal : Designation} (hr : goal.unit.Regular)
    (hwf : goal.unit.WellFormed)
    (hgoal : goal.unit.designateWith allowLocal s = .ok goal)
    (heligible : ∀ a ∈ goal.target :: goal.unit.ancestors goal.target,
      goal.unit.isEligible a = true)
    (hd : d ∈ goal.path) : goal.unit.hasMembers d = true := by
  have habove := ((CompilationUnit.mem_path_iff hgoal).mp hd).1
  obtain ⟨m, hparent, hmem⟩ := hwf.exists_child_of_mem_ancestors habove
  have hplace : m ∈ goal.path ++ [goal.target] := by
    rcases hmem with rfl | hmem
    · simp
    · refine List.mem_append_left _
        ((CompilationUnit.mem_path_iff hgoal).mpr ⟨hmem, ?_⟩)
      refine Bool.eq_false_iff.mpr fun hroot => ?_
      rw [DeclId.eq_root hroot] at hparent
      exact Nat.not_lt_zero _ (hwf.earlier .root d hparent)
  refine List.any_eq_true.mpr ⟨m, (hwf.child_iff d m).mpr hparent, ?_⟩
  rw [hr.nonlocal allowLocal s goal hgoal m hplace,
    heligible m (List.mem_cons.mpr hmem)]
  rfl

namespace Walk

variable {rule : PhaseRule} {c : Context} {D : DeclId → World → Prop}
  {goal : Designation} {visits : Visits} {w : World}

/-- What a walk marks as a whole is the target or something below it, or it
has to do with a type parameter on the way. -/
theorem Route.target_or_parameter (hwf : c.unit.WellFormed)
    (h : Route rule c D goal .root visits w) {d : DeclId}
    (hd : d ∈ visits.members) :
    (d = goal.target ∨ goal.target ∈ c.unit.ancestors d) ∨
      ∃ a ∈ d :: c.unit.ancestors d, c.unit.kind? a = some .typeParameter := by
  induction d using hwf.parent_induction with
  | top d hp =>
      obtain ⟨q, hq⟩ := h.parent_isSome (Or.inr hd)
      exact nomatch hp.symm.trans hq
  | step d p hp ih =>
      rcases h.member d hd with ⟨heq, -⟩ | ⟨hk, -⟩ | ⟨-, q, hq, hparent⟩
      · exact Or.inl (Or.inl heq)
      · exact Or.inr ⟨d, List.mem_cons_self .., hk⟩
      · obtain rfl := Option.some.inj (hp.symm.trans hparent)
        rw [hwf.ancestors_of_parent hp]
        rcases ih hq with (rfl | habove) | ⟨a, ha, hk⟩
        · exact Or.inl (Or.inr (List.mem_cons_self ..))
        · exact Or.inl (Or.inr (List.mem_cons_of_mem _ habove))
        · exact Or.inr ⟨a, List.mem_cons_of_mem _ ha, hk⟩

/-- What the work of a phase establishes for the target and what is below
it. -/
def ValueDone (rule : PhaseRule) (goal : Designation) (d : DeclId)
    (w : World) : Prop :=
  w.Registered goal.unit ∧ (goal.Holds d →
    (rule.phase = .types → (w.slots goal.unit d).Signed) ∧
    (rule.phase = .implicitTypes → goal.unit.isLocal d = false →
      (w.slots goal.unit d).Typed) ∧
    (rule.phase = .bodies → goal.unit.isLocal d = true →
      CaughtUp goal.unit d w))

/-- It is there to stay. -/
theorem kept_valueDone (rule : PhaseRule) (goal : Designation) (d : DeclId) :
    KeptBy World.Ripens (ValueDone rule goal d) := by
  rintro v w h ⟨hu, hv⟩
  have hslots := h.slots goal.unit d hu
  refine ⟨h.later.registered hu, fun hd => ?_⟩
  obtain ⟨hsigned, htyped, hcaught⟩ := hv hd
  exact ⟨fun hp => hslots.signed (hsigned hp),
    fun hp hl => hslots.typed (htyped hp hl),
    fun hp hl => kept_caughtUp _ d v w h (hcaught hp hl)⟩

end Walk

namespace World

variable {v w : World} {rule : PhaseRule} {c : Context} {phase : Phase}
  {goal : Designation} {visits : Visits} {allowLocal : Bool} {s : DeclId}

/-- What holds a value and was visited is as far as the phase wants it. -/
theorem Inferring.visited (hw : w.Inferring) (hrule : phase.rule? = some rule)
    (hgoal : goal.unit.designateWith allowLocal s = .ok goal)
    (hunit : c.unit = goal.unit) (hu : w.Registered goal.unit)
    (hbefore : ∀ q, .supertypes < q → q.isExtension = false → q < phase →
      Attained goal q w)
    (hroute : Walk.Route rule c (Walk.ValueDone rule goal) goal .root visits w)
    {d : DeclId} (hd : d ∈ visits.headers ∨ d ∈ visits.members)
    (hvalue : goal.unit.HoldsValue d) :
    (.types ≤ phase → (w.slots goal.unit d).Signed) ∧
      (.implicitTypes ≤ phase → (w.slots goal.unit d).Typed) := by
  have hwf := hw.grounded.coherent.wellFormed hu
  obtain rfl := Phase.phase_of_rule? hrule
  have hmember : d ∈ visits.members := by
    refine hd.resolve_left fun hd => ?_
    have hpath := List.contains_iff_mem.mp (hroute.header d hd).1
    rcases hvalue.regular.path _ s goal hgoal d hpath with hk | hk
    · exact hvalue.kind_ne rfl hk
    · exact hvalue.kind_ne rfl hk
  have hholds : goal.Holds d := by
    refine ⟨hvalue, ?_⟩
    have hwhere := hroute.target_or_parameter (hunit ▸ hwf) hmember
    rw [hunit] at hwhere
    refine hwhere.resolve_right ?_
    rintro ⟨a, ha, hk⟩
    rcases List.mem_cons.mp ha with rfl | ha
    · exact hvalue.kind_ne rfl hk
    · exact hvalue.parameter a ha hk
  -- what is in executable code is visited in the last phase only
  have hin : goal.unit.isLocal d = true → rule.phase = .bodies := by
    intro hlocal
    rcases hroute.member d hmember with ⟨rfl, -⟩ | ⟨hk, -⟩ | ⟨henters, -⟩
    · have htarget := hvalue.regular.nonlocal _ s goal hgoal goal.target
        (by simp)
      exact absurd (htarget.symm.trans hlocal) (by decide)
    · rw [hunit] at hk
      exact absurd hk (hvalue.kind_ne rfl)
    · exact (Phase.inBodies_iff hrule).mp (henters.2 (hunit ▸ hlocal))
  obtain ⟨hsigned, htyped, hcaught⟩ := (hroute.done d (Or.inr hmember)).2 hholds
  cases hlocal : goal.unit.isLocal d with
  | true =>
      obtain ⟨-, hs, ht⟩ := hcaught (hin hlocal) hlocal
      exact ⟨fun _ => hs, fun _ => ht hvalue.kind⟩
  | false =>
      have hpromise : ∀ q, goal.Promises q d := fun _ => ⟨hholds, Or.inl hlocal⟩
      have hfar : ∀ q, .supertypes < q → q.isExtension = false →
          q ≤ rule.phase → rule.phase = q ∨ q ≤ w.own goal.unit d := by
        intro q hq hrun hle
        by_cases hlt : q < rule.phase
        · exact Or.inr ((hbefore q hq hrun hlt).2 d (hpromise q))
        · exact Or.inl (Phase.position_inj (Nat.le_antisymm
            (Phase.le_of_not_lt hlt) hle))
      refine ⟨fun hle => ?_, fun hle => ?_⟩
      · exact (hfar .types (by decide) rfl hle).elim hsigned
          ((hw.inferred _ hu).signed d hvalue)
      · exact (hfar .implicitTypes (by decide) rfl hle).elim
          (fun hp => htyped hp hlocal) ((hw.inferred _ hu).typed d hvalue)

/-- A commit raises markers only for what has come as far. -/
theorem Inferring.commit (hw : w.Inferring) (hrule : phase.rule? = some rule)
    (hgoal : goal.unit.designateWith allowLocal s = .ok goal)
    (hunit : c.unit = goal.unit) (hu : w.Registered goal.unit)
    (heligible : ∀ a ∈ goal.target :: goal.unit.ancestors goal.target,
      goal.unit.isEligible a = true)
    (himports : .imports ≤ w.own goal.unit .root)
    (hbefore : ∀ q, .supertypes < q → q.isExtension = false → q < phase →
      Attained goal q w)
    (hroute : Walk.Route rule c (Walk.ValueDone rule goal) goal .root visits w)
    (h : Rewrites goal.unit (visits.committed phase) w v) : v.Inferring := by
  have hwf := hw.grounded.coherent.wellFormed hu
  have hvisited := fun d => hw.visited (d := d) hrule hgoal hunit hu hbefore
    hroute
  obtain rfl := Phase.phase_of_rule? hrule
  refine ⟨hw.grounded.unmoved h.unmoved (h.coherent hw.grounded.coherent hu),
    ?_, fun u hv => ?_⟩
  · rw [← hunit] at hwf hu himports h
    exact hw.chained.commit hwf hu himports hroute h
  have hreg := h.registered_iff.mp hv
  by_cases hcu : u = goal.unit
  · subst hcu
    have hold := hw.inferred _ hu
    constructor
    case signed =>
      intro d hd hle
      rw [h.slots _ d hu]
      rcases (h.le_own_iff hu).mp hle with hle | ⟨hvisit, hle⟩
      · exact hold.signed d hd hle
      · exact (hvisited d hvisit hd).1 hle
    case typed =>
      intro d hd hle
      rw [h.slots _ d hu]
      rcases (h.le_own_iff hu).mp hle with hle | ⟨hvisit, hle⟩
      · exact hold.typed d hd hle
      · exact (hvisited d hvisit hd).2 hle
    case inside =>
      intro d m hm hk hd he hle
      refine (h.le_below_iff hu).mpr ?_
      rcases (h.le_below_iff hu).mp hle with hle | ⟨hvisit, hle⟩
      · exact Or.inl (hold.inside d m hm hk hd he hle)
      rw [← hunit] at hk hm he hwf ⊢
      rcases hroute.full d hvisit hk m ((hwf.child_iff d m).mpr hm) with
        hmem | ⟨-, hleft⟩
      · exact Or.inr ⟨hmem, hle⟩
      · rcases hleft with hleft | ⟨-, hleft⟩ | hleft
        · exact absurd (hleft.symm.trans he) (by decide)
        · have hbodies : rule.phase = .bodies := Phase.position_inj
            (Nat.le_antisymm rule.phase.le_bodies hle)
          exact absurd (hleft.symm.trans
            ((Phase.inBodies_iff hrule).mpr hbodies)) (by decide)
        · exact Or.inl (Phase.le_trans hle hleft)
    case leaf =>
      intro d hr hd he hm hle
      refine (h.le_below_iff hu).mpr ?_
      rcases (h.le_own_iff hu).mp hle with hle | ⟨hvisit | hvisit, hle⟩
      · exact Or.inl (hold.leaf d hr hd he hm hle)
      · have hmembers := hr.hasMembers_of_path hwf hgoal heligible
          (List.contains_iff_mem.mp (hroute.header d hvisit).1)
        exact absurd (hm.symm.trans hmembers) (by decide)
      · exact Or.inr ⟨hvisit, hle⟩
  · have hstate : ∀ d, v.state u d = w.state u d := by
      intro d
      rw [h.state u d hreg, if_neg hcu]
    refine (hw.inferred u hreg).of_marks
      (fun d p _ _ => by rw [own, own, hstate])
      (fun d p _ => by rw [below, below, hstate]) fun d _ => ?_
    rw [slots, slots, hstate]
    exact .refl _

-- ============================================================= one phase

/-- What there is once phases were run for a designation: the imports of
the file, and what those beyond the supertype phase bring. -/
def Standing (goal : Designation) (P : Phase → Prop) (w : World) : Prop :=
  (w.Registered goal.unit ∧ .imports ≤ w.own goal.unit .root) ∧
    ∀ q, .supertypes < q → q.isExtension = false → P q → Attained goal q w

/-- It lasts. -/
theorem lasting_standing (goal : Designation) (P : Phase → Prop) :
    Lasting (Standing goal P) :=
  (lasting_own goal.unit .root .imports).and
    (.all fun q => .all fun _ => .all fun _ => .all fun _ =>
      lasting_attained goal q)

/-- Fewer phases bring less. -/
theorem Standing.mono {P P' : Phase → Prop} (hw : Standing goal P w)
    (h : ∀ q, .supertypes < q → q.isExtension = false → P' q → P q) :
    Standing goal P' w :=
  ⟨hw.1, fun q hq hrun hP => hw.2 q hq hrun (h q hq hrun hP)⟩

/-- What a request brings for a designation that is not that of a file. -/
def Brought (goal : Designation) (p : Phase) (w : World) : Prop :=
  w.Registered goal.unit ∧ (goal.isFile = false →
    ∀ q, .supertypes < q → q.isExtension = false → q ≤ p → Attained goal q w)

/-- It lasts. -/
theorem lasting_brought (goal : Designation) (p : Phase) :
    Lasting (Brought goal p) :=
  (lasting_registered goal.unit).and (.all fun _ => .all fun q =>
    .all fun _ => .all fun _ => .all fun _ => lasting_attained goal q)

/-- A world in which a phase may be run, since the earlier ones were. -/
abbrev Primed (goal : Designation) (p : Phase) (w : World) : Prop :=
  w.Inferring ∧ Standing goal (· < p) w

/-- The walk of a phase. -/
abbrev Inferring.Walking (goal : Designation) (p : Phase) (t : Thread)
    (w : World) : Prop :=
  Primed goal p w ∧ Rested goal.unit.id t w

end World

namespace World.Inferring

variable {goal : Designation} {t : Thread} {c : Context} {p : Phase}
  {rule : PhaseRule} {allowLocal : Bool} {s d : DeclId}

/-- Looking up leaves a world primed. -/
theorem detached_primed (goal : Designation) (p : Phase) :
    Detached (Primed goal p) :=
  detached.and_lasting (lasting_standing goal (· < p))

/-- Riper slots leave the walk as it was. -/
theorem ripening_walking (goal : Designation) (p : Phase) (t : Thread) :
    Ripening (Walking goal p t) :=
  (ripening.and_kept (lasting_standing goal (· < p)).keptBy).rested
    (detached_primed goal p) goal.unit.id t

/-- So does the session for a class. -/
theorem classSupertypes (hunit : c.unit = goal.unit)
    (hguard : c.guard.lock = .ofUnit goal.unit.id) :
    AdvancesBy World.Ripens (Walking goal p t)
      (PhaseRule.classSupertypes c d) (fun _ _ => True) World.Inferring := by
  intro R hR
  have hback := ((tended.and_kept (lasting_standing goal (· < p)).keptBy).and_kept
    hR).writesBack c.unit.id t
  have hrun := (hback.classSupertypes_advances
    (fun w hw => hunit ▸ hw.1.2.1.1) (hunit ▸ hguard) d).keeps
  rw [hunit] at hrun
  exact hrun.conseq (fun _ hw => ⟨⟨hw.1.1, hw.2⟩, hw.1.2⟩)
    (fun _ _ hw => ⟨⟨⟨hw.1.1, hw.2⟩, hw.1.2⟩, trivial⟩) fun _ hw => hw.1.1

/-- So does work that lets slots ripen. -/
theorem walking_keeps {x : Action Unit} (hunit : c.unit = goal.unit)
    (hx : ∀ J, Ripening J → (∀ w, J w → w.Registered c.unit) →
      Triple J x (fun _ => J) J) :
    AdvancesBy World.Ripens (Walking goal p t) x (fun _ _ => True)
      World.Inferring :=
  (ripening_walking goal p t).advances (fun _ hw => hw.1.1) fun J hJ hJK =>
    (hx J hJ fun w hw => hunit ▸ (hJK w hw).1.2.1.1).post
      fun _ _ hw => ⟨hw, trivial⟩

/-- The work on a declaration on the path. -/
theorem onHeader (hunit : c.unit = goal.unit)
    (hguard : c.guard.lock = .ofUnit goal.unit.id)
    (hrule : p.rule? = some rule) :
    AdvancesBy World.Ripens (Walking goal p t) (rule.onHeader c d)
      (fun _ _ => True) World.Inferring := by
  cases p with
  | raw | imports | extensionAnnotations | extensionStatus | newMembers =>
      cases hrule
  | supertypes =>
      cases hrule
      exact classSupertypes hunit hguard
  | types =>
      cases hrule
      exact walking_keeps hunit fun J hJ hu => hJ.resolveAnnotations hu
  | status =>
      cases hrule
      exact walking_keeps hunit fun J hJ hu => hJ.storeStatus hu
  | sealedInheritors | contracts | implicitTypes | bodies =>
      cases hrule
      exact .pure fun _ _ => trivial

/-- The work on the target or on something below it. -/
theorem onMember (hunit : c.unit = goal.unit)
    (hguard : c.guard.lock = .ofUnit goal.unit.id)
    (hrule : p.rule? = some rule) :
    AdvancesBy World.Ripens (Walking goal p t) (rule.onMember c d)
      (fun _ => Walk.ValueDone rule goal d) World.Inferring := by
  have hK := ripening_walking goal p t
  have hstop : ∀ w, Walking goal p t w → w.Inferring := fun _ hw => hw.1.1
  have hreg : ∀ w, Walking goal p t w → w.Registered c.unit :=
    fun _ hw => hunit ▸ hw.1.2.1.1
  have hdone : ∀ w, Walking goal p t w → (goal.Holds d →
      (rule.phase = .types → (w.slots goal.unit d).Signed) ∧
      (rule.phase = .implicitTypes → goal.unit.isLocal d = false →
        (w.slots goal.unit d).Typed) ∧
      (rule.phase = .bodies → goal.unit.isLocal d = true →
        CaughtUp goal.unit d w)) → Walk.ValueDone rule goal d w :=
    fun _ hw h => ⟨hw.1.2.1.1, h⟩
  -- most phases have nothing to do with signatures
  have hplain : ∀ {x : Action Unit}, (rule.phase ≠ .types ∧
      rule.phase ≠ .implicitTypes ∧ rule.phase ≠ .bodies) →
      AdvancesBy World.Ripens (Walking goal p t) x (fun _ _ => True)
        World.Inferring →
      AdvancesBy World.Ripens (Walking goal p t) x
        (fun _ => Walk.ValueDone rule goal d) World.Inferring := fun hne h =>
    h.post fun _ w hw _ => hdone w hw fun _ => ⟨fun h => absurd h hne.1,
      fun h => absurd h hne.2.1, fun h => absurd h hne.2.2⟩
  cases p with
  | raw | imports | extensionAnnotations | extensionStatus | newMembers =>
      cases hrule
  | supertypes =>
      cases hrule
      exact hplain (by decide) (classSupertypes hunit hguard)
  | sealedInheritors =>
      cases hrule
      exact hplain (by decide) (.pure fun _ _ => trivial)
  | types =>
      cases hrule
      refine (hK.advances (Q := fun w => (w.slots c.unit d).Signed) hstop
        fun J hJ hJK => hJ.resolveSignature fun w hw => hreg w (hJK w hw)).post
          fun _ w hw hsigned => hdone w hw fun _ => ?_
      exact ⟨fun _ => hunit ▸ hsigned, nofun, nofun⟩
  | status =>
      cases hrule
      exact hplain (by decide)
        (walking_keeps hunit fun J hJ hu => hJ.storeStatus hu)
  | contracts =>
      cases hrule
      exact hplain (by decide)
        (walking_keeps hunit fun J hJ hu => hJ.storeContract hu)
  | implicitTypes =>
      cases hrule
      refine (hK.advances (Q := fun w => goal.Holds d ∧
        goal.unit.isLocal d = false → (w.slots c.unit d).Typed) hstop
          fun J hJ hJK => hJ.inferType (fun w hw => hreg w (hJK w hw))
            fun hd => ⟨hunit ▸ hd.1.1.kind, fun w hw => ?_⟩).post
              fun _ w hw htyped => hdone w hw fun hd => ?_
      · -- the signature was resolved in an earlier phase
        obtain ⟨⟨hinferring, ⟨hu, -⟩, hbefore⟩, -⟩ := hJK w hw
        have hattained := hbefore .types (by decide) rfl (by decide)
        rw [hunit]
        exact (hinferring.inferred _ hu).signed d hd.1.1
          (hattained.2 d ⟨hd.1, Or.inl hd.2⟩)
      · exact ⟨nofun, fun _ hl => hunit ▸ htyped ⟨hd, hl⟩, nofun⟩
  | bodies =>
      cases hrule
      refine (hK.resolveBody hstop hreg (classSupertypes hunit hguard)).post
        fun _ w hw hcaught => hdone w hw fun _ => ⟨nofun, nofun, fun _ hl => ?_⟩
      rw [← hunit] at hl ⊢
      exact hcaught hl

variable {setup : Setup}

/-- The work of a walk. -/
theorem establishes (hsilent : setup.Silent) (hsetup : c.setup = setup)
    (hgoal : goal.unit.designateWith allowLocal s = .ok goal)
    (hwf : goal.unit.WellFormed) (hunit : c.unit = goal.unit)
    (hguard : c.guard.lock = .ofUnit goal.unit.id)
    (hrule : p.rule? = some rule) :
    Walk.EstablishesBy World.Ripens rule c goal (Walking goal p t)
      World.Inferring (Walk.ValueDone rule goal) := by
  have hK := ripening_walking goal p t
  have hreg : ∀ w, Walking goal p t w → w.Registered c.unit :=
    fun _ hw => hunit ▸ hw.1.2.1.1
  have hhooks : ∀ {T : World → Prop} (q : Phase) (d : DeclId),
      KeptBy World.Ripens T →
      AdvancesBy World.Ripens (fun w => Walking goal p t w ∧ T w)
        (c.runHooks q d) (fun _ => T) World.Inferring := fun q d hT =>
    (hK.and_kept hT).advances (fun _ hw => hw.1.1.1) fun J hJ hJK =>
      (hJ.runHooks (fun w hw => hreg w (hJK w hw).1) (hsetup ▸ hsilent)).post
        fun _ w hw => ⟨hw, (hJK w hw).2⟩
  obtain rfl := Phase.phase_of_rule? hrule
  refine {
    registered := hreg
    wellFormed := hunit ▸ hwf
    stop := fun _ hw => hw.1.1
    lasting := Walk.kept_valueDone rule goal
    header := fun d hd => ?_
    member := fun d => ?_
    marked := fun w d hw hle => ⟨hw.1.2.1.1, fun hd => ?_⟩ }
  case refine_1 =>
    -- nothing on the path holds a value
    refine (AdvancesBy.bind (Q := fun _ _ => True)
      (onHeader hunit hguard hrule) fun _ =>
        hhooks _ d (lasting_const True)).post fun _ w hw _ =>
          ⟨hw.1.2.1.1, fun hholds => ?_⟩
    have hpath := List.contains_iff_mem.mp hd
    rcases hholds.1.regular.path _ s goal hgoal d hpath with hk | hk
    · exact absurd hk (hholds.1.kind_ne rfl)
    · exact absurd hk (hholds.1.kind_ne rfl)
  case refine_2 =>
    exact .bind (onMember hunit hguard hrule) fun _ =>
      hhooks _ d (Walk.kept_valueDone rule goal d)
  case refine_3 =>
    have hu := hw.1.2.1.1
    have hinferred := hw.1.1.inferred _ hu
    rw [hunit] at hle
    refine ⟨fun hp => hinferred.signed d hd.1 (hp ▸ hle),
      fun hp _ => hinferred.typed d hd.1 (hp ▸ hle), fun hp _ => ⟨hu, ?_, ?_⟩⟩
    · exact hinferred.signed d hd.1 (Phase.le_trans (by decide) (hp ▸ hle))
    · exact fun _ =>
        hinferred.typed d hd.1 (Phase.le_trans (by decide) (hp ▸ hle))

/-- A phase brings what the designation promises to the phase. -/
theorem runPhase {g : Guard} {cancellable : Bool} (hsilent : setup.Silent)
    (hgoal : goal.unit.designateWith allowLocal s = .ok goal)
    (heligible : ∀ a ∈ goal.target :: goal.unit.ancestors goal.target,
      goal.unit.isEligible a = true)
    (hg : g.lock = .ofUnit goal.unit.id) :
    AdvancesBy World.Ripens (fun w => Primed goal p w ∧ t.Alike w.thread)
      (Action.runPhase setup goal g cancellable p)
      (fun _ w => .supertypes < p → p.isExtension = false → Attained goal p w)
      World.Inferring := by
  intro R hR w hw
  have hwf := hw.1.1.1.grounded.coherent.wellFormed hw.1.1.2.1.1
  have hdetached := detached_primed goal p
  cases hrule : p.rule? with
  | none =>
      unfold Action.runPhase
      rw [hrule]
      exact ⟨hw, fun hlate hrun =>
        absurd hrule (Phase.rule?_ne_none (Nat.lt_trans (by decide) hlate) hrun)⟩
  | some rule =>
      refine runPhase_advances (S := World.Ripens) (K := Walking goal p t)
        (D := Walk.ValueDone rule goal) (hdetached.alike t).toStatic
        (fun _ hw => hw.1.1) (Lasting.keptBy (.all fun _ => .all fun _ =>
          lasting_attained goal p)) (fun hnone => ?_)
        (fun w hw => ⟨hdetached.session w _ hw.1, .start hw.2⟩) ?_ ?_ R hR w hw
      · exact nomatch hrule.symm.trans hnone
      · intro rule' c hrule' hsetup hunit hguard
        obtain rfl := Option.some.inj (hrule.symm.trans hrule')
        exact establishes hsilent hsetup hgoal hwf hunit (hguard ▸ hg) hrule
      · intro rule' c v Q hrule' hunit hQ
        obtain rfl := Option.some.inj (hrule.symm.trans hrule')
        refine Visits.commit_triple (I := fun w => Primed goal p w ∧
          t.Alike w.thread) hQ hg hunit (fun w hw => hw.1.2.1.1)
          fun w w' hw hroute htarget h => ?_
        obtain ⟨⟨hinferring, hstanding⟩, hrest⟩ := hw
        obtain ⟨⟨hu, himports⟩, hbefore⟩ := hstanding
        have hlater := h.later
        have hinferring' := hinferring.commit hrule hgoal hunit hu heligible
          himports hbefore hroute h
        refine ⟨⟨⟨hinferring', lasting_standing goal (· < p) w w' hlater
          ⟨⟨hu, himports⟩, hbefore⟩⟩, ?_⟩, fun hlate _ => ?_⟩
        · rw [h.rest]
          exact hrest.alike
        · exact hinferring'.attained_of_below (hlater.registered hu) hlate
            ((h.le_below_iff hu).mpr (Or.inr ⟨htarget, Phase.le_refl p⟩))

-- ============================================================ one request

/-- A phase adds what it brings to what there is. -/
theorem runStep {g : Guard} {cancellable : Bool} {P : Phase → Prop}
    (hsilent : setup.Silent)
    (hgoal : goal.unit.designateWith allowLocal s = .ok goal)
    (heligible : ∀ a ∈ goal.target :: goal.unit.ancestors goal.target,
      goal.unit.isEligible a = true)
    (hg : g.lock = .ofUnit goal.unit.id)
    (hbefore : ∀ q, .supertypes < q → q.isExtension = false → q < p → P q) :
    Triple (fun w => (w.Inferring ∧ Standing goal P w) ∧ t.Alike w.thread)
      (do
        checkCancelled cancellable p
        Action.runPhase setup goal g cancellable p)
      (fun _ w => (w.Inferring ∧ Standing goal (fun q => P q ∨ q = p) w) ∧
        t.Alike w.thread) World.Inferring := by
  refine .bind (.checkCancelled fun w hw => hw.1.1) fun _ => ?_
  refine ((runPhase (t := t) (p := p) hsilent hgoal heligible hg) _
    (lasting_standing goal P).keptBy).conseq (fun w hw => ?_)
      (fun _ w hw => ?_) fun _ hw => hw
  · obtain ⟨⟨hinferring, hstanding⟩, hrest⟩ := hw
    exact ⟨⟨⟨hinferring, hstanding.mono hbefore⟩, hrest⟩, hstanding⟩
  · obtain ⟨⟨⟨⟨hinferring, -⟩, hrest⟩, hstanding⟩, hattained⟩ := hw
    refine ⟨⟨hinferring, hstanding.1, fun q hq hrun hdone => ?_⟩, hrest⟩
    rcases hdone with hdone | rfl
    · exact hstanding.2 q hq hrun hdone
    · exact hattained hq hrun

/-- The phases of a request bring what the designation promises as far as
was asked. -/
theorem runPhases {g : Guard} {cancellable : Bool} {current : Phase}
    (hsilent : setup.Silent)
    (hgoal : goal.unit.designateWith allowLocal s = .ok goal)
    (heligible : ∀ a ∈ goal.target :: goal.unit.ancestors goal.target,
      goal.unit.isEligible a = true)
    (hg : g.lock = .ofUnit goal.unit.id) :
    Triple (fun w => (w.Inferring ∧ Standing goal (· ≤ current) w) ∧
        t.Alike w.thread)
      (Action.runPhases setup goal g cancellable
        ((max current .lastFileWide).stepsTo p))
      (fun _ w => w.Inferring ∧ Standing goal (· ≤ p) w) World.Inferring := by
  refine (Triple.each_prefix (fun done w => (w.Inferring ∧
    Standing goal (fun q => q ∈ done ∨ q ≤ current) w) ∧ t.Alike w.thread)
    [] _ fun before q after hsplit => ?_).conseq (fun w hw => ?_)
      (fun _ w hw => ?_) fun _ hw => hw
  · refine (runStep hsilent hgoal heligible hg fun r hr hrun hlt =>
      Phase.mem_or_le_of_stepsTo hsplit (Nat.lt_trans (by decide) hr) hrun
        hlt).post fun _ w hw => ⟨⟨hw.1.1, hw.1.2.mono fun r _ _ hr => ?_⟩, hw.2⟩
    have hr : r ∈ before ++ [q] ∨ r ≤ current := hr
    rwa [List.mem_append, List.mem_singleton, or_right_comm] at hr
  · exact ⟨⟨hw.1.1, hw.1.2.mono fun q _ _ hq =>
      hq.resolve_left List.not_mem_nil⟩, hw.2⟩
  · refine ⟨hw.1.1, hw.1.2.mono fun q hq hrun hle => ?_⟩
    -- what was not there from the beginning is one of the steps
    refine Classical.or_iff_not_imp_right.mpr fun hlt => ?_
    exact Phase.mem_stepsTo_iff.mpr ⟨⟨Phase.max_lt_iff.mpr
      ⟨Phase.lt_of_not_le hlt, Nat.lt_trans (by decide) hq⟩, hle⟩, hrun⟩

/-- What is done once the unit is locked. -/
theorem resolveLocked {g : Guard} {cancellable : Bool}
    (hsilent : setup.Silent)
    (hgoal : goal.unit.designateWith allowLocal s = .ok goal)
    (heligible : goal.isFile = false →
      ∀ a ∈ goal.target :: goal.unit.ancestors goal.target,
        goal.unit.isEligible a = true)
    (hg : g.lock = .ofUnit goal.unit.id) :
    Triple (fun w => (w.Inferring ∧ w.Registered goal.unit) ∧ t.Alike w.thread)
      (Action.resolveLocked setup goal p cancellable g)
      (fun _ w => w.Inferring ∧ Brought goal p w) World.Inferring := by
  have hI := detached.and_registered goal.unit
  have hnofile : ∀ w, w.Registered goal.unit → goal.isFile = true →
      Brought goal p w := fun w hu hfile =>
    ⟨hu, fun h => absurd (hfile.symm.trans h) (by decide)⟩
  refine resolveLocked_triple (((hI.alike t).resolveImports
    ((keepsFile goal.unit).alike t)).conseq (fun _ hw => hw)
      (fun _ _ hw => hw) fun w hw => hw.1.1) (fun w hw => hw.1.1.1)
    (fun hfile => ?_) (fun hfile w hw _ => ?_) (fun hfile w hw hle => ?_)
    fun hfile current => ?_
  · exact (hI.resolveFileAnnotations (fileWork goal.unit)
      (keepsFile goal.unit).toRaisesFile).conseq (fun w hw => hw.1.1)
        (fun _ w hw => ⟨hw.1.1, hnofile w hw.1.2 hfile⟩) fun w hw => hw.1
  · exact ⟨hw.1.1.1, hnofile w hw.1.1.2 hfile⟩
  · obtain ⟨⟨⟨hw, hu⟩, -⟩, -⟩ := hw
    refine ⟨detached.counters w _ (Nat.le_refl _) hw, hu,
      fun _ q hq hrun hqp => ?_⟩
    exact hw.attained_of_current hu hq hrun hfile (Phase.le_trans hqp hle)
  · refine (runPhases (t := t) (p := p) hsilent hgoal (heligible hfile) hg).conseq
      (fun w hw => ?_) (fun _ w hw => ⟨hw.1, hw.2.1.1, fun _ => hw.2.2⟩)
      fun _ hw => hw
    obtain ⟨⟨⟨⟨hw, hu⟩, hrest⟩, himports⟩, -, rfl⟩ := hw
    exact ⟨⟨hw, ⟨hu, himports⟩, fun q hq hrun hle =>
      hw.attained_of_current hu hq hrun hfile hle⟩, hrest⟩

/-- A request brings what the designation promises, whether it is answered
by the markers or by phases. -/
theorem resolveDesignation {cancellable : Bool} (hsilent : setup.Silent)
    (hgoal : goal.unit.designateWith allowLocal s = .ok goal) :
    Triple (fun w => w.Inferring ∧ w.Registered goal.unit)
      (Action.resolveDesignation setup goal p cancellable)
      (fun _ w => w.Inferring ∧ Brought goal p w) World.Inferring := by
  intro w hw
  have hcoherent := hw.1.grounded.coherent
  have hu := hw.2
  have hlasting := lasting_brought goal p
  refine (detached.toStatic.resolveDesignation (P := fun v => v = w)
    (Q := fun w => w.Inferring ∧ Brought goal p w) (fun v hv hle => ?_) ?_) w rfl
  · subst hv
    refine ⟨detached.counters v _ (Nat.le_refl _) hw.1, hw.2,
      fun hfile q hq hrun hqp => ?_⟩
    exact hw.1.attained_of_current hw.2 hq hrun hfile (Phase.le_trans hqp hle)
  · rintro v ⟨rfl, hunanswered⟩
    have hsome := CompilationUnit.target_isSome_of_designateWith
      (hcoherent.wellFormed hu) hgoal
    refine (resolveUnderLock_triple
      (P := fun w => w.Inferring ∧ w.Registered goal.unit)
      (Q := fun w => w.Inferring ∧ Brought goal p w) (E := World.Inferring)
      (detached.and_registered goal.unit).thread
      (detached.and_lasting hlasting).thread detached.thread
      (fun _ hw => hw.1) fun g hg w hw => ?_) v hw
    exact resolveLocked (t := w.thread) hsilent hgoal (fun hfile a ha =>
      eligible_of_unanswered hcoherent hu hfile (hsome hfile) hunanswered ha) hg w
        ⟨hw, .refl _⟩

end World.Inferring

-- ============================================================= histories

/-- In every world that is reached markers stand for what they should. -/
theorem Reaches.inferring {setup : Setup} {allowed : World → Call → Prop}
    (hsilent : setup.Silent) {w : World} (h : Reaches setup allowed w) :
    w.Inferring := by
  have hI := World.Inferring.detached
  refine (h.invariant (P := World.Inferring) hsilent.quiet (fun r hr => ?_)
    (fun v w _ hv h => hv.of_evolves (hv.grounded.reregisters h) h.evolves
      h.states) hI.thread (fun w allowLocal s phase cancellable _ hw _ => ?_)
      fun w id _ hw => ?_).2
  · have hraw : ∀ u d, u.isEligible d = true →
        (World.start r).own u d = .raw ∧ (World.start r).below u d = .raw :=
      fun u d he => raw_of_fresh rfl he
    exact ⟨.start hr, fun u _ => .of_raw (hraw u), fun u _ => .of_raw (hraw u)⟩
  · refine (hI.toStatic.request (fun _ hw => hw)
      fun u x goal _ _ hgoal => ?_).world hw
    obtain rfl := CompilationUnit.unit_of_designateWith hgoal
    exact (World.Inferring.resolveDesignation hsilent hgoal).post
      fun _ _ hw => hw.1
  · exact (hI.resolveFile World.Inferring.fileWork
      World.Inferring.keepsFile).world hw

/-- A request for a phase from that of implicit types on that answers
leaves the whole subtree of its target with types. In a unit of named
forms, every declaration below the target that holds a value has its type,
and no written type is left in its signature, if everything around it goes
through the phases and no type parameter is among that; what is in
executable code has it if the bodies were asked for. -/
theorem valueTypes_of_resolve {setup : Setup} {s : Symbol} {p : Phase}
    {cancellable : Bool} {w w' : World} {u : CompilationUnit}
    {x : Declaration} {goal : Designation} {spec : UnitSpec} {draft : Draft}
    (hsilent : setup.Silent) (hw : Reaches setup anyCall w)
    (hs : w.registry.declaration s = .ok (u, x)) (hx : x.isEligible = true)
    (hroot : s.decl.isRoot = false) (hnamed : spec.Named)
    (hdraft : spec.draft = .ok draft) (hunit : u = draft.finish u.id)
    (hgoal : u.designate s.decl = .ok goal) (hp : .implicitTypes ≤ p)
    (hrun : Action.resolve setup s p cancellable w = (.ok (), w')) :
    ∀ d ∈ u.subtree goal.target,
      (u.kind? d).any DeclKind.hasValueType = true →
      (∀ a ∈ d :: u.ancestors d, u.isEligible a = true) →
      (∀ a ∈ u.ancestors d, u.kind? a ≠ some .typeParameter) →
      (u.isLocal d = false ∨ p = .bodies) →
      (w'.slots u d).Typed ∧ (w'.slots u d).Signed := by
  intro d hd hkind heligible hparameter hplace
  have hregular : u.Regular := hunit ▸ hnamed.regular hdraft u.id
  have hinferring := hw.inferring hsilent
  have hu : w.Registered u := (hinferring.grounded.coherent.registered
    (Registry.declaration_eq_ok_iff.mp hs).1).1
  have hwf := hinferring.grounded.coherent.wellFormed hu
  have hfile := (hregular.target _ s.decl goal hgoal).trans hroot
  have hraw : p ≠ .raw := by
    rintro rfl
    exact absurd hp (by decide)
  have hlate : .supertypes < p := Nat.lt_of_lt_of_le (by decide) hp
  have hrun' : p.isExtension = false := by
    revert hp
    cases p <;> decide
  -- the request brings the target to the phase
  obtain rfl := CompilationUnit.unit_of_designateWith hgoal
  unfold Action.resolve at hrun
  rw [request_eq_resolveDesignation hraw hs hx hgoal] at hrun
  obtain ⟨hinferring', -, hbrought⟩ :=
    (World.Inferring.resolveDesignation hsilent hgoal).ok
      ((World.Inferring.detached.and_registered goal.unit).counters w
        w.counters.countRequest (Nat.le_refl _) ⟨hinferring, hu⟩) hrun
  obtain ⟨hu', hattained⟩ := hbrought hfile p hlate hrun' (Phase.le_refl p)
  -- and with it what is below
  have hwhere := hwf.mem_subtree hd
  have hbelow : d.isRoot = false := by
    rcases hwhere with rfl | habove
    · exact hfile
    · refine Bool.eq_false_iff.mpr fun h => ?_
      exact not_mem_ancestors_root hwf h _ habove
  have hvalue : goal.unit.HoldsValue d :=
    ⟨hregular, hkind, hbelow, heligible, hparameter⟩
  have hown := hattained d ⟨⟨hvalue, hwhere⟩, hplace⟩
  have hinferred := hinferring'.inferred goal.unit hu'
  exact ⟨hinferred.typed d hvalue (Phase.le_trans hp hown),
    hinferred.signed d hvalue (Phase.le_trans (by decide)
      (Phase.le_trans hp hown))⟩

/-- A unit of one package is described by named forms if its declarations
are and borrow no nodes. -/
theorem UnitSpec.named_ofEntries {path : String} {entries : List UnitEntry}
    (h : ∀ e ∈ entries, (∃ form : DeclForm, e.spec.kind = form.kind ∧
      e.spec.node = form.node) ∧ e.spec.borrows = none) :
    (UnitSpec.ofEntries path entries).Named where
  form := fun e he => (h e he).1
  lender := fun e he _ hl => nomatch (h e he).2.symm.trans hl
  childless := fun _ e hget hl =>
    absurd (h e (List.mem_of_getElem? hget)).2 hl

/-- The function in a class, when the class is asked for. -/
theorem valueTypes_of_resolve_plainClass :
    let w := World.after (.plain .default) [.addUnit .plainClass]
    let w' := (Action.resolve (.plain .default) ⟨⟨0⟩, ⟨1⟩⟩ .implicitTypes
      false w).2
    ∃ u, w.registry.unit? ⟨0⟩ = some u ∧ (w'.slots u ⟨2⟩).Typed ∧
      (w'.slots u ⟨2⟩).Signed := by
  intro w w'
  have hsilent : (Setup.plain .default).Silent := fun _ h => nomatch h
  have hnamed : UnitSpec.plainClass.Named := UnitSpec.named_ofEntries <|
    List.forall_mem_cons.mpr ⟨⟨⟨.classDecl, rfl, rfl⟩, rfl⟩,
      List.forall_mem_cons.mpr ⟨⟨⟨.function, rfl, rfl⟩, rfl⟩,
        List.forall_mem_nil _⟩⟩
  have hrun : (Action.resolve (.plain .default) ⟨⟨0⟩, ⟨1⟩⟩ .implicitTypes
      false (World.after (.plain .default) [.addUnit .plainClass])).1 =
        .ok () := by
    decide +kernel
  exact ⟨_, rfl, valueTypes_of_resolve (s := ⟨⟨0⟩, ⟨1⟩⟩) hsilent
    (Reaches.after (.plain .default) [.addUnit .plainClass]) rfl rfl rfl hnamed
    rfl rfl rfl (Phase.le_refl _) (run_of_fst hrun) ⟨2⟩ (by decide) rfl
    (by decide) (by decide) (Or.inl rfl)⟩

/-- A type parameter with a member, in a class with another member. -/
def UnitSpec.functionInParameter : UnitSpec :=
  .ofEntries "a.kt" [.member 0 (.classNamed "A" []),
    .member 1 (.ofForm .typeParameter "T"),
    .member 2 (.functionNamed "f" none), .member 1 (.functionNamed "m" none)]

/-- The member of a type parameter is left without its type once the class
was passed on the way to another member. -/
theorem not_valueTypes : UnitSpec.functionInParameter.Named ∧
    let w := World.after (.plain .default) [.addUnit .functionInParameter,
      .resolve false ⟨⟨0⟩, ⟨4⟩⟩ .implicitTypes false]
    let run := Action.resolve (.plain .default) ⟨⟨0⟩, ⟨1⟩⟩ .implicitTypes
      false w
    run.1 = .ok () ∧
    ∃ u ∈ w.registry.unit? ⟨0⟩, ∃ goal ∈ (u.designate ⟨1⟩).toOption,
      ⟨3⟩ ∈ u.subtree goal.target ∧
      (u.kind? ⟨3⟩).any DeclKind.hasValueType = true ∧
      (∀ a ∈ ⟨3⟩ :: u.ancestors ⟨3⟩, u.isEligible a = true) ∧
      u.isLocal ⟨3⟩ = false ∧ (run.2.slots u ⟨3⟩).returnType = .implicit := by
  refine ⟨UnitSpec.named_ofEntries ?_, by decide +kernel⟩
  exact List.forall_mem_cons.mpr ⟨⟨⟨.classDecl, rfl, rfl⟩, rfl⟩,
    List.forall_mem_cons.mpr ⟨⟨⟨.typeParameter, rfl, rfl⟩, rfl⟩,
      List.forall_mem_cons.mpr ⟨⟨⟨.function, rfl, rfl⟩, rfl⟩,
        List.forall_mem_cons.mpr ⟨⟨⟨.function, rfl, rfl⟩, rfl⟩,
        List.forall_mem_nil _⟩⟩⟩⟩

end StagedResolve
