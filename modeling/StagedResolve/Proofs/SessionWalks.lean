/-
Sessions in walks: what a walk establishes for the classes it visits.

The walk of the supertype phase runs a session for every class it comes
by, and the walk of the last phase for every class in executable code
that it comes by as a member. In between, hooks and the work of the phase
leave the session at rest. So when the walk is over the clauses of all
these classes are final (`Walk.SessionDone`), whatever became of the
classes of other units.
-/
import StagedResolve.Proofs.PhaseSteps
import StagedResolve.Proofs.Requests
import StagedResolve.Proofs.Walks
import StagedResolve.Proofs.WriteBack

namespace StagedResolve

open StagedResolve.Action World

/-- What is known to be kept may leave less behind when it fails. -/
theorem Action.Keeps.weaken {α : Type} {I E : World → Prop} {x : Action α}
    (h : Keeps (.solo I I) x) (hE : ∀ w, I w → E w) : Keeps (.solo I E) x :=
  .of_triple (h.triple.conseq (fun _ hw => hw) (fun _ _ hw => hw) hE)

/-- So may the work of a phase. -/
theorem SideBySide.Work.weaken {I E : World → Prop} {c : Context}
    {P : DeclId → Prop} (h : (SideBySide.solo I I).Work c P)
    (hE : ∀ w, I w → E w) : (SideBySide.solo I E).Work c P where
  registry := h.registry
  classifier := fun k => (h.classifier k).weaken hE
  stop := fun _ w hw => ⟨hw.1, hE w hw.2⟩
  slots := h.slots
  source := fun s => (h.source s).weaken hE
  write := fun d f hd hf => (h.write d f hd hf).weaken hE

/-- So may what the phases do to one declaration. -/
theorem SideBySide.Tasks.weaken {I E : World → Prop} {c : Context}
    {P : DeclId → Prop} (h : (SideBySide.solo I I).Tasks c P)
    (hE : ∀ w, I w → E w) : (SideBySide.solo I E).Tasks c P where
  stop := fun _ w hw => ⟨hw.1, hE w hw.2⟩
  annotations := fun d phase hd => (h.annotations d phase hd).weaken hE
  signature := fun d phase hd => (h.signature d phase hd).weaken hE
  status := fun d hd => (h.status d hd).weaken hE
  contract := fun d phase hd => (h.contract d phase hd).weaken hE
  inferred := fun d phase hd => (h.inferred d phase hd).weaken hE
  body := fun d hd => (h.body d hd).weaken hE

namespace Walk

/-- The clause of a class that a walk runs a session for is final. -/
def SessionDone (rule : PhaseRule) (u : CompilationUnit) (goal : Designation)
    (d : DeclId) (w : World) : Prop :=
  u.isClassLike d = true → (rule.phase = .supertypes ∨
    (u.isLocal d = true ∧ rule.inBodies = true ∧
      goal.onPath d = false)) → w.Done (u.symbol d)

/-- It stays final. -/
theorem lasting_sessionDone (rule : PhaseRule) (u : CompilationUnit)
    (goal : Designation) (d : DeclId) : Lasting (SessionDone rule u goal d) :=
  .all fun _ => .all fun _ => lasting_done _

end Walk

/-- A condition that survives the sessions that are run in a context. What
is known of the session between two of them is kept apart, since it only
holds within one phase. -/
structure Sessions (I S : World → Prop) (c : Context) : Prop where
  calm : Calm fun w => I w ∧ S w
  registered : ∀ w, I w → w.Registered c.unit
  session : ∀ d, Advances (fun w => I w ∧ S w) (PhaseRule.classSupertypes c d)
    (fun _ w => c.unit.isClassLike d = true → w.Done (c.unit.symbol d)) I

namespace WritesBack

variable {I : World → Prop} {c : Context} {t : Thread}

/-- The session for a class of the unit at hand ends with a final
clause. -/
theorem classSupertypes_advances (hI : WritesBack I c.unit.id t)
    (hreg : ∀ w, I w → w.Registered c.unit)
    (hguard : c.guard.lock = .ofUnit c.unit.id) (d : DeclId) :
    Advances (fun w => I w ∧ Rested c.unit.id t w)
      (PhaseRule.classSupertypes c d)
      (fun _ w => c.unit.isClassLike d = true → w.Done (c.unit.symbol d))
      I := by
  intro R hR
  unfold PhaseRule.classSupertypes
  split
  · refine ((hI.and_lasting hR).resolveSupertypes_triple
      (fun w hw => hreg w hw.1) hguard [c.unit.symbol d]).conseq ?_ ?_
      fun w hw => hw.1
    · rintro w ⟨⟨hw, hrest⟩, hRw⟩
      refine ⟨⟨⟨hw, hRw⟩, hrest⟩, fun b hb => ?_⟩
      rw [List.mem_singleton.mp hb]
      exact (hI.coherent w hw).known (hreg w hw) d
    · rintro _ w ⟨⟨⟨hw, hRw⟩, hrest⟩, hkept⟩
      refine ⟨⟨⟨hw, hrest⟩, hRw⟩, fun _ => ?_⟩
      refine (hkept _ (List.mem_singleton_self _)).resolve_right ?_
      exact fun h => h.1 rfl
  · next hk => exact .pure fun w hw => ⟨hw, fun h => absurd h hk⟩

/-- What survives whole sessions survives those of a context, and leaves
the session at rest in between. -/
theorem sessions (hI : WritesBack I c.unit.id t) (hidle : Idle I)
    (hreg : ∀ w, I w → w.Registered c.unit)
    (hguard : c.guard.lock = .ofUnit c.unit.id) :
    Sessions I (Rested c.unit.id t) c where
  calm := calm_rested hidle
  registered := hreg
  session := hI.classSupertypes_advances hreg hguard

end WritesBack

namespace Sessions

variable {I S : World → Prop} {c : Context} {t : Thread} {rule : PhaseRule}
  {goal : Designation} {phase : Phase}

section parts

variable {R T : World → Prop} {x : Action Unit} {d : DeclId}

/-- The work of a phase, the supertype phase apart, keeps what lasts as
well. -/
theorem work (hI : Sessions I S c) (hR : Lasting R) :
    (SideBySide.solo (fun w => (I w ∧ S w) ∧ R w) I).Work c fun _ => True :=
  ((hI.calm.and_lasting hR).work fun w hw =>
    hI.registered w hw.1.1).weaken fun _ hw => hw.1.1

/-- So do the hooks. -/
theorem hooks (hI : Sessions I S c) (hquiet : c.setup.Quiet)
    (hR : Lasting R) (q : Phase) (d : DeclId) :
    Keeps (.solo (fun w => (I w ∧ S w) ∧ R w) I) (c.runHooks q d) :=
  (Keeps.of_triple ((hI.calm.and_lasting hR).runHooks
    (fun w hw => hI.registered w hw.1.1) hquiet)).weaken fun _ hw => hw.1.1

/-- So does all that a rule has a walk do. -/
theorem keeps (hI : Sessions I S c) (hquiet : c.setup.Quiet)
    (hrule : phase.rule? = some rule) (hR : Lasting R) :
    Walk.Keeps (.solo (fun w => (I w ∧ S w) ∧ R w) I) rule c fun _ => True :=
  .of_rule hrule (hI.work hR).tasks (fun v w d h => by rw [h.1])
    (fun v w d h => by rw [h.1]) (fun q d _ => hI.hooks hquiet hR q d)
    fun d _ => .of_triple ((hI.session d _ hR).post fun _ _ hw => hw.1)

/-- What is kept together with whatever lasts advances. -/
theorem advances (hx : ∀ {R : World → Prop}, Lasting R →
      Keeps (.solo (fun w => (I w ∧ S w) ∧ R w) I) x) :
    Advances (fun w => I w ∧ S w) x (fun _ _ => True) I :=
  fun _ hR => (hx hR).triple.post fun _ _ hw => ⟨hw, trivial⟩

/-- What lasts is still there then. -/
theorem advances_and (hT : Lasting T)
    (hx : ∀ {R : World → Prop}, Lasting R →
      Keeps (.solo (fun w => (I w ∧ S w) ∧ R w) I) x) :
    Advances (fun w => (I w ∧ S w) ∧ T w) x (fun _ => T) I :=
  fun _ hR => (hx (hT.and hR)).triple.conseq
    (fun _ hw => ⟨hw.1.1, hw.1.2, hw.2⟩)
    (fun _ _ hw => ⟨⟨⟨hw.1, hw.2.1⟩, hw.2.2⟩, hw.2.1⟩) fun _ hw => hw

/-- The clause of a class stays final. -/
theorem lasting_final (c : Context) (d : DeclId) :
    Lasting fun w => c.unit.isClassLike d = true → w.Done (c.unit.symbol d) :=
  .all fun _ => lasting_done _

/-- The session of the supertype phase, with the hooks after it. -/
theorem session_hooks (hI : Sessions I S c) (hquiet : c.setup.Quiet)
    (q : Phase) : Advances (fun w => I w ∧ S w)
      (do PhaseRule.classSupertypes c d; c.runHooks q d)
      (fun _ w => c.unit.isClassLike d = true → w.Done (c.unit.symbol d)) I :=
  .bind (hI.session d) fun _ =>
    advances_and (lasting_final c d) fun hR => hI.hooks hquiet hR q d

/-- A class in executable code catches up on the supertype phase first. -/
theorem resolveBody (hI : Sessions I S c) :
    Advances (fun w => I w ∧ S w) (PhaseRule.resolveBody c d)
      (fun _ w => c.unit.isLocal d = true → c.unit.isClassLike d = true →
        w.Done (c.unit.symbol d)) I := by
  have hfinal := lasting_final c d
  unfold PhaseRule.resolveBody
  split
  · exact .stop fun w hw => hw.1
  · next x hx =>
    have hlocal : c.unit.isLocal d = x.isLocal := by
      rw [CompilationUnit.isLocal, hx]
      rfl
    have hcode : ∀ {R : World → Prop}, Lasting R → Keeps (.solo
        (fun w => (I w ∧ S w) ∧ R w) I)
        (if x.hasCode = true then writeSlots c.guard c.unit d fun s =>
          { s with bodyResolved := true } else Pure.pure ()) := by
      intro R hR
      split
      · exact (hI.work hR).write d _ trivial fun s => ⟨rfl, rfl, rfl⟩
      · exact .pure
    by_cases hx' : x.isLocal = true
    · rw [if_pos hx']
      refine .bind (Q := fun _ w => c.unit.isClassLike d = true →
        w.Done (c.unit.symbol d)) ?_ fun _ => ?_
      · refine .bind (hI.session d) fun _ => ?_
        exact advances_and hfinal fun hR =>
          .bind ((hI.work hR).resolveSignature trivial .bodies) fun _ =>
            .bind ((hI.work hR).storeStatus trivial) fun _ =>
              .bind ((hI.work hR).storeContract trivial .bodies) fun _ =>
                (hI.work hR).inferType trivial .bodies
      · exact (advances_and hfinal hcode).post fun _ w _ hw _ => hw
    · rw [if_neg hx']
      refine (advances hcode).post fun _ w _ _ h => ?_
      rw [hlocal] at h
      exact absurd h hx'

end parts

/-- The work of a walk keeps the condition and the session at rest, and
runs its sessions to the end. -/
theorem establishes (hI : Sessions I S c) (hwf : c.unit.WellFormed)
    (hquiet : c.setup.Quiet) (hrule : phase.rule? = some rule) :
    Walk.Establishes rule c goal (fun w => I w ∧ S w) I
      (Walk.SessionDone rule c.unit goal) := by
  have hreg := hI.registered
  have hfinal := lasting_final c
  have hkeeps : ∀ {R : World → Prop}, Lasting R → Walk.Keeps (.solo
      (fun w => (I w ∧ S w) ∧ R w) I) rule c fun _ => True :=
    hI.keeps hquiet hrule
  have hsession : ∀ d, Advances (fun w => I w ∧ S w)
      (do PhaseRule.classSupertypes c d; c.runHooks rule.phase d)
      (fun _ => Walk.SessionDone rule c.unit goal d) I := fun d =>
    (hI.session_hooks hquiet rule.phase).post fun _ w _ hw hk _ => hw hk
  refine {
    registered := fun w hw => hreg w hw.1
    wellFormed := hwf
    stop := fun w hw => hw.1
    lasting := Walk.lasting_sessionDone rule c.unit goal
    header := fun d hd => ?_
    member := fun d => ?_
    marked := fun w d hw hle _ _ => ?_ }
  case refine_1 =>
    by_cases hp : rule.phase = .supertypes
    · have hphase := Phase.phase_of_rule? hrule
      rw [hp] at hphase
      subst hphase
      cases hrule
      exact hsession d
    · refine (advances fun hR => .bind ((hkeeps hR).header d trivial) fun _ =>
        (hkeeps hR).hooks d trivial).post fun _ w _ _ _ hcase => ?_
      rcases hcase with h | ⟨-, -, h⟩
      · exact absurd h hp
      · rw [hd] at h
        cases h
  case refine_2 =>
    by_cases hp : rule.phase = .supertypes
    · have hphase := Phase.phase_of_rule? hrule
      rw [hp] at hphase
      subst hphase
      cases hrule
      exact hsession d
    by_cases hb : rule.inBodies = true
    · have hbodies : rule = .bodies := by
        cases phase <;> cases hrule <;> first | rfl | cases hb
      subst hbodies
      refine .bind hI.resolveBody fun _ => ?_
      refine (advances_and (.all fun _ => hfinal d) fun hR =>
        hI.hooks hquiet hR _ d).post fun _ w _ hw hk hcase => ?_
      exact hw (hcase.resolve_left hp).1 hk
    · refine (advances fun hR => (hkeeps hR).workOn trivial).post
        fun _ w _ _ _ hcase => ?_
      exact absurd (hcase.resolve_left hp).2.1 hb
  case refine_3 =>
    have hu := hreg w hw.1
    refine .of_unit ((hI.calm.coherent w hw).known hu d) hu rfl
      fun _ _ _ _ => Phase.le_trans ?_ hle
    rw [Phase.phase_of_rule? hrule]
    exact Phase.supertypes_le_of_rule? hrule

/-- A phase runs its sessions to the end, and what it establishes is what
its commit does. -/
theorem runPhase {setup : Setup} {g : Guard} {cancellable : Bool}
    {T : World → Prop} (hI : Idle I) (hS : ∀ w, S w → t.Alike w.thread)
    (hstart : ∀ w, I w → t.Alike w.thread → S { w with session := .start })
    (hsession : ∀ c : Context, c.setup = setup → c.unit = goal.unit →
      c.guard = g → Sessions I S c)
    (hreg : ∀ w, I w → w.Registered goal.unit)
    (hg : g.lock = .ofUnit goal.unit.id) (hquiet : setup.Quiet)
    (hT : Lasting T) (hidle : phase.rule? = none → ∀ w, I w → T w)
    (hcommit : ∀ rule c v w w', phase.rule? = some rule →
      c.unit = goal.unit → I w →
      Walk.Route rule c (Walk.SessionDone rule goal.unit goal) goal .root v w →
      goal.target ∈ v.members →
      Rewrites goal.unit (v.committed phase) w w' → I w' ∧ T w') :
    Advances (fun w => I w ∧ t.Alike w.thread)
      (Action.runPhase setup goal g cancellable phase) (fun _ => T) I := by
  intro R hR w hw
  have hwf := (hI.coherent w hw.1.1).wellFormed (hreg w hw.1.1)
  cases hrule : phase.rule? with
  | none =>
      unfold Action.runPhase
      rw [hrule]
      exact ⟨hw, hidle hrule w hw.1.1⟩
  | some rule =>
      refine runPhase_advances (K := fun w => I w ∧ S w)
        (D := Walk.SessionDone rule goal.unit goal) (hI.alike t).toStatic
        (fun _ hw => hw.1) hT (fun hnone => ?_)
        (fun w hw => ⟨hI.session w _ hw.1, hstart w hw.1 hw.2⟩) ?_ ?_ R hR w hw
      · rw [hrule] at hnone
        cases hnone
      · intro rule' c hrule' hsetup hunit hguard
        obtain rfl := Option.some.inj (hrule.symm.trans hrule')
        rw [← hunit] at hwf ⊢
        exact (hsession c hsetup hunit hguard).establishes hwf
          (hsetup ▸ hquiet) hrule
      · rintro rule' c v Q hrule' hunit hQ
        obtain rfl := Option.some.inj (hrule.symm.trans hrule')
        refine (Visits.commit_triple (I := fun w => I w ∧ t.Alike w.thread) hQ
          hg hunit (fun w hw => hreg w hw.1) fun w w' hw hroute htarget h => ?_)
        obtain ⟨hI', hT'⟩ := hcommit rule c v w w' hrule' hunit hw.1 hroute
          htarget h
        refine ⟨⟨hI', ?_⟩, hT'⟩
        rw [h.rest]
        exact hS w hw.2

end Sessions

/-- A phase, for a condition that survives whole sessions. -/
theorem WritesBack.runPhase {I T : World → Prop} {t : Thread}
    {goal : Designation} {phase : Phase} {setup : Setup} {g : Guard}
    {cancellable : Bool} (hI : WritesBack I goal.unit.id t) (hcalm : Idle I)
    (hreg : ∀ w, I w → w.Registered goal.unit)
    (hg : g.lock = .ofUnit goal.unit.id) (hquiet : setup.Quiet)
    (hT : Lasting T) (hidle : phase.rule? = none → ∀ w, I w → T w)
    (hcommit : ∀ rule c v w w', phase.rule? = some rule →
      c.unit = goal.unit → I w →
      Walk.Route rule c (Walk.SessionDone rule goal.unit goal) goal .root v w →
      goal.target ∈ v.members →
      Rewrites goal.unit (v.committed phase) w w' → I w' ∧ T w') :
    Advances (fun w => I w ∧ t.Alike w.thread)
      (Action.runPhase setup goal g cancellable phase) (fun _ => T) I := by
  refine Sessions.runPhase (S := Rested goal.unit.id t) hcalm
    (fun _ hw => hw.alike) (fun _ _ ht => .start ht) ?_ hreg hg hquiet hT hidle
    hcommit
  intro c _ hunit hguard
  rw [← hunit] at hI hreg hg ⊢
  exact hI.sessions hcalm hreg (hguard ▸ hg)

end StagedResolve
