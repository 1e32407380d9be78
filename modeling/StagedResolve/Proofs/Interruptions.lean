/-
Interruptions: a request that was cancelled before a phase, and its
retry.

# Checks

A request that can be cancelled does what one does that cannot, except that
it looks at its token from time to time and stops when it is cancelled
(`Action.Shortens`). So as long as it answers it has done the same, and where
it was cancelled between two phases it has done what the other one does up to
there. Sessions are cancelled in the name of the supertype phase and checks
between phases in the name of the phase that is to come, so a cancellation
says which of the two it was, unless it names the supertype phase. No hook is
called before that one, so a check before it finds the token as the request
found it (`Thread.Stopped`).

# The retry

Before the next phase everything is committed that was done, and the
markers say so (`Stage`). A request that begins there does the rest. It has
another token by then, and may have waited otherwise, but the rest of an
uninterrupted request does not look at either.
-/
import StagedResolve.Proofs.Deferral

namespace StagedResolve

open StagedResolve.Action World

namespace Context

/-- The same context for a request that cannot be cancelled. -/
def uncancellable (c : Context) : Context := { c with cancellable := false }

/-- Only sessions are cancelled: slots are resolved in the same way. -/
theorem resolveSlots_uncancellable (c : Context) (d : DeclId) (slots : List Slot) :
    c.uncancellable.resolveSlots d slots = c.resolveSlots d slots := by
  induction slots with
  | nil => rfl
  | cons slot rest ih =>
      unfold resolveSlots
      rw [ih]
      rfl

/-- So are annotations. -/
theorem resolveAnnotations_uncancellable (c : Context) (d : DeclId) (phase : Phase) :
    c.uncancellable.resolveAnnotations d phase = c.resolveAnnotations d phase := by
  unfold resolveAnnotations
  simp only [resolveSlots_uncancellable]
  rfl

/-- So are signatures. -/
theorem resolveSignature_uncancellable (c : Context) (d : DeclId) (phase : Phase) :
    c.uncancellable.resolveSignature d phase = c.resolveSignature d phase := by
  unfold resolveSignature
  simp only [resolveSlots_uncancellable]
  rfl

end Context

namespace Action

-- ================================================================== checks

/-- Looking at the token of a request that can be cancelled. -/
theorem checkCancelled_run (phase : Phase) (w : World) : checkCancelled true phase w =
    if w.thread.token.cancelled then (.error (.error (.cancelled phase)), w)
    else (.ok (), w) := by
  unfold checkCancelled Token.check
  cases w.thread.token.cancelled with
  | false => rfl
  | true => rfl

/-- The first action does what the second one does, unless it is cancelled in
the name of a phase in `K`. -/
def Shortens {α : Type} (K : Phase → Prop) (x y : Action α) : Prop :=
  ∀ w, x w = y w ∨ ∃ q w', K q ∧ x w = (.error (.error (.cancelled q)), w')

namespace Shortens

variable {α β : Type} {K : Phase → Prop} {x y : Action α}

/-- An action does what it does. -/
theorem refl (x : Action α) : Shortens K x x := fun _ => Or.inl rfl

/-- The same, for more phases. -/
theorem mono {K' : Phase → Prop} (h : Shortens K x y) (hK : ∀ q, K q → K' q) :
    Shortens K' x y :=
  fun w => (h w).imp id fun ⟨q, w', hq, hx⟩ => ⟨q, w', hK q hq, hx⟩

/-- Where it answers it has done the same. -/
theorem ok (h : Shortens K x y) {w w' : World} {a : α} (hx : x w = (.ok a, w')) :
    y w = (.ok a, w') := by
  rcases h w with heq | ⟨q, v, -, hcut⟩
  · exact heq.symm.trans hx
  · cases hcut.symm.trans hx

/-- Where it fails, and the other one does not, it was cancelled. -/
theorem cut (h : Shortens K x y) {w v w' : World} {a : α} {e : Failure}
    (hx : x w = (.error e, v)) (hy : y w = (.ok a, w')) :
    ∃ q, K q ∧ e = .error (.cancelled q) := by
  rcases h w with heq | ⟨q, v', hq, hcut⟩
  · cases hx.symm.trans (heq.trans hy)
  · cases hx.symm.trans hcut
    exact ⟨q, hq, rfl⟩

/-- One action after another. -/
theorem bind {f g : α → Action β} (h : Shortens K x y)
    (hf : ∀ a, Shortens K (f a) (g a)) : Shortens K (x >>= f) (y >>= g) := by
  intro w
  rcases h w with heq | ⟨q, v, hq, hcut⟩
  · rcases hy : y w with ⟨e | a, v⟩
    · exact Or.inl ((bind_run_error (heq.trans hy) f).trans (bind_run_error hy g).symm)
    · rw [bind_run_ok (heq.trans hy) f, bind_run_ok hy g]
      exact hf a v
  · exact Or.inr ⟨q, v, hq, bind_run_error hcut f⟩

/-- A loop over a list. -/
theorem each {f g : β → Action Unit} (h : ∀ b, Shortens K (f b) (g b))
    (bs : List β) : Shortens K (Action.each f bs) (Action.each g bs) := by
  induction bs with
  | nil => exact refl _
  | cons b rest ih => exact bind (h b) fun _ => ih

/-- A loop that collects answers. -/
theorem collect {γ : Type} {f g : β → Action γ} (h : ∀ b, Shortens K (f b) (g b))
    (bs : List β) : Shortens K (Action.collect f bs) (Action.collect g bs) := by
  induction bs with
  | nil => exact refl _
  | cons b rest ih => exact bind (h b) fun _ => bind ih fun _ => refl _

/-- A step that is left out under the same condition. -/
theorem ite {c : Prop} [Decidable c] {x' y' : Action α} (h : Shortens K x y)
    (h' : Shortens K x' y') :
    Shortens K (if c then x else x') (if c then y else y') := by
  split
  · exact h
  · exact h'

/-- Looking at the token. -/
theorem check {phase : Phase} (hK : K phase) :
    Shortens K (checkCancelled true phase) (checkCancelled false phase) := by
  intro w
  rw [checkCancelled_run]
  split
  · exact Or.inr ⟨phase, w, hK, rfl⟩
  · exact Or.inl rfl

-- ================================================================ sessions

/-- All rounds of a session. -/
theorem computeRounds (hK : K .supertypes) (config : Config) (fuel : Nat)
    (work : List Symbol) : Shortens K (Action.computeRounds config true fuel work)
      (Action.computeRounds config false fuel work) := by
  induction fuel generalizing work with
  | zero => cases work <;> exact refl _
  | succ fuel ih =>
      cases work with
      | nil => exact refl _
      | cons c rest =>
          refine bind (refl _) fun _ => bind (each (fun b => ?_) _) fun _ => ?_
          · refine bind (refl _) fun met => ite (refl _) ?_
            refine bind (refl _) fun _ => bind (refl _) fun _ => ?_
            exact bind (refl _) fun _ => bind (refl _) fun _ =>
              ite (check hK) (refl _)
          · exact bind (refl _) fun next => bind (refl _) fun _ => ih _

/-- What a walk does to a class. -/
theorem classSupertypes (hK : K .supertypes) {c : Context}
    (hc : c.cancellable = true) (d : DeclId) :
    Shortens K (PhaseRule.classSupertypes c d)
      (PhaseRule.classSupertypes c.uncancellable d) := by
  refine ite ?_ (refl _)
  refine bind (refl _) fun _ => bind (refl _) fun bound => ?_
  refine bind ?_ fun _ => refl _
  rw [hc]
  exact computeRounds hK c.setup.config bound _

end Shortens

end Action

-- =================================================================== walks

namespace Walk

/-- What a rule does to a declaration is cut short in a session at most. -/
structure CutShort (rule : PhaseRule) (c : Context) : Prop where
  header : ∀ d, Shortens (· = .supertypes) (rule.onHeader c d)
    (rule.onHeader c.uncancellable d)
  member : ∀ d, Shortens (· = .supertypes) (rule.onMember c d)
    (rule.onMember c.uncancellable d)

/-- Every rule is like that. -/
theorem CutShort.of_rule {phase : Phase} {rule : PhaseRule}
    (hrule : phase.rule? = some rule) {c : Context} (hc : c.cancellable = true) :
    CutShort rule c := by
  have hclass := Shortens.classSupertypes (K := (· = .supertypes)) rfl hc
  cases phase with
  | raw | imports | extensionAnnotations | extensionStatus | newMembers =>
      cases hrule
  | supertypes =>
      cases hrule
      exact ⟨hclass, hclass⟩
  | types =>
      cases hrule
      refine ⟨fun d => ?_, fun d => ?_⟩
      · show Shortens _ _ (c.uncancellable.resolveAnnotations d .types)
        rw [c.resolveAnnotations_uncancellable]
        exact .refl _
      · show Shortens _ _ (c.uncancellable.resolveSignature d .types)
        rw [c.resolveSignature_uncancellable]
        exact .refl _
  | sealedInheritors | status | contracts | implicitTypes =>
      cases hrule
      exact ⟨fun _ => .refl _, fun _ => .refl _⟩
  | bodies =>
      cases hrule
      refine ⟨fun _ => .refl _, fun d => ?_⟩
      have hcatch : Shortens (· = .supertypes) (PhaseRule.catchUp c d)
          (PhaseRule.catchUp c.uncancellable d) := by
        refine .bind (hclass d) fun _ => ?_
        rw [c.resolveSignature_uncancellable]
        exact .refl _
      show Shortens _ (PhaseRule.resolveBody c d) (PhaseRule.resolveBody c.uncancellable d)
      unfold PhaseRule.resolveBody
      rw [show c.uncancellable.unit = c.unit from rfl]
      cases c.unit.decl? d with
      | none => exact .refl _
      | some x => exact .ite (.bind hcatch fun _ => .refl _) (.refl _)

namespace CutShort

variable {rule : PhaseRule} {c : Context}

/-- The work on one declaration. -/
theorem workOn (h : CutShort rule c) (d : DeclId) :
    Shortens (· = .supertypes) (Walk.workOn rule c d)
      (Walk.workOn rule c.uncancellable d) :=
  .bind (h.member d) fun _ => .refl _

/-- A declaration and its members. -/
theorem visitMember (h : CutShort rule c) (fuel : Nat) (d : DeclId) :
    Shortens (· = .supertypes) (Walk.visitMember rule c fuel d)
      (Walk.visitMember rule c.uncancellable fuel d) := by
  induction fuel generalizing d with
  | zero => exact .refl _
  | succ fuel ih =>
      have hrest : ∀ fresh : Bool, Shortens (· = .supertypes)
          (do
            let rest ← Action.collect (fun m => do
              if ← Walk.skips rule c m then return .none
              Walk.visitMember rule c fuel m) (c.unit.children d)
            return (⟨[], [d], 0, if fresh then [.member d] else []⟩ : Visits)
              ++ .concat rest)
          (do
            let rest ← Action.collect (fun m => do
              if ← Walk.skips rule c m then return .none
              Walk.visitMember rule c.uncancellable fuel m) (c.unit.children d)
            return (⟨[], [d], 0, if fresh then [.member d] else []⟩ : Visits)
              ++ .concat rest) := fun fresh =>
        .bind (.collect (fun m => .bind (.refl _) fun _ => .ite (.refl _) (ih m)) _)
          fun _ => .refl _
      have hmain := Shortens.bind (K := (· = .supertypes))
        (.refl (Action.read fun w => decide (w.own c.unit d < rule.phase)))
        fun fresh => Shortens.ite (c := fresh = true)
          (.bind (h.workOn d) fun _ => hrest fresh) (hrest fresh)
      exact .ite (.bind (.refl _) fun _ => hmain) hmain

/-- A declaration on the path. -/
theorem visitHeader (h : CutShort rule c) (d : DeclId) :
    Shortens (· = .supertypes) (Walk.visitHeader rule c d)
      (Walk.visitHeader rule c.uncancellable d) :=
  .bind (h.header d) fun _ => .bind (.refl _) fun _ =>
    .bind (.each h.workOn _) fun _ => .refl _

/-- What is below a declaration, as far as the designation goes. -/
theorem visitBelow (h : CutShort rule c) (goal : Designation) (fuel : Nat)
    (parent : DeclId) :
    Shortens (· = .supertypes) (Walk.visitBelow rule c goal fuel parent)
      (Walk.visitBelow rule c.uncancellable goal fuel parent) := by
  induction fuel generalizing parent with
  | zero => exact .refl _
  | succ fuel ih =>
      refine .bind (.collect (fun d => .ite ?_ (.ite ?_ (.refl _))) _) fun _ => .refl _
      · exact .bind (h.visitMember _ d) fun _ => .refl _
      · exact .bind (h.visitHeader d) fun _ => .bind (ih d) fun _ => .refl _

/-- A whole walk. -/
theorem run (h : CutShort rule c) (goal : Designation) :
    Shortens (· = .supertypes) (Walk.run rule c goal)
      (Walk.run rule c.uncancellable goal) :=
  .bind (h.visitBelow goal _ _) fun _ => .refl _

end CutShort

end Walk

-- ================================================================== phases

namespace Action

variable {setup : Setup} {goal : Designation} {p q : Phase} {g : Guard}
  {w w' b : World}

/-- A phase is cancelled in a session at most. -/
theorem Shortens.runPhase (setup : Setup) (goal : Designation) (g : Guard)
    (phase : Phase) : Shortens (· = .supertypes)
      (Action.runPhase setup goal g true phase)
      (Action.runPhase setup goal g false phase) := by
  unfold Action.runPhase
  cases hrule : phase.rule? with
  | none => exact .refl _
  | some rule =>
      have hrun : ∀ c : Context, c.cancellable = true → Shortens (· = .supertypes)
          (do
            updateSession fun _ => .start
            let visits ← Walk.run rule c goal
            visits.commit g goal.unit phase
            count fun n => n.countCommit phase
            if setup.config.checkInvariants then checkMarkers goal phase)
          (do
            updateSession fun _ => .start
            let visits ← Walk.run rule c.uncancellable goal
            visits.commit g goal.unit phase
            count fun n => n.countCommit phase
            if setup.config.checkInvariants then checkMarkers goal phase) :=
        fun c hc => .bind (.refl _) fun _ =>
          .bind ((Walk.CutShort.of_rule hrule hc).run goal) fun _ => .refl _
      unfold Context.enter
      dsimp only
      rw [bind_assoc, bind_assoc]
      exact .bind (.refl _) fun scope => hrun ⟨setup, goal.unit, g, scope, true⟩ rfl

/-- All that is done once the unit is locked is cancelled at most. -/
theorem Shortens.resolveLocked (setup : Setup) (goal : Designation) (p : Phase)
    (g : Guard) : Shortens (fun _ => True)
      (Action.resolveLocked setup goal p true g)
      (Action.resolveLocked setup goal p false g) := by
  have hphases : ∀ phases, Shortens (fun _ => True)
      (Action.runPhases setup goal g true phases)
      (Action.runPhases setup goal g false phases) := .each fun phase =>
    .bind (.check trivial) fun _ => (runPhase setup goal g phase).mono fun _ _ => trivial
  refine .bind (.refl _) fun _ => .ite ?_ ?_
  · exact .bind (.refl _) fun _ =>
      .ite (.bind (.check trivial) fun _ => .refl _) (.refl _)
  · exact .bind (.refl _) fun _ => .ite (.refl _) (hphases _)

/-- Phases that were cancelled in the name of another phase than the supertype
phase, or by a token that was cancelled when they began, were cancelled before
that phase, and those before it are complete. -/
theorem runPhases_cut {phases : List Phase} {u : World}
    (hq : q = .supertypes → w.thread.token.cancelled = true)
    (hcut : runPhases setup goal g true phases w =
      (.error (.error (.cancelled q)), b))
    (hwhole : runPhases setup goal g false phases w = (.ok (), u)) :
    ∃ before after, phases = before ++ q :: after ∧
      runPhases setup goal g false before w = (.ok (), b) := by
  induction phases generalizing w with
  | nil => cases hcut
  | cons a rest ih =>
      obtain ⟨⟨⟩, w₁, hfirst, hrest⟩ := bind_run_eq_ok_iff.mp hwhole
      have hcheck := checkCancelled_run a w
      split at hcheck
      · -- cancelled before the first phase
        cases (bind_run_error (bind_run_error hcheck _) _).symm.trans hcut
        exact ⟨[], rest, rfl, rfl⟩
      · next hclear =>
        rcases hx : runPhase setup goal g true a w with ⟨e | ⟨⟩, v⟩
        · have hstop := (bind_run_ok hcheck fun _ =>
            runPhase setup goal g true a).trans hx
          cases (bind_run_error hstop _).symm.trans hcut
          obtain ⟨q', rfl, heq⟩ := (Shortens.runPhase setup goal g a).cut hx hfirst
          cases heq
          exact absurd (hq rfl) hclear
        · have hfirst' := (Shortens.runPhase setup goal g a).ok hx
          cases hfirst'.symm.trans hfirst
          have hgo := (bind_run_ok hcheck fun _ =>
            runPhase setup goal g true a).trans hx
          obtain ⟨before, after, rfl, hbefore⟩ := ih
            (fun hsession => absurd (hq hsession) hclear)
            ((bind_run_ok hgo _).symm.trans hcut) hrest
          exact ⟨a :: before, after, rfl, (bind_run_ok hfirst _).trans hbefore⟩

/-- Resolving the imports of a file leaves the thread alone. -/
theorem thread_of_resolveImports {a : Bool} {v : World} (hw : w.Coherent)
    (hu : w.Registered goal.unit)
    (himports : resolveImports g goal.unit w = (.ok a, v)) :
    v.thread = w.thread := by
  have hI := (Steady.coherent_self .bodies).and_registered goal.unit
  have hstatic : Static fun x =>
      (x.Coherent ∧ x.Registered goal.unit) ∧ x.thread = w.thread := {
    coherent := fun _ hx => hx.1.1
    classifier := fun x k hx => ⟨hI.classifier x k hx.1, hx.2⟩
    counters := fun x c hc hx => ⟨hI.counters x c hc hx.1, hx.2⟩ }
  have hkeeps : KeepsFile (fun x =>
      (x.Coherent ∧ x.Registered goal.unit) ∧ x.thread = w.thread) goal.unit :=
    .of_raised fun x s hx hd hs _ =>
      ⟨hI.write x goal.unit .root s hx.1 hx.1.2 hd hs, hx.2⟩
  exact ((hstatic.resolveImports hkeeps).ok ⟨⟨hw, hu⟩, rfl⟩ himports).1.2

/-- A request that was cancelled before a phase under the lock has left all that
it had done, and the rest of an uninterrupted one goes on from there. -/
theorem resume (hquiet : setup.Quiet) (hhooks : ∀ h ∈ setup.hooks, h.Oblivious)
    (hfile : goal.isFile = false) (hg : g.lock = .ofUnit goal.unit.id)
    (hw : w.Coherent) (hu : w.Registered goal.unit)
    (hq : q = .supertypes → w.thread.token.cancelled = true)
    (hcut : resolveLocked setup goal p true g w =
      (.error (.error (.cancelled q)), b))
    (hwhole : resolveLocked setup goal p false g w = (.ok (), w')) :
    resolveLocked setup goal p false g b = (.ok (), w') ∧
      ¬ p ≤ b.current goal ∧ w.thread.Alike b.thread ∧ b.registry.Coherent := by
  obtain ⟨a, v, himports, -⟩ := bind_run_eq_ok_iff.mp hwhole
  rw [resolveLocked_run hfile himports] at hcut hwhole
  split at hcut
  · cases hcut
  next hbehind =>
  rw [if_neg hbehind] at hwhole
  rw [← thread_of_resolveImports hw hu himports] at hq
  obtain ⟨before, after, hsteps, hbefore⟩ := runPhases_cut hq hcut hwhole
  -- as far as it came it has done what a request for some phase does
  obtain ⟨r, hrp, hr⟩ := Phase.exists_stepsTo_eq hsteps
  have hstage : Stage setup goal g r false w v b := by
    have hrun : ∃ w₁, resolveLocked setup goal r false g w = (.ok (), w₁) := by
      rw [resolveLocked_run hfile himports]
      split
      · exact ⟨_, rfl⟩
      · rw [hr]
        exact ⟨b, hbefore⟩
    obtain ⟨w₁, hrun⟩ := hrun
    obtain ⟨v₁, u₁, hstage, -⟩ :=
      Stage.of_resolveLocked hquiet hhooks hfile hg hw hu hrun
    obtain ⟨a', himports'⟩ := hstage.imports
    cases himports'.symm.trans himports
    have hphases := hstage.phases
    rw [hr] at hphases
    cases hphases.symm.trans hbefore
    exact hstage
  obtain ⟨x, hx⟩ := exists_reached_eq v goal.unit goal.target
  have hx : v.current goal = x.satisfied := hx
  have hrest : (max (b.current goal) .lastFileWide).stepsTo p = q :: after := by
    have happend := Phase.stepsTo_append x hrp
    rw [← hx, ← hstage.current, hr, hsteps] at happend
    exact (List.append_cancel_left happend).symm
  have hgoes : ¬ p ≤ b.current goal := fun hle => by
    rw [Phase.stepsTo_eq_nil hle] at hrest
    cases hrest
  refine ⟨?_, hgoes, hstage.thread, hstage.coherent⟩
  rw [resolveLocked_run hfile (resolveImports_of_marked hstage.marked), if_neg hgoes,
    hrest, ← hwhole, hsteps]
  exact (runPhases_append hbefore).symm

/-- Once the imports are resolved, what is left for a file is one check and its
annotations. -/
theorem resolveLocked_file_run {cancellable a : Bool} {v : World}
    (hfile : goal.isFile = true)
    (himports : resolveImports g goal.unit w = (.ok a, v)) :
    resolveLocked setup goal p cancellable g w =
      if .lastFileWide < p ∧ v.own goal.unit .root < p then
        (do
          checkCancelled cancellable p
          resolveFileAnnotations setup goal.unit g p) v
      else (.ok (), v) := by
  unfold resolveLocked
  rw [bind_run_ok himports, hfile]
  show (if decide (.lastFileWide < p) && decide (v.own goal.unit .root < p) then _
    else _ : Action Unit) v = _
  by_cases hmore : .lastFileWide < p ∧ v.own goal.unit .root < p
  · rw [if_pos hmore, if_pos (by simpa using hmore)]
  · rw [if_neg hmore, if_neg (by simpa using hmore)]
    rfl

/-- It is the same for a file. Its annotations are what is left, unless the
imports are all that the phase needs. -/
theorem resume_file (hhooks : ∀ h ∈ setup.hooks, h.Oblivious)
    (hfile : goal.isFile = true) (hw : w.Coherent) (hu : w.Registered goal.unit)
    (hbehind : ¬ p ≤ w.current goal) (hp : p ≠ .extensionAnnotations)
    (hcut : resolveLocked setup goal p true g w =
      (.error (.error (.cancelled q)), b))
    (hwhole : resolveLocked setup goal p false g w = (.ok (), w')) :
    resolveLocked setup goal p false g b = (.ok (), w') ∧
      ¬ p ≤ b.current goal ∧ w.thread.Alike b.thread ∧ b.registry.Coherent := by
  obtain ⟨a, v, himports, -⟩ := bind_run_eq_ok_iff.mp hwhole
  rw [resolveLocked_file_run hfile himports] at hcut hwhole
  split at hcut
  · next hmore =>
    rw [if_pos hmore] at hwhole
    have hI := (hw.steady_within .imports).and_registered goal.unit
    obtain ⟨⟨hv, hwithin⟩, huv⟩ := (hI.resolveImports (Phase.le_refl _)
      fun _ h => h.2).ok ⟨⟨hw, .refl _ w⟩, hu⟩ himports
    have hself := (Steady.coherent_self .bodies).and_registered goal.unit
    obtain ⟨-, hmarked⟩ := (hself.idle.resolveImports (g := g) (.of_raised
      fun w s hw hd hs _ => hself.write w goal.unit .root s hw hw.2 hd hs)).ok
        ⟨hw, hu⟩ himports
    have hkept : (SideBySide.keepsThread w.thread).Phases setup false :=
      KeepsThread.phases hhooks w.thread
    have hthread := (hkept.resolveImports trivial g).triple.ok
      ⟨.refl _, hw.registry⟩ himports
    have hcheck := checkCancelled_run p v
    split at hcheck
    · cases (bind_run_error hcheck _).symm.trans hcut
      refine ⟨?_, fun hle => hbehind ?_, hthread.1, hv.registry⟩
      · rw [resolveLocked_file_run hfile (resolveImports_of_marked hmarked),
          if_pos hmore, hwhole]
      · -- imports vouch for nothing beyond them
        have hraw : .raw < p := Nat.lt_of_le_of_lt (Nat.zero_le _) hmore.1
        have hcore : .imports < p.core := by
          have hlow := hmore.1
          revert hp hlow
          cases p <;> decide
        exact (World.le_reached_iff_vouches hraw).mpr (hwithin.vouches huv
          (Phase.le_refl _) hcore ((World.le_reached_iff_vouches hraw).mp hle))
    · cases ((bind_run_ok hcheck _).symm.trans hcut).symm.trans
        ((bind_run_ok (show checkCancelled false p v = (.ok (), v) from rfl)
          _).symm.trans hwhole)
  · cases hcut

end Action

-- ======================================================= outside of the lock

namespace Thread

variable {s t : Thread} {l : LockId} {p : Phase}

/-- A request for what is behind a lock is stopped before it has done anything:
its token was cancelled, or is going to be while the thread waits. -/
def Stopped (t : Thread) (l : LockId) : Prop :=
  t.token.cancelled = true ∨
    ((t.mutex l).theirs = true ∧ t.token.pending = true)

/-- A thread that is cancelled while it waits has the locks that it had. -/
theorem of_lockCancellable {e : ResolveError}
    (h : t.lockCancellable l p = (.error e, s)) :
    s.mutexes = t.mutexes ∧ s.held = t.held := by
  unfold lockCancellable at h
  split at h
  · cases h
    exact ⟨rfl, rfl⟩
  · split at h
    · cases h
      exact ⟨rfl, rfl⟩
    · cases h

/-- A lock that is got in order nobody else has, or it may be waited for. -/
theorem free_of_lockOrdered {g : Guard} (h : (t.lockOrdered l).1 = some g)
    (hmay : ¬ (t.owns l || t.mayWaitFor l.unit) = true) :
    (t.mutex l).theirs = false := by
  unfold lockOrdered tryLock at h
  rw [if_neg hmay] at h
  split at h
  · cases h
  · next hfree => exact Bool.eq_false_iff.mpr hfree

/-- A thread that gets a lock was not cancelled while it waited. -/
theorem Stopped.cancelled_of_lockCancellable {g : Guard} (h : t.Stopped l)
    (hlock : (t.lockCancellable l p).1 = .ok g) : t.token.cancelled = true := by
  refine h.resolve_right fun hwait => ?_
  unfold lockCancellable at hlock
  split at hlock
  · cases hlock
  · rw [hwait.1, hwait.2] at hlock
    cases hlock

end Thread

namespace Action

variable {setup : Setup} {goal : Designation} {p : Phase} {w w' : World}

/-- So if it is to be stopped, its token was cancelled before. -/
theorem cancelled_of_lockForRequest {id : UnitId} {g : Guard}
    (hstop : w.thread.Stopped (.ofUnit id))
    (h : lockForRequest id p true w = (.ok g, w')) :
    w.thread.token.cancelled = true := by
  have hwait : read (fun w => w.thread.owns (.ofUnit id) || w.thread.mayWaitFor id) w =
      (.ok (w.thread.owns (.ofUnit id) || w.thread.mayWaitFor id), w) := rfl
  have hheld : read (fun w => w.thread.highest?.getD id) w =
      (.ok (w.thread.highest?.getD id), w) := rfl
  unfold lockForRequest at h
  rw [bind_run_ok hwait] at h
  split at h
  · have h : lockUnitCancellable id p w = (.ok g, w') := h
    unfold lockUnitCancellable at h
    rcases hr : w.thread.lockCancellable (.ofUnit id) p with ⟨e | g', t⟩
    · rw [hr] at h
      cases h
    · exact hstop.cancelled_of_lockCancellable (p := p) (by rw [hr])
  · next hmay =>
    rw [bind_run_ok hheld, bind_run_ok (lockUnitOrdered_run id w)] at h
    cases hr : (w.thread.lockOrdered (.ofUnit id)).1 with
    | none =>
        rw [hr] at h
        cases h
    | some g' =>
        refine hstop.resolve_right fun hwait => ?_
        rw [Thread.free_of_lockOrdered hr hmay] at hwait
        cases hwait.1

/-- A lock that was not got leaves the thread with the locks that it had. -/
theorem lockForRequest_eq_error {id : UnitId} {cancellable : Bool} {e : Failure}
    (h : lockForRequest id p cancellable w = (.error e, w')) :
    ∃ t : Thread, w' = { w with thread := t } ∧
      t.mutexes = w.thread.mutexes ∧ t.held = w.thread.held := by
  have hwait : read (fun w => w.thread.owns (.ofUnit id) || w.thread.mayWaitFor id) w =
      (.ok (w.thread.owns (.ofUnit id) || w.thread.mayWaitFor id), w) := rfl
  have hheld : read (fun w => w.thread.highest?.getD id) w =
      (.ok (w.thread.highest?.getD id), w) := rfl
  unfold lockForRequest at h
  rw [bind_run_ok hwait] at h
  split at h
  · cases cancellable with
    | false => cases h
    | true =>
        have h : lockUnitCancellable id p w = (.error e, w') := h
        unfold lockUnitCancellable at h
        rcases hr : w.thread.lockCancellable (.ofUnit id) p with ⟨f | g, t⟩
        · rw [hr] at h
          cases h
          exact ⟨t, rfl, Thread.of_lockCancellable hr⟩
        · rw [hr] at h
          cases h
  · rw [bind_run_ok hheld, bind_run_ok (lockUnitOrdered_run id w)] at h
    cases hr : (w.thread.lockOrdered (.ofUnit id)).1 with
    | none =>
        rw [hr, (Thread.blocked_of_lockOrdered hr).2] at h
        cases h
        exact ⟨w.thread, rfl, rfl, rfl⟩
    | some g =>
        rw [hr] at h
        cases h

/-- A cancellation that is counted is one of the action itself. -/
theorem countingCancellation_eq_error {x : Action Unit} {e : Failure}
    (h : countingCancellation x w = (.error e, w')) :
    ∃ v c, x w = (.error e, v) ∧ w' = { v with counters := c } := by
  have hattempt : attempt x w = (.ok (x w).1, (x w).2) := rfl
  unfold countingCancellation at h
  rw [bind_run_ok hattempt] at h
  rcases hx : x w with ⟨f | ⟨⟩, v⟩ <;> rw [hx] at h
  · dsimp only at h
    split at h
    · cases h
      exact ⟨_, _, rfl, rfl⟩
    · cases h
      exact ⟨w', w'.counters, rfl, rfl⟩
  · cases h

end Action

-- ==================================================================== requests

section requests

variable {setup : Setup} {goal : Designation} {p q : Phase} {g : Guard}
  {w w₁ w₂ w₃ : World}

/-- What is done under the lock looks neither at the token nor at the counters,
if it cannot be cancelled. -/
theorem Registry.Coherent.same_of_resolveLocked {v v' w' : World}
    (hv : v.registry.Coherent) (hhooks : ∀ h ∈ setup.hooks, h.Blind) {s t : Thread}
    {c c' : Counters} (hst : s.Freer t) (hts : t.Freer s)
    (hfirst : resolveLocked setup goal p false g { v with
      thread := s, counters := c } = (.ok (), v'))
    (hsecond : resolveLocked setup goal p false g { v with
      thread := t, counters := c' } = (.ok (), w')) :
    v'.registry = w'.registry ∧ ∀ u d, v'.state u d = w'.state u d := by
  have hphases : (SideBySide.contest ⟨s, t, fun _ => none, false⟩ (fun _ _ => True)
      fun _ => False).Phases setup false :=
    Contest.phases (fun _ => rfl) hst hhooks nofun (.of_states fun _ _ => trivial)
      (fun _ _ _ _ => trivial) fun _ _ _ hid _ => Or.inl (hts.blocked hid)
  obtain ⟨-, hend, -⟩ := (hphases.resolveLocked goal p g).leads.ok
    ⟨.of_threads hv (.refl s) (.refl t) nofun nofun, trivial⟩ hfirst hsecond id
  exact ⟨hend.registry, fun u d => hend.state rfl d⟩

/-- A request from a world that is halfway does what is left under the lock, if
the thread gets the lock as it had it. -/
theorem Registry.Coherent.same_of_rest {b : World} (hb : b.registry.Coherent)
    (hhooks : ∀ h ∈ setup.hooks, h.Blind) (hbehind : ¬ p ≤ b.current goal)
    {t : Thread} {c : Counters} {u u' : World}
    (hguard : (t.lock (.ofUnit goal.unit.id)).1 = g)
    (hfreer : (t.lock (.ofUnit goal.unit.id)).2.Freer b.thread)
    (hfreer' : b.thread.Freer (t.lock (.ofUnit goal.unit.id)).2)
    (hretry : Action.resolveDesignation setup goal p true
      { b with thread := t, counters := c } = (.ok (), u'))
    (hrest : resolveLocked setup goal p false g b = (.ok (), u)) :
    u'.registry = u.registry ∧ ∀ z d, u'.state z d = u.state z d := by
  have hbehind' : ¬ p ≤ { b with thread := t, counters := c }.current goal := hbehind
  obtain ⟨g', _, u', hlock, hretry, rfl⟩ :=
    resolveUnderLock_eq_ok.mp ((resolveDesignation_eq_ok hbehind').mp hretry)
  obtain ⟨rfl, rfl, -⟩ := lockForRequest_eq_ok hlock
  have hguard : (({ b with thread := t, counters := c } : World).thread.lock
      (.ofUnit goal.unit.id)).1 = g := hguard
  rw [hguard] at hretry
  have hretry := (Shortens.resolveLocked setup goal p g).ok hretry
  show u'.registry = u.registry ∧ ∀ z d, u'.state z d = u.state z d
  exact hb.same_of_resolveLocked hhooks hfreer hfreer' hretry hrest

/-- A request for a designation that was cancelled before a phase, or while it
waited for the lock, and the same request afterwards leave what a single one
leaves that is not cancelled. -/
theorem World.Coherent.same_of_retry (hw : w.Coherent)
    (hhooks : ∀ h ∈ setup.hooks, h.Blind)
    (hfile : goal.isFile = true → p ≠ .extensionAnnotations)
    (hu : w.Registered goal.unit)
    (hq : q = .supertypes → w.thread.Stopped (.ofUnit goal.unit.id))
    {tk : Token} {c : Counters}
    (hcut : Action.resolveDesignation setup goal p true w =
      (.error (.error (.cancelled q)), w₁))
    (hretry : Action.resolveDesignation setup goal p true { w₁ with
      thread := { w₁.thread with token := tk }, counters := c } = (.ok (), w₂))
    (hwhole : Action.resolveDesignation setup goal p false w = (.ok (), w₃)) :
    w₂.registry = w₃.registry ∧ ∀ u d, w₂.state u d = w₃.state u d := by
  by_cases hle : p ≤ w.current goal
  · cases (resolveDesignation_of_le_current hle).symm.trans hcut
  have hrun : Action.resolveDesignation setup goal p true w =
      countingCancellation (resolveUnderLock setup goal p true) w := by
    show (if p ≤ w.current goal then count Counters.countAlreadyResolved else _) w = _
    rw [if_neg hle]
  obtain ⟨v, c', hstop, rfl⟩ := countingCancellation_eq_error (hrun.symm.trans hcut)
  obtain ⟨g, v₀, u, hlock, hwhole, rfl⟩ :=
    resolveUnderLock_eq_ok.mp ((resolveDesignation_eq_ok hle).mp hwhole)
  obtain ⟨hg, rfl, -⟩ := lockForRequest_eq_ok hlock
  show w₂.registry = u.registry ∧ ∀ z d, w₂.state z d = u.state z d
  have hv₀ := (Steady.coherent_self .bodies).thread w
    (w.thread.lock (.ofUnit goal.unit.id)).2 hw
  rcases hcutlock : lockForRequest goal.unit.id p true w with ⟨e | g', v'⟩
  · -- cancelled while it waited
    cases (bind_run_error hcutlock _).symm.trans hstop
    obtain ⟨t, rfl, hm, hh⟩ := lockForRequest_eq_error hcutlock
    have hfreer : Thread.Freer { t with token := tk } w.thread := .of_eq hm hh
    have hfreer' : w.thread.Freer { t with token := tk } := .of_eq hm.symm hh.symm
    exact hv₀.registry.same_of_rest (b := { w with
      thread := (w.thread.lock (.ofUnit goal.unit.id)).2 }) hhooks hle
      ((hfreer.guard _).trans hg.symm) (hfreer.lock _) (hfreer'.lock _) hretry hwhole
  · -- cancelled once it had the lock
    have hq : q = .supertypes → w.thread.token.cancelled = true := fun hsession =>
      cancelled_of_lockForRequest (hq hsession) hcutlock
    rw [← w.thread.token_lock (.ofUnit goal.unit.id)] at hq
    obtain ⟨rfl, rfl, -⟩ := lockForRequest_eq_ok hcutlock
    rw [← hg] at hcutlock
    have hstop := (bind_run_ok hcutlock fun g =>
      holding g (resolveLocked setup goal p true g)).symm.trans hstop
    unfold holding at hstop
    rcases hx : resolveLocked setup goal p true g { w with
      thread := (w.thread.lock (.ofUnit goal.unit.id)).2 } with ⟨e | a, b⟩
    · rw [hx] at hstop
      cases hstop
      obtain ⟨r, hr, hfree⟩ := w.thread.lock_eq_acquire (.ofUnit goal.unit.id)
      have hglock : g.lock = .ofUnit goal.unit.id := by
        rw [hg, Thread.lock_guard]
      have hoblivious : ∀ h ∈ setup.hooks, h.Oblivious := fun h hh => (hhooks h hh).oblivious
      obtain ⟨hrest, hbehind, halike, hb⟩ : resolveLocked setup goal p false g b =
          (.ok (), u) ∧ ¬ p ≤ b.current goal ∧
          (w.thread.lock (.ofUnit goal.unit.id)).2.Alike b.thread ∧
          b.registry.Coherent := by
        cases hf : goal.isFile with
        | true => exact resume_file hoblivious hf hv₀ hu hle (hfile hf) hx hwhole
        | false =>
            exact resume (fun h hh => (hhooks h hh).quiet) hoblivious hf hglock hv₀ hu
              hq hx hwhole
      rw [hr] at halike
      obtain ⟨hguard, hsame⟩ := Thread.relock hfree halike
      rw [← hr, ← hg] at hguard hsame
      -- the token is no matter of locks
      have hfreer : Thread.Freer { b.thread.release g with token := tk }
        (b.thread.release g) := .of_eq rfl rfl
      have hfreer' : (b.thread.release g).Freer
        { b.thread.release g with token := tk } := .of_eq rfl rfl
      exact hb.same_of_rest hhooks hbehind ((hfreer.guard _).trans hguard)
        ((hfreer.lock _).trans (.of_same hsame.symm))
        ((Thread.Freer.of_same hsame).trans (hfreer'.lock _)) hretry hrest
    · rw [hx] at hstop
      cases hstop

end requests

/-- A request that is cancelled before a phase, or while it waits for the lock,
and is made again once the token is another one leaves what a single request
leaves that is not cancelled: the same slots, diagnostics included, and the same
markers, of every declaration. A phase is named by the cancellation, and a
cancellation in a session names the supertype phase; one in the name of that
phase comes before all sessions if the request was stopped from the start. Hooks
may write to the log and change the token. -/
theorem state_eq_of_retry {setup : Setup} (hhooks : ∀ h ∈ setup.hooks, h.Blind)
    {w w₁ w₂ w₃ : World} (hw : Reaches setup anyCall w) {allowLocal : Bool}
    {s : Symbol} {p q : Phase} (hp : p ≠ .extensionAnnotations)
    (hq : q = .supertypes → w.thread.Stopped (.ofUnit s.unit)) {token : Token}
    (hcut : Action.request setup allowLocal s p true w =
      (.error (.error (.cancelled q)), w₁))
    (hretry : Action.request setup allowLocal s p true { w₁ with
      thread := { w₁.thread with token := token } } = (.ok (), w₂))
    (hwhole : Action.request setup allowLocal s p false w = (.ok (), w₃))
    (u : CompilationUnit) (d : DeclId) : w₂.state u d = w₃.state u d := by
  have hquiet : setup.Quiet := fun h hh => (hhooks h hh).quiet
  have hcoherent := hw.coherent hquiet
  by_cases hraw : p = .raw
  · subst hraw
    cases hcut
  rcases Action.request_cases setup allowLocal s p w.registry with
    ⟨answer, hrun⟩ | ⟨z, x, goal, hs, hx, hgoal, hrun⟩
  · cases congrArg Prod.fst ((hrun w true rfl).symm.trans hcut)
    cases (hrun w false rfl).symm.trans hwhole
  -- the declaration is still there, so it is the same designation again
  obtain ⟨hunit, hdecl⟩ := Registry.declaration_eq_ok_iff.mp hs
  obtain ⟨hz, hid⟩ := hcoherent.registered hunit
  have hz₁ : w₁.Registered z :=
    ((((Steady.coherent_self .bodies).and_registered z).request hquiet).error
      ⟨hcoherent, hz⟩ hcut).2
  have hs₁ : w₁.registry.declaration s = .ok (z, x) :=
    Registry.declaration_eq_ok_iff.mpr ⟨hid ▸ hz₁, hdecl⟩
  rw [hrun w true rfl] at hcut
  rw [hrun w false rfl] at hwhole
  have hretry := (Action.request_eq_resolveDesignation (w := { w₁ with
    thread := { w₁.thread with token := token } }) hraw hs₁ hx hgoal).symm.trans hretry
  have hcounted := (Steady.coherent_self .bodies).counters w
    w.counters.countRequest (Nat.le_refl _) hcoherent
  have hgoalz : { w with counters := w.counters.countRequest }.Registered goal.unit :=
    (CompilationUnit.unit_of_designateWith hgoal).symm ▸ hz
  refine (hcounted.same_of_retry hhooks (fun _ => hp) hgoalz (fun hsession => ?_)
    hcut hretry hwhole).2 u d
  rw [CompilationUnit.unit_of_designateWith hgoal, hid]
  exact hq hsession

/-- A hook cancels the request as it resolves the types, and it is made again
for the rest. -/
theorem state_eq_of_retry_derivedUser :
    let setup : Setup := { Setup.plain .default with
      hooks := [.only (some .types) none .canceller] }
    let w := World.after setup [.addUnit .base, .addUnit .derivedUser]
    let w₁ := (Action.request setup false ⟨⟨1⟩, ⟨2⟩⟩ .status true w).2
    let w₂ := (Action.request setup false ⟨⟨1⟩, ⟨2⟩⟩ .status true { w₁ with
      thread := { w₁.thread with token := .clear } }).2
    let w₃ := (Action.request setup false ⟨⟨1⟩, ⟨2⟩⟩ .status false w).2
    w₁.counters.cancellations = 1 ∧ w₁.counters.committedTimes .types = 1 ∧
      w₂.counters.committedTimes .types = 1 ∧ ∀ u d, w₂.state u d = w₃.state u d := by
  intro setup w w₁ w₂ w₃
  have hhooks : ∀ h ∈ setup.hooks, h.Blind := fun h hh =>
    List.mem_singleton.mp hh ▸ Hook.blind_canceller.only _ _
  have hcut : Action.request setup false ⟨⟨1⟩, ⟨2⟩⟩ .status true w =
      (.error (.error (.cancelled .status)), w₁) := run_of_fst (by decide +kernel)
  have hretry : Action.request setup false ⟨⟨1⟩, ⟨2⟩⟩ .status true { w₁ with
      thread := { w₁.thread with token := .clear } } = (.ok (), w₂) :=
    run_of_fst (by decide +kernel)
  have hwhole : Action.request setup false ⟨⟨1⟩, ⟨2⟩⟩ .status false w = (.ok (), w₃) :=
    run_of_fst (by decide +kernel)
  have hcounted : w₁.counters.cancellations = 1 ∧ w₁.counters.committedTimes .types = 1 ∧
      w₂.counters.committedTimes .types = 1 := by decide +kernel
  have hw : Reaches setup anyCall w := Reaches.after setup _
  clear_value w₁ w₂ w₃ w
  exact ⟨hcounted.1, hcounted.2.1, hcounted.2.2,
    state_eq_of_retry hhooks hw (by decide) (fun h => absurd h (by decide)) hcut
      hretry hwhole⟩

/-- A class that is inherited through two others around it. -/
def UnitSpec.innermostBase : UnitSpec :=
  .ofEntries "a.kt" [.member 0 (.classNamed "Outer" ["Outer.Mid.Inner"]),
    .member 1 (.classNamed "Mid" ["Base"]), .member 2 (.classNamed "Inner" []),
    .member 3 (.functionNamed "m" none), .member 0 (.classNamed "Base" [])]

/-- A cancellation in a session does harm: what the session has written back
until then marks the member of a class that it was about, and the marker of the
member answers for the classes around it. So the retry does nothing about the one
in the middle. -/
theorem not_state_eq_of_retry :
    let setup : Setup := { Setup.plain { Config.default with interval := 1 } with
      hooks := [.only (some .supertypes) (some "Outer") .canceller] }
    let w := World.after setup [.addUnit .innermostBase]
    ∃ w₁ w₂ w₃ u, Reaches setup anyCall w ∧ w.registry.unit? ⟨0⟩ = some u ∧
      Action.request setup false ⟨⟨0⟩, ⟨4⟩⟩ .supertypes true w =
        (.error (.error (.cancelled .supertypes)), w₁) ∧
      Action.request setup false ⟨⟨0⟩, ⟨4⟩⟩ .supertypes true { w₁ with
        thread := { w₁.thread with token := .clear } } = (.ok (), w₂) ∧
      Action.request setup false ⟨⟨0⟩, ⟨4⟩⟩ .supertypes false w = (.ok (), w₃) ∧
      (w₂.slots u ⟨2⟩).supertypes = [.written (.named "Base")] ∧
      (w₃.slots u ⟨2⟩).supertypes = [.resolved (.classType ⟨⟨0⟩, ⟨5⟩⟩ [] false)] := by
  intro setup w
  have hcut : (Action.request setup false ⟨⟨0⟩, ⟨4⟩⟩ .supertypes true w).1 =
      .error (.error (.cancelled .supertypes)) := by decide +kernel
  have hretry : (Action.request setup false ⟨⟨0⟩, ⟨4⟩⟩ .supertypes true
      { (Action.request setup false ⟨⟨0⟩, ⟨4⟩⟩ .supertypes true w).2 with
        thread := { (Action.request setup false ⟨⟨0⟩, ⟨4⟩⟩ .supertypes true w).2.thread with
          token := .clear } }).1 = .ok () := by decide +kernel
  have hwhole : (Action.request setup false ⟨⟨0⟩, ⟨4⟩⟩ .supertypes false w).1 = .ok () := by
    decide +kernel
  have hslots : (w.registry.unit? ⟨0⟩).any (fun u => decide (
      ((Action.request setup false ⟨⟨0⟩, ⟨4⟩⟩ .supertypes true
        { (Action.request setup false ⟨⟨0⟩, ⟨4⟩⟩ .supertypes true w).2 with
          thread := { (Action.request setup false ⟨⟨0⟩, ⟨4⟩⟩ .supertypes true w).2.thread with
            token := .clear } }).2.slots u ⟨2⟩).supertypes = [.written (.named "Base")] ∧
      ((Action.request setup false ⟨⟨0⟩, ⟨4⟩⟩ .supertypes false w).2.slots u
        ⟨2⟩).supertypes = [.resolved (.classType ⟨⟨0⟩, ⟨5⟩⟩ [] false)])) = true := by
    decide +kernel
  obtain ⟨u, hu, hslots⟩ := Option.any_eq_true _ _ |>.mp hslots
  exact ⟨_, _, _, u, Reaches.after setup _, hu, run_of_fst hcut, run_of_fst hretry,
    run_of_fst hwhole, of_decide_eq_true hslots⟩

end StagedResolve
