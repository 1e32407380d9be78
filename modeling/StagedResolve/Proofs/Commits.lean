/-
Commits: what becomes of the markers when a walk has succeeded.

A commit writes to the declarations that the walk has visited, under the
guard of their unit, so it cannot fail, and what it leaves can be told
declaration by declaration (`Visits.commit_run`): the own marker of
every visited declaration has risen to the phase, the marker of the whole
has risen for members, and nothing else has changed.
-/
import StagedResolve.Proofs.Walks

namespace StagedResolve

open StagedResolve.Action World

-- ================================================== changes of states

/-- Only states of declarations of one unit have changed, each as told. -/
structure World.Rewrites (u : CompilationUnit)
    (f : DeclId → DeclState → DeclState) (w w' : World) : Prop where
  rest : w' = { w with states := w'.states }
  state : ∀ v e, w.Registered v →
    w'.state v e = if v = u then f e (w.state u e) else w.state v e
  others : ∀ s, s.unit ≠ u.id → w'.states.find? s = w.states.find? s

namespace World.Rewrites

variable {u : CompilationUnit} {f g : DeclId → DeclState → DeclState}
  {w w' w'' : World}

/-- Nothing changes. -/
theorem refl (h : ∀ e s, f e s = s) (w : World) : Rewrites u f w w := by
  refine ⟨rfl, fun v e _ => ?_, fun _ _ => rfl⟩
  split
  · next heq => rw [h, heq]
  · rfl

/-- The registry has not changed. -/
theorem registry (h : Rewrites u f w w') : w'.registry = w.registry := by
  rw [h.rest]

/-- The same units are registered. -/
theorem registered_iff (h : Rewrites u f w w') {v : CompilationUnit} :
    w'.Registered v ↔ w.Registered v := by
  rw [Registered, h.registry, Registered]

/-- The state of a declaration of the unit. -/
theorem state_self (h : Rewrites u f w w') (hu : w.Registered u)
    (e : DeclId) : w'.state u e = f e (w.state u e) := by
  rw [h.state u e hu, if_pos rfl]

/-- One change after another. -/
theorem trans (hu : w.Registered u) (h : Rewrites u f w w')
    (h' : Rewrites u g w' w'') :
    Rewrites u (fun e s => g e (f e s)) w w'' := by
  refine ⟨?_, fun v e hv => ?_, fun s hs =>
    (h'.others s hs).trans (h.others s hs)⟩
  · rw [h'.rest, h.rest]
  · rw [h'.state v e (h.registered_iff.mpr hv)]
    split
    · rw [h.state_self hu]
    · next hne => rw [h.state v e hv, if_neg hne]

/-- The same change in other words. -/
theorem congr (h : Rewrites u f w w') (hfg : ∀ e s, f e s = g e s) :
    Rewrites u g w w' := by
  have hfg : f = g := funext fun e => funext fun s => hfg e s
  exact hfg ▸ h

/-- One state is set. -/
theorem of_setState (hu : w.Registered u) (d : DeclId)
    (f : DeclState → DeclState) :
    Rewrites u (fun e s => if e = d then f s else s) w
      (w.setState u d (f (w.state u d))) := by
  refine ⟨rfl, fun v e hv => ?_, fun s hs => ?_⟩
  case refine_2 =>
    refine Table.find?_insert_of_ne _ _ fun h => hs ?_
    rw [← h]
    rfl
  rw [state_setState hu hv]
  by_cases hvu : v = u
  · subst hvu
    rw [if_pos rfl]
    by_cases hed : e = d
    · subst hed
      rw [if_pos ⟨rfl, rfl⟩, if_pos rfl]
    · rw [if_neg fun h => hed h.2.symm, if_neg hed]
  · rw [if_neg fun h => hvu h.1.symm, if_neg hvu]

end World.Rewrites

-- ============================================================== writing

namespace Action

variable {g : Guard} {u : CompilationUnit} {w : World}

/-- Writing to a declaration under the guard of its unit sets its state. -/
theorem writeState_eq (hg : g.lock = .ofUnit u.id) {d : DeclId}
    (hd : (u.decl? d).isSome) (f : DeclState → DeclState) (w : World) :
    writeState g u d f w = (.ok (), w.setState u d (f (w.state u d))) := by
  unfold writeState
  rw [if_neg (fun h => h hg)]
  cases h : u.decl? d with
  | none => simp [h] at hd
  | some x => rfl

/-- Writing to a declaration under the guard of its unit. -/
theorem writeState_run (hg : g.lock = .ofUnit u.id) (hu : w.Registered u)
    {d : DeclId} (hd : (u.decl? d).isSome) (f : DeclState → DeclState) :
    ∃ w', writeState g u d f w = (.ok (), w') ∧
      Rewrites u (fun e s => if e = d then f s else s) w w' := by
  exact ⟨_, writeState_eq hg hd f w, .of_setState hu d f⟩

/-- Doing the same to several declarations, where doing it twice is doing
it once. -/
theorem each_run {body : DeclId → Action Unit} {f : DeclState → DeclState}
    (hf : ∀ s, f (f s) = f s) (hu : w.Registered u) (ds : List DeclId)
    (hbody : ∀ d ∈ ds, ∀ v, v.Registered u → ∃ v', body d v = (.ok (), v') ∧
      Rewrites u (fun e s => if e = d then f s else s) v v') :
    ∃ w', each body ds w = (.ok (), w') ∧
      Rewrites u (fun e s => if e ∈ ds then f s else s) w w' := by
  induction ds generalizing w with
  | nil => exact ⟨w, rfl, .refl (fun e s => if_neg List.not_mem_nil) w⟩
  | cons d rest ih =>
      obtain ⟨v, hrun, hv⟩ := hbody d (List.mem_cons_self ..) w hu
      obtain ⟨w', hrun', hw'⟩ := ih (hv.registered_iff.mpr hu)
        fun d' hd' => hbody d' (List.mem_cons_of_mem _ hd')
      refine ⟨w', (bind_run_ok hrun _).trans hrun', ?_⟩
      refine (hv.trans hu hw').congr fun e s => ?_
      by_cases hed : e = d
      · subst hed
        by_cases her : e ∈ rest <;> simp [her, hf]
      · simp [hed]

end Action

-- ============================================================== commits

/-- Raising a marker twice to the same phase. -/
theorem Phase.raise_raise (p q : Phase) : (p.raise q).raise q = p.raise q := by
  cases p <;> cases q <;> rfl

namespace Visits

/-- The state of a declaration once the visits are committed. -/
def committed (v : Visits) (p : Phase) (d : DeclId) (s : DeclState) :
    DeclState :=
  { s with
    own := if d ∈ v.headers ∨ d ∈ v.members then s.own.raise p else s.own
    below := if d ∈ v.members then s.below.raise p else s.below }

/-- A commit under the guard of the unit does not fail, and raises the
markers of what was visited. -/
theorem commit_run {v : Visits} {g : Guard} {u : CompilationUnit} {p : Phase}
    {w : World} (hg : g.lock = .ofUnit u.id) (hu : w.Registered u)
    (hv : ∀ d, d ∈ v.headers ∨ d ∈ v.members → (u.decl? d).isSome) :
    ∃ w', v.commit g u p w = (.ok (), w') ∧
      Rewrites u (v.committed p) w w' := by
  obtain ⟨w₁, hrun₁, h₁⟩ := each_run (f := fun s => { s with own := s.own.raise p })
    (fun s => by rw [Phase.raise_raise]) hu v.headers fun d hd w' hu' =>
      writeState_run hg hu' (hv d (Or.inl hd)) _
  have hu₁ := h₁.registered_iff.mpr hu
  have hboth : ∀ d ∈ v.members, ∀ w', w'.Registered u → ∃ w'',
      (do Action.raiseOwn g u d p; Action.raiseBelow g u d p) w' = (.ok (), w'') ∧
        Rewrites u (fun e s => if e = d then
          { s with own := s.own.raise p, below := s.below.raise p } else s)
          w' w'' := by
    intro d hd w' hu'
    obtain ⟨a, hruna, ha⟩ := writeState_run hg hu' (hv d (Or.inr hd))
      fun s => { s with own := s.own.raise p }
    obtain ⟨b, hrunb, hb⟩ := writeState_run hg (ha.registered_iff.mpr hu')
      (hv d (Or.inr hd)) fun s => { s with below := s.below.raise p }
    refine ⟨b, (bind_run_ok hruna _).trans hrunb, ?_⟩
    refine (ha.trans hu' hb).congr fun e s => ?_
    by_cases hed : e = d <;> simp [hed]
  obtain ⟨w₂, hrun₂, h₂⟩ := each_run
    (fun s => by rw [Phase.raise_raise, Phase.raise_raise]) hu₁ v.members hboth
  refine ⟨w₂, (bind_run_ok hrun₁ _).trans hrun₂, ?_⟩
  refine (h₁.trans hu h₂).congr fun e s => ?_
  unfold committed
  by_cases hh : e ∈ v.headers <;> by_cases hm : e ∈ v.members <;>
    simp [hh, hm, Phase.raise_raise]

end Visits

end StagedResolve
