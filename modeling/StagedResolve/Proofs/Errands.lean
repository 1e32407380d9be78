/-
Errands: what a walk leaves of the work on its way.

# Order

A walk works on nothing twice, and on nothing that something belongs to
which it has worked on before (`Designation.Matches.plan_orderly`). So a
piece of work finds the slots of its declaration as they were at the
start, and the type of what the declaration belongs to as it will be in
the end; and no piece is undone by another (`Blueprint.Governs.each_perform`).

# What is worked on

Own markers do not move on a walk. So below the target it works on those
of the members it comes by that were not marked when it began
(`Walk.along_fresh`), and on the way to the target it passes the path and
works on its type parameters in any case.

# Whole walks

Put together: in a governed world, where no work fails, a walk comes to
its end, and the slots that it leaves can be told declaration by
declaration (`Blueprint.Governs.run_walk`).
-/
import StagedResolve.Proofs.Itineraries
import StagedResolve.Proofs.Wholes
import StagedResolve.Proofs.Workings

namespace StagedResolve

open StagedResolve.Action World

-- ============================================================ pieces of work

/-- The declaration that a piece of work is done on. -/
def Work.decl : Work → DeclId
  | .header d => d
  | .member d => d

/-- Work in an order in which no declaration is worked on twice, and none
after something that belongs to it. -/
def Work.Orderly (u : CompilationUnit) (works : List Work) : Prop :=
  works.Pairwise fun k k' =>
    k.decl ≠ k'.decl ∧ u.parent? k.decl ≠ some k'.decl

namespace Blueprint

variable {b : Blueprint} {q : Phase} {rule : PhaseRule} {c : Context}

/-- What a piece of work makes of slots. -/
def work (b : Blueprint) (x : Declaration) (type : Option ResolvedType)
    (q : Phase) : Work → Slots → Slots
  | .header _, s => b.pass x q s
  | .member _, s => b.step x type q s

/-- Work on a declaration cannot fail: a contract stands on a callable, and a
class in executable code does not have to catch up. -/
structure Smooth (b : Blueprint) (q : Phase) (d : DeclId) : Prop where
  there : (b.unit.decl? d).isSome = true
  contract : ∀ x, b.unit.decl? d = some x → x.kind.isCallable = false →
    x.contract = []
  plain : q = .bodies → b.unit.isLocal d = true → b.unit.isClassLike d = false

/-- What some pieces of work leave: the slots of what was worked on are what
the work makes of them, and everything else is as it was. -/
structure Done (b : Blueprint) (q : Phase) (works : List Work) (w w' : World) :
    Prop where
  rest : w' = { w with states := w'.states }
  governs : b.Governs w'
  own : ∀ d, w'.own b.unit d = w.own b.unit d
  below : ∀ d, w'.below b.unit d = w.below b.unit d
  others : ∀ d, (∀ k ∈ works, k.decl ≠ d) →
    w'.slots b.unit d = w.slots b.unit d
  worked : ∀ k ∈ works, ∀ x, b.unit.decl? k.decl = some x →
    w'.slots b.unit k.decl = b.work x (w'.typeAbove b.unit x) q k
      (w.slots b.unit k.decl)

namespace Governs

variable {w : World}

/-- A piece of work on a declaration that it cannot fail for. -/
theorem runs_perform (h : b.Governs w) (hc : b.Directs c)
    (hrule : q.rule? = some rule) (hq : .supertypes < q) {k : Work}
    {x : Declaration} (hx : b.unit.decl? k.decl = some x)
    (hk : b.Smooth q k.decl) :
    b.Runs k.decl (b.work x (w.typeAbove b.unit x) q k) w
      (k.perform rule c) := by
  have hooks : ∀ d w', b.unit.decl? d = some x →
      c.runHooks rule.phase d w' = (.ok (), w') := by
    intro d w' hd
    rw [Context.runHooks, hc.unit, hd, hc.hooks]
    rfl
  cases k with
  | header d =>
      obtain ⟨w', hrun, hw'⟩ := h.runs_onHeader hc hx hrule hq
      exact ⟨w', (bind_run_ok hrun _).trans (hooks d w' hx), hw'⟩
  | member d =>
      obtain ⟨w', hrun, hw'⟩ := h.runs_onMember hc hx hrule hq
        (hk.contract x hx) fun hbodies hl => hk.plain hbodies
          ((CompilationUnit.isLocal_of_decl? hx).trans hl)
      exact ⟨w', (bind_run_ok hrun _).trans (hooks d w' hx), hw'⟩

/-- Several pieces of work, in an orderly way. The induction is on the pieces:
the first is not undone by the others, and they leave the type of what its
declaration belongs to. -/
theorem each_perform (h : b.Governs w) (hc : b.Directs c)
    (hrule : q.rule? = some rule) (hq : .supertypes < q) {works : List Work}
    (horderly : Work.Orderly b.unit works)
    (hsmooth : ∀ k ∈ works, b.Smooth q k.decl) :
    ∃ w', Action.each (Work.perform rule c) works w = (.ok (), w') ∧
      b.Done q works w w' := by
  induction works generalizing w with
  | nil => exact ⟨w, rfl, rfl, h, fun _ => rfl, fun _ => rfl, fun _ _ => rfl, nofun⟩
  | cons k rest ih =>
      obtain ⟨hfirst, horderly⟩ := List.pairwise_cons.mp horderly
      have hk := hsmooth k (List.mem_cons_self ..)
      obtain ⟨x, hx⟩ := Option.isSome_iff_exists.mp hk.there
      obtain ⟨w₁, hrun, hw₁⟩ := h.runs_perform hc hrule hq hx hk
      have h₁ : b.Governs w₁ := h.revises hw₁ <| Slots.sameClause_only fun s => by
        cases k with
        | header d => exact b.sameClause_pass x q s
        | member d => exact b.sameClause_step x _ q s
      obtain ⟨w', hrun', hdone⟩ := ih h₁ horderly fun k' hk' =>
        hsmooth k' (List.mem_cons_of_mem _ hk')
      have hslots : ∀ d, w₁.slots b.unit d = if d = k.decl then
          b.work x (w.typeAbove b.unit x) q k (w.slots b.unit d)
          else w.slots b.unit d := hw₁.slots_eq h.registered
      refine ⟨w', (bind_run_ok hrun _).trans hrun', ?_, hdone.governs,
        fun d => ?_, fun d => ?_, fun d hd => ?_, fun k' hk' y hy => ?_⟩
      · rw [hdone.rest, hw₁.rest]
      · rw [hdone.own, hw₁.own_eq h.registered]
      · rw [hdone.below, hw₁.below_eq h.registered]
      · rw [hdone.others d fun k' hk' => hd k' (List.mem_cons_of_mem _ hk'),
          hslots, if_neg fun heq => hd k (List.mem_cons_self ..) heq.symm]
      · rcases List.mem_cons.mp hk' with rfl | hk'
        · obtain rfl : x = y := Option.some.inj (hx.symm.trans hy)
          have htype : w'.typeAbove b.unit x = w.typeAbove b.unit x := by
            rw [← h.typeAbove_eq hx hw₁]
            refine World.typeAbove_congr hx fun m hm => ?_
            exact hdone.others m fun k' hk' heq =>
              (hfirst k' hk').2 (heq.symm ▸ hm)
          rw [hdone.others _ fun k hk heq => (hfirst k hk).1 heq.symm, hslots,
            if_pos rfl, htype]
        · rw [hdone.worked k' hk' y hy, hslots,
            if_neg fun heq => (hfirst k' hk').1 heq.symm]

end Governs

end Blueprint

-- ============================================================ orderly plans

namespace CompilationUnit.WellFormed

variable {u : CompilationUnit} {a d : DeclId}

/-- A type parameter belongs to what has it, and comes after that. -/
theorem parent_of_parameter (hu : u.WellFormed) (hd : d ∈ u.parameters a) :
    u.parent? d = some a ∧ a.index < d.index := by
  have hchild := (CompilationUnit.mem_parameters_iff.mp hd).1
  exact ⟨(hu.child_iff a d).mp hchild, (hu.index_of_child hchild).1⟩

/-- Nothing that is passed with a declaration comes before it. -/
theorem index_le_of_passed (hu : u.WellFormed) (hd : d ∈ a :: u.parameters a) :
    a.index ≤ d.index := by
  rcases List.mem_cons.mp hd with rfl | hd
  · exact Nat.le_refl _
  · exact Nat.le_of_lt (hu.parent_of_parameter hd).2

/-- Going down from a declaration comes by everything before what belongs to
it. -/
theorem preorder_orderly (hu : u.WellFormed) (hlist : ∀ p, (u.children p).Nodup)
    (fuel : Nat) (a : DeclId) : (preorder u.children fuel a).Pairwise
      fun d e => u.parent? d ≠ some e := by
  have hup : ∀ {fuel : Nat} {d a : DeclId}, d ∈ preorder u.children fuel a →
      a.index ≤ d.index := by
    intro fuel d a hd
    rcases hu.mem_preorder hd with rfl | hup
    · exact Nat.le_refl _
    · exact Nat.le_of_lt (hu.index_lt_of_mem_ancestors hup)
  induction fuel generalizing a with
  | zero => exact List.pairwise_singleton _ a
  | succ fuel ih =>
      refine List.pairwise_cons.mpr ⟨fun e he hparent => ?_,
        List.pairwise_flatMap.mpr ⟨fun b _ => ih b, ?_⟩⟩
      · obtain ⟨b, hb, he⟩ := List.mem_flatMap.mp he
        have hab := (hu.index_of_child hb).1
        have hbe := hup he
        have hea := hu.earlier a e hparent
        omega
      · refine (hlist a).imp_of_mem fun {b c} hb hc hne d hd e he hparent => ?_
        have hac := (hu.index_of_child hc).1
        have hce := hup he
        rcases hu.mem_preorder hd with rfl | hbd
        · -- what `d` belongs to is `a`, which is not below `c`
          obtain rfl : a = e := Option.some.inj
            (((hu.child_iff a d).mp hb).symm.trans hparent)
          omega
        · -- then `e` is below both children
          rw [hu.ancestors_of_parent hparent] at hbd
          exact hne (hu.eq_of_parent (List.mem_cons.mp hbd)
            ((hu.mem_preorder he).imp_left Eq.symm)
            ((hu.child_iff a b).mp hb) ((hu.child_iff a c).mp hc))

end CompilationUnit.WellFormed

namespace Designation.Matches

variable {goal : Designation} {u : CompilationUnit} {a d e : DeclId}

/-- What comes after a declaration of the path and its type parameters and is
none of them may be worked on after them. -/
theorem apart (h : goal.Matches u) (hd : d ∈ a :: u.parameters a)
    (hae : a.index < e.index) (hne : d ≠ e) :
    d ≠ e ∧ u.parent? d ≠ some e := by
  refine ⟨hne, fun hparent => ?_⟩
  rcases List.mem_cons.mp hd with rfl | hd
  · exact Nat.lt_asymm hae (h.wellFormed.earlier d e hparent)
  · obtain rfl : a = e := Option.some.inj
      ((h.wellFormed.parent_of_parameter hd).1.symm.trans hparent)
    exact Nat.lt_irrefl _ hae

/-- What is passed with a declaration of the path is in order. -/
theorem passed_orderly (h : goal.Matches u) (a : DeclId) :
    (a :: u.parameters a).Pairwise fun d e => d ≠ e ∧ u.parent? d ≠ some e := by
  have hu := h.wellFormed
  refine List.pairwise_cons.mpr ⟨fun e he => ?_, ?_⟩
  · have hlt := (hu.parent_of_parameter he).2
    refine h.apart (List.mem_cons_self ..) hlt ?_
    rintro rfl
    exact Nat.lt_irrefl _ hlt
  · exact ((h.listsOnce a).filter _).imp_of_mem fun hd he hne =>
      h.apart (List.mem_cons_of_mem _ hd) (hu.parent_of_parameter he).2 hne

/-- So is all that is passed. -/
theorem path_orderly (h : goal.Matches u) (hbare : u.BareParameters) :
    (goal.path.flatMap fun a => a :: u.parameters a).Pairwise fun d e =>
      d ≠ e ∧ u.parent? d ≠ some e := by
  have hu := h.wellFormed
  refine List.pairwise_flatMap.mpr ⟨fun a _ => h.passed_orderly a, ?_⟩
  -- the way goes on from a declaration, so it is no type parameter
  refine h.path_rises.imp_of_mem fun {p m} hp hm hlt d hd e he => ?_
  have hpe := Nat.lt_of_lt_of_le hlt (hu.index_le_of_passed he)
  refine h.apart hd hpe ?_
  rintro rfl
  rcases List.mem_cons.mp hd with rfl | hd
  · exact Nat.lt_irrefl _ hpe
  · rcases List.mem_cons.mp he with rfl | he
    · obtain ⟨n, hn, -⟩ := hu.exists_child_of_mem_ancestors (h.path d hm)
      rw [← hu.child_iff, hbare d
        (CompilationUnit.mem_parameters_iff.mp hd).2] at hn
      cases hn
    · obtain rfl : p = m := Option.some.inj
        ((hu.parent_of_parameter hd).1.symm.trans (hu.parent_of_parameter he).1)
      exact Nat.lt_irrefl _ hlt

/-- The plan of a walk is orderly. -/
theorem plan_orderly (h : goal.Matches u) (hbare : u.BareParameters) :
    Work.Orderly u (goal.plan u) := by
  have hu := h.wellFormed
  have hdecls : (goal.plan u).map Work.decl =
      goal.path.flatMap (fun a => a :: u.parameters a) ++
        u.subtree goal.target := by
    simp [Designation.plan, Walk.headerWork, List.map_flatMap,
      Function.comp_def, Work.decl]
  have hbelow : (u.subtree goal.target).Pairwise fun d e =>
      d ≠ e ∧ u.parent? d ≠ some e :=
    (hu.preorder_nodup h.listsOnce _ _).and (hu.preorder_orderly h.listsOnce _ _)
  have hpairs : ((goal.plan u).map Work.decl).Pairwise fun d e =>
      d ≠ e ∧ u.parent? d ≠ some e := by
    rw [hdecls]
    refine List.pairwise_append.mpr ⟨h.path_orderly hbare, hbelow, fun d hd e he => ?_⟩
    obtain ⟨a, ha, hd⟩ := List.mem_flatMap.mp hd
    have hae : a.index < e.index := by
      have hlt := hu.index_lt_of_mem_ancestors (h.path a ha)
      rcases hu.mem_subtree he with rfl | hup
      · exact hlt
      · exact Nat.lt_trans hlt (hu.index_lt_of_mem_ancestors hup)
    refine h.apart hd hae ?_
    rintro rfl
    rcases List.mem_cons.mp hd with rfl | hd
    · exact Nat.lt_irrefl _ hae
    · exact h.not_mem_subtree ha hd he
  exact List.pairwise_map.mp hpairs

end Designation.Matches

-- ============================================================ what walks do

/-- What was worked on is what was visited and not marked yet. -/
def Visits.Fresh (u : CompilationUnit) (phase : Phase) (start : World)
    (v : Visits) : Prop :=
  ∀ k, k ∈ v.work ↔ ∃ d ∈ v.members, start.own u d < phase ∧ k = .member d

namespace Visits.Fresh

variable {u : CompilationUnit} {phase : Phase} {start : World} {v v' : Visits}

/-- One walk after another. -/
theorem append (h : v.Fresh u phase start) (h' : v'.Fresh u phase start) :
    (v ++ v').Fresh u phase start := by
  intro k
  show k ∈ v.work ++ v'.work ↔ ∃ d ∈ v.members ++ v'.members, _
  rw [List.mem_append, h k, h' k]
  simp only [List.mem_append, or_and_right, exists_or]

/-- Several of them. -/
theorem concat {α : Type} {as : List α} {vs : List Visits}
    (h : List.Forall₂ (fun _ v => v.Fresh u phase start) as vs) :
    (Visits.concat vs).Fresh u phase start := by
  induction h with
  | nil => exact fun k => by simp [Visits.concat, Visits.none]
  | cons hv _ ih => exact hv.append ih

end Visits.Fresh

namespace Walk

variable {rule : PhaseRule} {c : Context} {I : World → Prop} {start : World}

/-- As long as own markers are what they were at the start, as far as the
phase goes, a visit works on what was not marked then. -/
theorem visitMember_fresh (hkeeps : Keeps (.solo I I) rule c fun _ => True)
    (hmarkers : ∀ w, I w → ∀ d, rule.phase ≤ w.own c.unit d ↔
      rule.phase ≤ start.own c.unit d) (fuel : Nat) (d : DeclId) :
    Triple I (visitMember rule c fuel d)
      (fun v w => I w ∧ v.Fresh c.unit rule.phase start) I := by
  induction fuel generalizing d with
  | zero => exact .stop fun _ hw => hw
  | succ fuel ih =>
      by_cases hfile : c.unit.kind? d = some .file
      · unfold visitMember
        simp only [hfile, if_true]
        exact .bind (Q := fun _ _ => False) (.stop fun _ hw => hw)
          fun _ _ hw => hw.elim
      have hself : Triple I (visitSelf rule c d)
          (fun v w => I w ∧ v.Fresh c.unit rule.phase start) I := by
        refine .bind (Q := fun fresh w => I w ∧
          (fresh = true ↔ start.own c.unit d < rule.phase))
          (.read fun w hw => ⟨hw, ?_⟩) fun fresh => .assume fun hfresh => ?_
        · rw [decide_eq_true_iff]
          have hiff := not_congr (hmarkers w hw d)
          exact ⟨fun h => Phase.lt_of_not_le (hiff.mp (Phase.not_le_of_lt h)),
            fun h => Phase.lt_of_not_le (hiff.mpr (Phase.not_le_of_lt h))⟩
        · refine .bind (Q := fun _ => I) (.each fun k _ =>
            (hkeeps.perform k).triple) fun _ => .pure fun _ hw => ⟨hw, fun k => ?_⟩
          cases fresh with
          | true => simp [hfresh.mp rfl]
          | false => simp [mt hfresh.mpr Bool.false_ne_true]
      have hmember : ∀ m ∈ c.unit.children d, Triple I
          (visitUnskipped rule c fuel m) (fun v w => I w ∧
            v.Fresh c.unit rule.phase start) I := by
        intro m _
        refine .read_then fun left => ?_
        cases left with
        | true =>
            exact .pure fun w hw => ⟨hw, fun k => by simp [Visits.none]⟩
        | false => exact ih m
      rw [visitMember_succ hfile]
      refine .bind hself fun here => .assume fun hhere => ?_
      refine .bind (Q := fun v w => I w ∧ v.Fresh c.unit rule.phase start) ?_
        fun rest => .pure fun w hw => ⟨hw.1, hhere.append hw.2⟩
      exact .bind (.collect hmember) fun vs => .pure fun w hw =>
        ⟨hw.1, .concat hw.2⟩

/-- So does a walk along a path, apart from what it passes. -/
theorem along_fresh (hkeeps : Keeps (.solo I I) rule c fun _ => True)
    (hmarkers : ∀ w, I w → ∀ d, rule.phase ≤ w.own c.unit d ↔
      rule.phase ≤ start.own c.unit d) (target : DeclId)
    (path : List DeclId) :
    Triple I (along rule c target path) (fun v _ => ∃ below : Visits,
      v.members = path.flatMap c.unit.parameters ++ below.members ∧
      v.work = path.flatMap (headerWork c.unit) ++ below.work ∧
      below.Fresh c.unit rule.phase start) I := by
  induction path with
  | nil =>
      refine .bind (visitMember_fresh hkeeps hmarkers _ target) fun v => ?_
      exact .pure fun w hw => ⟨v, rfl, rfl, hw.2⟩
  | cons p rest ih =>
      rw [along, visitHeader_eq]
      refine .bind (Q := fun v w => I w ∧ v = ⟨[p], c.unit.parameters p, 0,
        headerWork c.unit p⟩) ?_ fun header => .assume fun hheader => ?_
      · refine .bind (Q := fun _ => I) (.each fun k _ =>
          (hkeeps.perform k).triple) fun _ => .pure fun _ hw => ⟨hw, rfl⟩
      · refine .bind ih fun v => .pure fun w hw => ?_
        obtain ⟨below, hmembers, hwork, hfresh⟩ := hw
        refine ⟨below, ?_, ?_, hfresh⟩
        · show header.members ++ v.members = _
          rw [hheader, hmembers, List.flatMap_cons, List.append_assoc]
        · show header.work ++ v.work = _
          rw [hheader, hwork, List.flatMap_cons, List.append_assoc]

end Walk

namespace Blueprint

/-- What a walk for a designation has visited, what it has worked on, and what
that work leaves. -/
structure Walked (b : Blueprint) (q : Phase) (goal : Designation) (v : Visits)
    (w w' : World) : Prop where
  done : b.Done q v.work w w'
  headers : v.headers = goal.path
  members : ∀ d, d ∈ v.members ↔ (∃ a ∈ goal.path, d ∈ b.unit.parameters a) ∨
    Walk.Reached b.unit q w goal.target d
  works : ∀ k, k ∈ v.work ↔ (∃ a ∈ goal.path, k ∈ Walk.headerWork b.unit a) ∨
    ∃ d, Walk.Reached b.unit q w goal.target d ∧ w.own b.unit d < q ∧
      k = .member d

variable {b : Blueprint} {q : Phase} {goal : Designation} {w : World}

/-- In a governed world a walk comes to its end. It passes the path and takes
what it goes on to from the target, and leaves what the work on all of that
leaves. -/
theorem Governs.run_walk (h : b.Governs w) (hgoal : goal.Matches b.unit)
    (hbare : b.unit.BareParameters)
    (hsmooth : ∀ k ∈ goal.plan b.unit, b.Smooth q k.decl) {c : Context}
    (hc : b.Directs c) {rule : PhaseRule} (hrule : q.rule? = some rule)
    (hq : .supertypes < q) :
    ∃ v w', Walk.run rule c goal w = (.ok v, w') ∧
      b.Walked q goal v w w' := by
  have hworks : ∀ works : List Work, works.Sublist (goal.plan b.unit) →
      ∃ w', Action.each (Work.perform rule c) works w = (.ok (), w') ∧
        b.Done q works w w' := fun works hsub =>
    h.each_perform hc hrule hq ((hgoal.plan_orderly hbare).sublist hsub)
      fun k hk => hsmooth k (hsub.subset hk)
  have hunit : goal.Matches c.unit := hc.unit.symm ▸ hgoal
  have hphase : rule.phase = q := Phase.phase_of_rule? hrule
  have hquiet : c.setup.Quiet := Setup.quiet_of_hooks hc.hooks
  have hreg : w.Registered c.unit := hc.unit.symm ▸ h.registered
  rw [hunit.run_eq]
  rcases hrun : Walk.along rule c goal.target goal.path w with ⟨e | v, w'⟩
  · -- it could only have been stopped by its work
    obtain ⟨works, hsub, hfails⟩ := hunit.along_performs.error hrun
    rw [hc.unit] at hsub
    obtain ⟨w'', hends, -⟩ := hworks works hsub
    cases hfails.symm.trans hends
  · obtain ⟨halong, hsub, hruns⟩ := hunit.along_performs.ok hrun
    rw [hc.unit] at hsub halong
    obtain ⟨w'', hends, hdone⟩ := hworks v.work hsub
    obtain rfl : w' = w'' := (Prod.mk.inj (hruns.symm.trans hends)).2
    have hI := (h.coherent.steady_within .supertypes).and_registered c.unit
    have hkeeps := hI.walk (c := c) (fun _ => Phase.le_refl _)
      (fun _ hw => hw.2) hquiet (hphase.symm ▸ hrule)
    have hmarkers : ∀ v, ((v.Coherent ∧ w.Within .supertypes v) ∧
        v.Registered c.unit) → ∀ d, rule.phase ≤ v.own c.unit d ↔
        rule.phase ≤ w.own c.unit d := fun v hv d =>
      hv.1.2.own c.unit d rule.phase hv.2 (hphase.symm ▸ hq)
    obtain ⟨below, hmembers, hwork, hfresh⟩ := (Walk.along_fresh hkeeps
      hmarkers goal.target goal.path).ok
      ⟨⟨h.coherent, .refl _ _⟩, hreg⟩ hrun
    obtain ⟨ms, hmembers', hreached⟩ := Walk.along_reaches_start
      (hphase.symm ▸ hrule) (fun heq => by
        rw [hphase.symm.trans heq] at hq
        exact Nat.lt_irrefl _ hq) hquiet h.coherent hreg goal.target goal.path
      hrun
    obtain rfl : below.members = ms :=
      List.append_cancel_left (hmembers.symm.trans hmembers')
    rw [hphase, hc.unit] at hfresh hreached
    rw [hc.unit] at hmembers hwork
    refine ⟨v, w', rfl, hdone, halong.headers, fun d => ?_, fun k => ?_⟩
    · rw [hmembers, List.mem_append, List.mem_flatMap, hreached]
    · rw [hwork, List.mem_append, List.mem_flatMap, hfresh]
      simp only [hreached]

end Blueprint

end StagedResolve
