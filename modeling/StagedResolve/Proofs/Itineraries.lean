/-
Itineraries: what a walk comes by, exactly, and what it does there.

# The way to the target

A walk has to find its target: in the list of children of every
declaration it comes to, it looks for something on the path. The path was
made elsewhere, but it is what is around the target, and on the way up
from a declaration there is one child of a parent at the most. So each
list has one member to follow, and the walk goes where one goes that is
told the path (`Walk.visitBelow_eq`); it meets its target once.

# What is done on the way

A run of a walk ends as its work ends (`Walk.Performs`): when it answers,
all the work that it tells of was done, in that order, and when it fails,
so does a piece of work. All the work is part of a plan that depends on
the unit and on the designation alone, and the plan does nothing twice
(`Designation.plan_nodup`).

# Below the target

Which members a walk leaves out depends on markers, which move under its
hands when classes get their supertypes. But they move no further than to
the supertype phase, so a walk of any other phase finds the markers as
they were when it set out, as far as it looks at them
(`Walk.visitMember_reaches`).
-/
import Mathlib.Data.List.Chain
import Mathlib.Data.List.Flatten
import Mathlib.Data.List.Nodup
import Mathlib.Logic.Relation
import StagedResolve.Proofs.Failures
import StagedResolve.Proofs.Listings
import StagedResolve.Proofs.Regularity

namespace StagedResolve

open StagedResolve.Action World

-- ============================================================ the way down

namespace CompilationUnit

variable {u : CompilationUnit} {d p t : DeclId}

/-- The type parameters of a declaration. -/
def parameters (u : CompilationUnit) (d : DeclId) : List DeclId :=
  (u.children d).filter fun m => u.kind? m == some .typeParameter

/-- A type parameter of a declaration belongs to it. -/
theorem mem_parameters_iff : p ∈ u.parameters d ↔
    p ∈ u.children d ∧ u.kind? p = some .typeParameter := by
  simp [parameters]

namespace WellFormed

/-- The file, the path to a declaration and the declaration are linked, each
to the next. -/
theorem isChain_path (hu : u.WellFormed)
    (hroot : ∀ d, (u.decl? d).isSome → d ≠ .root → ∃ p, u.parent? d = some p)
    (ht : (u.decl? t).isSome) (hne : t ≠ .root) :
    (.root :: ((u.ancestors t).filter fun a => !a.isRoot).reverse ++
      [t]).IsChain fun p c => c ∈ u.children p := by
  induction t using hu.parent_induction with
  | top t hp =>
      obtain ⟨p, hp'⟩ := hroot t ht hne
      exact nomatch hp.symm.trans hp'
  | step t p hp ih =>
      have hmem := (hu.child_iff p t).mpr hp
      rw [hu.ancestors_of_parent hp]
      cases hpr : p.isRoot with
      | true =>
          obtain rfl := DeclId.eq_root hpr
          have htop : u.ancestors .root = [] :=
            List.eq_nil_iff_forall_not_mem.mpr fun a ha =>
              absurd (hu.index_lt_of_mem_ancestors ha) (Nat.not_lt_zero _)
          rw [htop]
          exact .cons_cons hmem (.singleton t)
      | false =>
          have hthere : (u.decl? p).isSome := by
            unfold children at hmem
            cases hx : u.decl? p with
            | some x => rfl
            | none =>
                rw [hx] at hmem
                cases hmem
          have hpne : p ≠ .root := by
            rintro rfl
            cases hpr
          have hup := ih hthere hpne
          rw [List.filter_cons_of_pos (by simp [hpr]), List.reverse_cons]
          refine List.IsChain.append hup (.singleton t) fun x hx y hy => ?_
          rw [← List.cons_append, List.getLast?_concat] at hx
          cases hx
          cases hy
          exact hmem

end WellFormed

end CompilationUnit

-- =================================================== runs of their work

/-- Nothing comes before a walk. -/
theorem Visits.none_append (v : Visits) : .none ++ v = v := by
  show (⟨[] ++ v.headers, [] ++ v.members, 0 + v.targets, [] ++ v.work⟩ :
    Visits) = v
  simp only [List.nil_append, Nat.zero_add]

/-- Nothing comes after a walk. -/
theorem Visits.append_none (v : Visits) : v ++ .none = v := by
  show (⟨v.headers ++ [], v.members ++ [], v.targets + 0, v.work ++ []⟩ :
    Visits) = v
  simp only [List.append_nil, Nat.add_zero]

namespace Action

variable {α : Type} {f : α → Action Visits} {a : α} {as : List α}

/-- The walks that the members of a list give, one after the other. -/
def gather (f : α → Action Visits) (as : List α) : Action Visits := do
  let vs ← collect f as
  return .concat vs

/-- They are that of the first member and those of the rest. -/
theorem gather_cons (a : α) (rest : List α) : gather f (a :: rest) = do
    let v ← f a
    let v' ← gather f rest
    return v ++ v' := by
  show ((f a >>= fun b => collect f rest >>= fun bs => pure (b :: bs)) >>=
    fun vs => pure (Visits.concat vs)) = _
  rw [bind_assoc]
  refine congrArg _ (funext fun b => ?_)
  unfold gather
  rw [bind_assoc, bind_assoc]
  rfl

/-- Members that give nothing may be left out. -/
theorem gather_cons_of_none (h : f a = pure .none) :
    gather f (a :: as) = gather f as := by
  rw [gather_cons, h]
  funext w
  show (gather f as >>= fun v => pure (.none ++ v)) w = gather f as w
  simp only [Visits.none_append]
  rcases hrun : gather f as w with ⟨e | v, w'⟩
  · rw [bind_run_error hrun]
  · rw [bind_run_ok hrun]
    rfl

/-- If no member of a list gives anything, there is nothing. -/
theorem gather_of_none (h : ∀ b ∈ as, f b = pure .none) :
    gather f as = pure .none := by
  induction as with
  | nil => rfl
  | cons b rest ih =>
      rw [gather_cons_of_none (h b (List.mem_cons_self ..))]
      exact ih fun d hd => h d (List.mem_cons_of_mem _ hd)

/-- If no member of a list but one gives anything, there is what that one
gives. -/
theorem gather_eq (ha : a ∈ as) (has : as.Nodup)
    (hothers : ∀ b ∈ as, b ≠ a → f b = pure .none) : gather f as = f a := by
  induction as with
  | nil => cases ha
  | cons b rest ih =>
      obtain ⟨hb, hrest⟩ := List.nodup_cons.mp has
      by_cases hba : b = a
      · subst hba
        have hnone : gather f rest = pure .none := by
          refine gather_of_none fun d hd => ?_
          refine hothers d (List.mem_cons_of_mem _ hd) ?_
          rintro rfl
          exact hb hd
        rw [gather_cons, hnone]
        funext w
        rcases hrun : f b w with ⟨e | v, w'⟩
        · rw [bind_run_error hrun]
        · rw [bind_run_ok hrun]
          exact congrArg (fun v => (Except.ok v, w')) v.append_none
      · rw [gather_cons_of_none (hothers b (List.mem_cons_self ..) hba)]
        exact ih ((List.mem_cons.mp ha).resolve_left (Ne.symm hba)) hrest
          fun d hd => hothers d (List.mem_cons_of_mem _ hd)

end Action

/-- Doing a piece of work, and letting the hooks see it. -/
def Work.perform (rule : PhaseRule) (c : Context) : Work → Action Unit
  | .header d => do
    rule.onHeader c d
    c.runHooks rule.phase d
  | .member d => Walk.workOn rule c d

namespace Walk

variable {rule : PhaseRule} {c : Context} {plan plan' : List Work}
  {S S' : Visits → Prop} {x y : Action Visits}

/-- The action has no failures of its own: a run ends as its work ends, which
is part of a plan. If it answers, the answer tells of that work and is one in
`S`. -/
def Performs (rule : PhaseRule) (c : Context) (plan : List Work)
    (S : Visits → Prop) (x : Action Visits) : Prop :=
  ∀ w, match x w with
    | (.ok v, w') => S v ∧ v.work.Sublist plan ∧
        Action.each (Work.perform rule c) v.work w = (.ok (), w')
    | (.error e, w') => ∃ works : List Work, works.Sublist plan ∧
        Action.each (Work.perform rule c) works w = (.error e, w')

namespace Performs

/-- What is known of a run that answers. -/
theorem ok (h : Performs rule c plan S x) {w w' : World} {v : Visits}
    (hx : x w = (.ok v, w')) : S v ∧ v.work.Sublist plan ∧
      Action.each (Work.perform rule c) v.work w = (.ok (), w') := by
  have := h w
  rwa [hx] at this

/-- What is known of a run that fails. -/
theorem error (h : Performs rule c plan S x) {w w' : World} {e : Failure}
    (hx : x w = (.error e, w')) : ∃ works : List Work, works.Sublist plan ∧
      Action.each (Work.perform rule c) works w = (.error e, w') := by
  have := h w
  rwa [hx] at this

/-- Runs decide about it. -/
theorem of_runs
    (hok : ∀ w v w', x w = (.ok v, w') → S v ∧ v.work.Sublist plan ∧
      Action.each (Work.perform rule c) v.work w = (.ok (), w'))
    (herr : ∀ w e w', x w = (.error e, w') → ∃ works : List Work,
      works.Sublist plan ∧
      Action.each (Work.perform rule c) works w = (.error e, w')) :
    Performs rule c plan S x := by
  intro w
  rcases hx : x w with ⟨e | v, w'⟩
  · exact herr w e w' hx
  · exact hok w v w' hx

/-- Less may be said. -/
theorem post (h : Performs rule c plan S x) (hS : ∀ v, S v → S' v) :
    Performs rule c plan S' x :=
  of_runs (fun _ _ _ hx => (h.ok hx).imp_left (hS _)) fun _ _ _ hx => h.error hx

/-- Answering without any work. -/
theorem pure {v : Visits} (hv : S v) (hwork : v.work = []) :
    Performs rule c plan S (Pure.pure v) := by
  intro w
  show S v ∧ v.work.Sublist plan ∧ _ = _
  rw [hwork]
  exact ⟨hv, List.nil_sublist _, rfl⟩

/-- Answering after some work. -/
theorem work {v : Visits} (hv : S v) : Performs rule c v.work S (do
    Action.each (Work.perform rule c) v.work
    return v) := by
  refine of_runs (fun w v' w' hx => ?_) fun w e w' hx => ?_
  · obtain ⟨_, _, hrun, hpure⟩ := bind_run_eq_ok_iff.mp hx
    cases hpure
    exact ⟨hv, List.Sublist.refl _, hrun⟩
  · refine ⟨v.work, List.Sublist.refl _, ?_⟩
    rcases hrun : Action.each (Work.perform rule c) v.work w with ⟨e' | _, w''⟩
    · rw [bind_run_error hrun] at hx
      cases hx
      rfl
    · rw [bind_run_ok hrun] at hx
      cases hx

/-- Reading first. -/
theorem read {α : Type} {g : World → α} {f : α → Action Visits}
    (h : ∀ a, Performs rule c plan S (f a)) :
    Performs rule c plan S (Action.read g >>= f) :=
  fun w => h (g w) w

/-- One walk after another. -/
theorem append (hx : Performs rule c plan S x)
    (hy : Performs rule c plan' S' y) : Performs rule c (plan ++ plan')
      (fun v => ∃ a b, S a ∧ S' b ∧ v = a ++ b) (do
        let a ← x
        let b ← y
        return a ++ b) := by
  refine of_runs (fun w v w' h => ?_) fun w e w' h => ?_
  · obtain ⟨a, u, ha, h⟩ := bind_run_eq_ok_iff.mp h
    obtain ⟨b, u', hb, h⟩ := bind_run_eq_ok_iff.mp h
    cases h
    obtain ⟨hSa, hsub, hrun⟩ := hx.ok ha
    obtain ⟨hSb, hsub', hrun'⟩ := hy.ok hb
    have hwork : (a ++ b).work = a.work ++ b.work := rfl
    rw [hwork]
    refine ⟨⟨a, b, hSa, hSb, rfl⟩, hsub.append hsub', ?_⟩
    rw [each_append, bind_run_ok hrun]
    exact hrun'
  · rcases ha : x w with ⟨e' | a, u⟩
    · rw [bind_run_error ha] at h
      cases h
      obtain ⟨works, hsub, hrun⟩ := hx.error ha
      exact ⟨works, hsub.trans (List.sublist_append_left _ _), hrun⟩
    · rw [bind_run_ok ha] at h
      obtain ⟨-, hsub, hrun⟩ := hx.ok ha
      rcases hb : y u with ⟨e' | b, u'⟩
      · rw [bind_run_error hb] at h
        cases h
        obtain ⟨works, hsub', hrun'⟩ := hy.error hb
        refine ⟨a.work ++ works, hsub.append hsub', ?_⟩
        rw [each_append, bind_run_ok hrun]
        exact hrun'
      · rw [bind_run_ok hb] at h
        cases h

/-- The answer may be put in another form. -/
theorem map {g : Visits → Visits} (hx : Performs rule c plan S x)
    (hS : ∀ v, S v → S' (g v)) (hwork : ∀ v, (g v).work = v.work) :
    Performs rule c plan S' (do
      let v ← x
      return g v) := by
  refine of_runs (fun w v w' h => ?_) fun w e w' h => ?_
  · obtain ⟨a, u, ha, h⟩ := bind_run_eq_ok_iff.mp h
    cases h
    rw [hwork]
    exact (hx.ok ha).imp_left (hS a)
  · rcases ha : x w with ⟨e' | a, u⟩
    · rw [bind_run_error ha] at h
      cases h
      exact hx.error ha
    · rw [bind_run_ok ha] at h
      cases h

/-- Several walks, one after the other. -/
theorem gather {α : Type} {f : α → Action Visits} {plans : α → List Work}
    {T : α → Visits → Prop} {as : List α}
    (h : ∀ a ∈ as, Performs rule c (plans a) (T a) (f a)) :
    Performs rule c (as.flatMap plans)
      (fun v => ∃ vs, List.Forall₂ T as vs ∧ v = .concat vs)
      (Action.gather f as) := by
  induction as with
  | nil => exact .pure ⟨[], .nil, rfl⟩ rfl
  | cons a rest ih =>
      have hrest := ih fun b hb => h b (List.mem_cons_of_mem _ hb)
      rw [gather_cons]
      refine ((h a (List.mem_cons_self ..)).append hrest).post ?_
      rintro v ⟨b, v', hb, ⟨vs, hvs, rfl⟩, rfl⟩
      exact ⟨b :: vs, .cons hb hvs, rfl⟩

end Performs

-- ======================================= a declaration and its members

/-- Visits below a target: they come by nothing but certain declarations, and
take each of them as a whole. -/
structure Below (ms : List DeclId) (v : Visits) : Prop where
  headers : v.headers = []
  targets : v.targets = 0
  members : v.members.Sublist ms

/-- One such visit after another. -/
theorem Below.append {ms ms' : List DeclId} {v v' : Visits} (h : Below ms v)
    (h' : Below ms' v') : Below (ms ++ ms') (v ++ v') := by
  refine ⟨?_, ?_, h.members.append h'.members⟩
  · show v.headers ++ v'.headers = []
    rw [h.headers, h'.headers]
    rfl
  · show v.targets + v'.targets = 0
    rw [h.targets, h'.targets]

/-- Several such visits. -/
theorem Below.concat {α : Type} {as : List α} {vs : List Visits}
    {ms : α → List DeclId} (h : List.Forall₂ (fun a => Below (ms a)) as vs) :
    Below (as.flatMap ms) (.concat vs) := by
  induction h with
  | nil => exact ⟨rfl, rfl, List.Sublist.refl _⟩
  | cons hv _ ih => exact hv.append ih

/-- What a declaration itself adds to a walk. -/
def visitSelf (rule : PhaseRule) (c : Context) (d : DeclId) :
    Action Visits := do
  let fresh ← Action.read fun w => decide (w.own c.unit d < rule.phase)
  let here : Visits := ⟨[], [d], 0, if fresh then [.member d] else []⟩
  Action.each (Work.perform rule c) here.work
  return here

/-- A visit to a member, unless it is left out. -/
def visitUnskipped (rule : PhaseRule) (c : Context) (fuel : Nat)
    (m : DeclId) : Action Visits := do
  if ← skips rule c m then return .none
  visitMember rule c fuel m

/-- A visit to anything but a file takes the declaration and then those of its
members that are not left out. -/
theorem visitMember_succ {d : DeclId} (hd : c.unit.kind? d ≠ some .file)
    (fuel : Nat) : visitMember rule c (fuel + 1) d = do
      let here ← visitSelf rule c d
      let rest ← Action.gather (visitUnskipped rule c fuel) (c.unit.children d)
      return here ++ rest := by
  have hrest : ∀ here : Visits, (do
      let rest ← Action.collect (visitUnskipped rule c fuel)
        (c.unit.children d)
      return here ++ .concat rest) = do
      let rest ← Action.gather (visitUnskipped rule c fuel) (c.unit.children d)
      return here ++ rest := by
    intro here
    unfold Action.gather
    rw [bind_assoc]
    rfl
  rw [visitMember, visitSelf]
  simp only [hd, if_false]
  rw [bind_assoc]
  refine congrArg _ (funext fun fresh => ?_)
  unfold visitUnskipped at hrest ⊢
  rw [hrest, bind_assoc]
  cases fresh with
  | true =>
      simp only [if_true]
      rw [each_singleton]
      rfl
  | false => rfl

/-- What a declaration itself adds is worked on once, unless it is marked. -/
theorem visitSelf_performs (d : DeclId) :
    Performs rule c [.member d] (Below [d]) (visitSelf rule c d) := by
  refine .read fun fresh => ?_
  cases fresh with
  | true => exact .work ⟨rfl, rfl, List.Sublist.refl _⟩
  | false => exact .pure ⟨rfl, rfl, List.Sublist.refl _⟩ rfl

/-- A visit to a declaration and its members has no failures of its own, and
comes by nothing but what is below the declaration, in order. -/
theorem visitMember_performs (hu : c.unit.WellFormed)
    (hfile : ∀ d, d ≠ .root → c.unit.kind? d ≠ some .file) {fuel : Nat}
    {d : DeclId} (hd : d ≠ .root) (hsize : d.index < c.unit.size)
    (hfuel : c.unit.size ≤ fuel + d.index) :
    Performs rule c ((preorder c.unit.children fuel d).map .member)
      (Below (preorder c.unit.children fuel d)) (visitMember rule c fuel d) := by
  induction fuel generalizing d with
  | zero => omega
  | succ fuel ih =>
      have hmember : ∀ m ∈ c.unit.children d, Performs rule c
          ((preorder c.unit.children fuel m).map .member)
          (Below (preorder c.unit.children fuel m))
          (visitUnskipped rule c fuel m) := by
        intro m hm
        obtain ⟨hlt, hthere⟩ := hu.index_of_child hm
        have hne : m ≠ .root := by
          rintro rfl
          exact Nat.not_lt_zero _ hlt
        refine .read fun left => ?_
        split
        · exact .pure ⟨rfl, rfl, List.nil_sublist _⟩ rfl
        · exact ih hne hthere (by omega)
      have hplan : (preorder c.unit.children (fuel + 1) d).map Work.member =
          [.member d] ++ (c.unit.children d).flatMap fun m =>
            (preorder c.unit.children fuel m).map .member := by
        rw [preorder, List.map_cons, List.map_flatMap]
        rfl
      rw [visitMember_succ (hfile d hd), hplan]
      refine ((visitSelf_performs d).append (.gather hmember)).post ?_
      rintro v ⟨a, b, ha, ⟨vs, hvs, rfl⟩, rfl⟩
      exact ha.append (.concat hvs)

-- ====================================================== the way to the target

/-- The work on the header of a declaration. -/
def headerWork (u : CompilationUnit) (d : DeclId) : List Work :=
  .header d :: (u.parameters d).map .member

/-- A visit to the header of a declaration does that work. -/
theorem visitHeader_eq (d : DeclId) : visitHeader rule c d = do
    Action.each (Work.perform rule c) (headerWork c.unit d)
    return ⟨[d], c.unit.parameters d, 0, headerWork c.unit d⟩ := by
  have hwork : Action.each (Work.perform rule c) (headerWork c.unit d) =
      (do rule.onHeader c d; c.runHooks rule.phase d) >>= fun _ =>
        Action.each (workOn rule c) (c.unit.parameters d) := by
    show (Work.perform rule c (.header d) >>= fun _ => Action.each
      (Work.perform rule c) ((c.unit.parameters d).map .member)) = _
    rw [each_map]
    rfl
  rw [hwork, bind_assoc, bind_assoc]
  rfl

/-- And nothing else. -/
theorem visitHeader_performs (d : DeclId) :
    Performs rule c (headerWork c.unit d) (fun v => v =
      ⟨[d], c.unit.parameters d, 0, headerWork c.unit d⟩)
      (visitHeader rule c d) := by
  rw [visitHeader_eq]
  exact .work (v := ⟨[d], c.unit.parameters d, 0, headerWork c.unit d⟩) rfl

/-- A walk that is told the path. -/
def along (rule : PhaseRule) (c : Context) (target : DeclId) :
    List DeclId → Action Visits
  | [] => do
    let visits ← visitMember rule c c.unit.size target
    return { visits with targets := visits.targets + 1 }
  | p :: rest => do
    let header ← visitHeader rule c p
    return header ++ (← along rule c target rest)

/-- What a walk leaves of a path and a target. -/
structure Along (u : CompilationUnit) (path : List DeclId) (target : DeclId)
    (v : Visits) : Prop where
  headers : v.headers = path
  targets : v.targets = 1
  members : ∃ ms : List DeclId, ms.Sublist (u.subtree target) ∧
    v.members = path.flatMap u.parameters ++ ms

/-- Such a walk has no failures of its own. -/
theorem along_performs (hu : c.unit.WellFormed)
    (hfile : ∀ d, d ≠ .root → c.unit.kind? d ≠ some .file) {target : DeclId}
    (htarget : target ≠ .root) (hsize : target.index < c.unit.size)
    (path : List DeclId) :
    Performs rule c (path.flatMap (headerWork c.unit) ++
      (c.unit.subtree target).map .member) (Along c.unit path target)
      (along rule c target path) := by
  induction path with
  | nil =>
      have hmember : Performs rule c ((c.unit.subtree target).map .member)
          (Below (c.unit.subtree target)) (visitMember rule c c.unit.size target) :=
        visitMember_performs hu hfile htarget hsize
          (Nat.le_add_right c.unit.size _)
      refine hmember.map (fun v hv => ?_) fun _ => rfl
      exact ⟨hv.headers, congrArg (· + 1) hv.targets, v.members, hv.members, rfl⟩
  | cons p rest ih =>
      rw [along, List.flatMap_cons, List.append_assoc]
      refine ((visitHeader_performs p).append ih).post ?_
      rintro v ⟨a, b, rfl, hb, rfl⟩
      obtain ⟨ms, hms, hmembers⟩ := hb.members
      refine ⟨congrArg (p :: ·) hb.headers, ?_, ms, hms, ?_⟩
      · show 0 + b.targets = 1
        rw [hb.targets]
      · show c.unit.parameters p ++ b.members = _
        rw [hmembers, List.flatMap_cons, List.append_assoc]

/-- What a walk does where it comes by. -/
def enter (rule : PhaseRule) (c : Context) (goal : Designation) (fuel : Nat)
    (d : DeclId) : Action Visits :=
  if d = goal.target then do
    let visits ← visitMember rule c c.unit.size d
    return { visits with targets := visits.targets + 1 }
  else if goal.onPath d then do
    let header ← visitHeader rule c d
    return header ++ (← visitBelow rule c goal fuel d)
  else return .none

/-- Below a declaration a walk follows the one member that leads to the
target. -/
theorem visitBelow_follow (hu : c.unit.WellFormed)
    (hlist : ∀ p, (c.unit.children p).Nodup) {goal : Designation}
    (hpath : ∀ p ∈ goal.path, p ∈ c.unit.ancestors goal.target) (fuel : Nat)
    {parent next : DeclId} (hnext : next ∈ c.unit.children parent)
    (hway : next = goal.target ∨ next ∈ c.unit.ancestors goal.target) :
    visitBelow rule c goal (fuel + 1) parent = enter rule c goal fuel next := by
  refine gather_eq (f := enter rule c goal fuel) hnext (hlist parent)
    fun d hd hne => ?_
  have hoff : ¬ (d = goal.target ∨ d ∈ c.unit.ancestors goal.target) :=
    fun hon => hne (hu.eq_of_parent hon hway ((hu.child_iff parent d).mp hd)
      ((hu.child_iff parent next).mp hnext))
  rw [not_or] at hoff
  have honPath : goal.onPath d = false := by
    simpa [Designation.onPath] using fun hd => hoff.2 (hpath d hd)
  rw [enter, if_neg hoff.1, honPath]
  rfl

/-- So it goes along the path. -/
theorem visitBelow_eq (hu : c.unit.WellFormed)
    (hlist : ∀ p, (c.unit.children p).Nodup) {goal : Designation}
    (hpath : ∀ p ∈ goal.path, p ∈ c.unit.ancestors goal.target)
    {rest : List DeclId} (hrest : ∀ p ∈ rest, p ∈ goal.path) {fuel : Nat}
    {parent : DeclId} (hchain : (parent :: rest ++ [goal.target]).IsChain
      fun p m => m ∈ c.unit.children p)
    (hfuel : c.unit.size ≤ fuel + parent.index) :
    visitBelow rule c goal fuel parent = along rule c goal.target rest := by
  -- numbers rise on the way down, so the fuel lasts
  have hmore : ∀ {fuel : Nat} {p m : DeclId}, c.unit.size ≤ fuel + p.index →
      m ∈ c.unit.children p →
      ∃ n, fuel = n + 1 ∧ c.unit.size ≤ n + m.index := by
    intro fuel p m hfuel hm
    obtain ⟨hlt, hsize⟩ := hu.index_of_child hm
    exact ⟨fuel - 1, by omega, by omega⟩
  induction rest generalizing fuel parent with
  | nil =>
      obtain ⟨hnext, -⟩ := List.isChain_cons_cons.mp hchain
      obtain ⟨n, rfl, -⟩ := hmore hfuel hnext
      rw [visitBelow_follow hu hlist hpath n hnext (Or.inl rfl), enter,
        if_pos rfl]
      rfl
  | cons p rest ih =>
      obtain ⟨hnext, hchain⟩ := List.isChain_cons_cons.mp hchain
      obtain ⟨n, rfl, hless⟩ := hmore hfuel hnext
      have hon := hrest p (List.mem_cons_self ..)
      have hup := hpath p hon
      have hne : p ≠ goal.target := by
        rintro rfl
        exact Nat.lt_irrefl _ (hu.index_lt_of_mem_ancestors hup)
      have hon : goal.onPath p = true := by
        simpa [Designation.onPath] using hon
      rw [visitBelow_follow hu hlist hpath n hnext (Or.inr hup), enter,
        if_neg hne, if_pos hon, ih (fun q hq => hrest q
          (List.mem_cons_of_mem _ hq)) hchain hless]
      rfl

-- ========================================================= below the target

/-- A member that a walk of a phase goes on to from a declaration, in a world
with certain markers. -/
structure GoesOn (u : CompilationUnit) (phase : Phase) (w : World)
    (d m : DeclId) : Prop where
  child : m ∈ u.children d
  eligible : u.isEligible m = true
  nonlocal : u.isLocal m = true → phase = .bodies
  marker : w.below u m < phase

/-- The declarations that a walk goes on to from a declaration, one after the
other. -/
abbrev Reached (u : CompilationUnit) (phase : Phase) (w : World) :
    DeclId → DeclId → Prop :=
  Relation.ReflTransGen (GoesOn u phase w)

/-- It goes on to the declaration itself, and from its members. -/
theorem reached_iff {u : CompilationUnit} {phase : Phase} {w : World}
    {d x : DeclId} : Reached u phase w d x ↔
      d = x ∨ ∃ m, GoesOn u phase w d m ∧ Reached u phase w m x :=
  Relation.ReflTransGen.cases_head_iff

/-- What the members of a list have each given, all of them have given. -/
theorem mem_concat_iff {as : List DeclId} {vs : List Visits}
    {P : DeclId → DeclId → Prop}
    (h : List.Forall₂ (fun m v => ∀ x, x ∈ v.members ↔ P m x) as vs)
    (x : DeclId) : x ∈ (Visits.concat vs).members ↔ ∃ m ∈ as, P m x := by
  induction h with
  | nil => simp [Visits.concat, Visits.none]
  | cons hv _ ih =>
      show x ∈ _ ++ (Visits.concat _).members ↔ _
      rw [List.mem_append, hv, ih, List.exists_mem_cons_iff]

section markers

variable {I : World → Prop} {start : World}

/-- Whatever the work of a walk keeps, any piece of work keeps. -/
theorem Keeps.perform {p : SideBySide}
    (hp : Keeps p rule c fun _ => True) (k : Work) :
    Action.Keeps p (k.perform rule c) := by
  cases k with
  | header d =>
      exact .bind (hp.header d trivial) fun _ => hp.hooks d trivial
  | member d => exact hp.workOn trivial

/-- As long as the markers of the whole are what they were at the start, as
far as the phase goes, a member is left out if it would have been then. -/
theorem skips_triple (hbodies : rule.inBodies = true ↔ rule.phase = .bodies)
    (hmarkers : ∀ w, I w → ∀ d, rule.phase ≤ w.below c.unit d ↔
      rule.phase ≤ start.below c.unit d) {d m : DeclId}
    (hm : m ∈ c.unit.children d) : Triple I (skips rule c m)
      (fun left w => I w ∧
        (left = false ↔ GoesOn c.unit rule.phase start d m)) I := by
  refine .read fun w hw => ⟨hw, ?_⟩
  rw [Bool.or_eq_false_iff, Bool.or_eq_false_iff, decide_eq_false_iff_not,
    hmarkers w hw, Bool.not_eq_false', Bool.and_eq_false_iff,
    Bool.not_eq_false', hbodies]
  constructor
  · rintro ⟨⟨helig, hlocal⟩, hmark⟩
    refine ⟨hm, helig, fun h => ?_, Phase.lt_of_not_le hmark⟩
    rw [h] at hlocal
    exact hlocal.resolve_left nofun
  · intro h
    refine ⟨⟨h.eligible, ?_⟩, Phase.not_le_of_lt h.marker⟩
    cases hlocal : c.unit.isLocal m with
    | true => exact Or.inr (h.nonlocal hlocal)
    | false => exact Or.inl rfl

/-- So a visit comes by what it would have come by at the start. -/
theorem visitMember_reaches (hkeeps : Keeps (.solo I I) rule c fun _ => True)
    (hbodies : rule.inBodies = true ↔ rule.phase = .bodies)
    (hmarkers : ∀ w, I w → ∀ d, rule.phase ≤ w.below c.unit d ↔
      rule.phase ≤ start.below c.unit d) (fuel : Nat) (d : DeclId) :
    Triple I (visitMember rule c fuel d) (fun v w => I w ∧
      ∀ x, x ∈ v.members ↔ Reached c.unit rule.phase start d x) I := by
  induction fuel generalizing d with
  | zero => exact .stop fun _ hw => hw
  | succ fuel ih =>
      by_cases hfile : c.unit.kind? d = some .file
      · unfold visitMember
        simp only [hfile, if_true]
        exact .bind (Q := fun _ _ => False) (.stop fun _ hw => hw)
          fun _ _ hw => hw.elim
      have hself : Triple I (visitSelf rule c d)
          (fun v w => I w ∧ v.members = [d]) I := by
        refine .read_then fun fresh => .bind (Q := fun _ => I) ?_
          fun _ => .pure fun _ hw => ⟨hw, rfl⟩
        exact .each fun k _ => (hkeeps.perform k).triple
      have hmember : ∀ m ∈ c.unit.children d, Triple I
          (visitUnskipped rule c fuel m) (fun v w => I w ∧ ∀ x, x ∈ v.members ↔
            GoesOn c.unit rule.phase start d m ∧
              Reached c.unit rule.phase start m x) I := by
        intro m hm
        refine .bind (skips_triple hbodies hmarkers hm) fun left =>
          .assume fun hleft => ?_
        cases left with
        | true =>
            refine .pure fun w hw => ⟨hw, fun x => ?_⟩
            apply iff_of_false
            · apply List.not_mem_nil
            · intro h
              cases hleft.mpr h.1
        | false =>
            have hgoes := hleft.mp rfl
            refine (ih m).post fun v w hv => ⟨hv.1, fun x => ?_⟩
            rw [hv.2 x]
            exact (and_iff_right hgoes).symm
      rw [visitMember_succ hfile]
      refine .bind hself fun here => .assume fun hhere => ?_
      refine .bind (Q := fun v w => I w ∧ ∀ x, x ∈ v.members ↔
        ∃ m ∈ c.unit.children d, GoesOn c.unit rule.phase start d m ∧
          Reached c.unit rule.phase start m x) ?_ fun rest => ?_
      · refine .bind (.collect hmember) fun vs => .pure fun w hw => ⟨hw.1, ?_⟩
        exact mem_concat_iff hw.2
      · refine .pure fun w hw => ⟨hw.1, fun x => ?_⟩
        show x ∈ here.members ++ rest.members ↔ _
        rw [List.mem_append, hhere, List.mem_singleton, hw.2 x, reached_iff]
        refine or_congr eq_comm (exists_congr fun m => ?_)
        exact and_iff_right_of_imp fun h => h.1.child

/-- So does a walk along a path. -/
theorem along_reaches (hkeeps : Keeps (.solo I I) rule c fun _ => True)
    (hbodies : rule.inBodies = true ↔ rule.phase = .bodies)
    (hmarkers : ∀ w, I w → ∀ d, rule.phase ≤ w.below c.unit d ↔
      rule.phase ≤ start.below c.unit d) (target : DeclId)
    (path : List DeclId) :
    Triple I (along rule c target path) (fun v _ => ∃ ms : List DeclId,
      v.members = path.flatMap c.unit.parameters ++ ms ∧
      ∀ x, x ∈ ms ↔ Reached c.unit rule.phase start target x) I := by
  induction path with
  | nil =>
      refine .bind (visitMember_reaches hkeeps hbodies hmarkers _ target)
        fun v => .pure fun w hw => ⟨v.members, rfl, hw.2⟩
  | cons p rest ih =>
      have hheader : Triple I (visitHeader rule c p)
          (fun v w => I w ∧ v.members = c.unit.parameters p) I := by
        rw [visitHeader_eq]
        refine .bind (.each fun k _ => (hkeeps.perform k).triple) fun _ => ?_
        exact .pure fun w hw => ⟨hw, rfl⟩
      refine .bind hheader fun header => .assume fun hheader => ?_
      refine .bind ih fun v => .pure fun w hw => ?_
      obtain ⟨ms, hmembers, hms⟩ := hw
      refine ⟨ms, ?_, hms⟩
      show header.members ++ v.members = _
      rw [hheader, hmembers, List.flatMap_cons, List.append_assoc]

end markers

end Walk

-- ============================================================ whole walks

/-- A designation matches a unit that lists nothing twice: the file, the path
and the target are linked, each to the next; the target is neither the file
nor a type parameter; and there is no other file. -/
structure Designation.Matches (goal : Designation) (u : CompilationUnit) :
    Prop where
  wellFormed : u.WellFormed
  listsOnce : ∀ p, (u.children p).Nodup
  path : ∀ p ∈ goal.path, p ∈ u.ancestors goal.target
  chain : (.root :: goal.path ++ [goal.target]).IsChain fun p m =>
    m ∈ u.children p
  file : ∀ d, d ≠ .root → u.kind? d ≠ some .file
  target : goal.target ≠ .root
  there : (u.decl? goal.target).isSome
  kind : u.kind? goal.target ≠ some .typeParameter

/-- All the work there can be on a walk. -/
def Designation.plan (goal : Designation) (u : CompilationUnit) : List Work :=
  goal.path.flatMap (Walk.headerWork u) ++
    (u.subtree goal.target).map .member

namespace Designation.Matches

open Walk

variable {goal : Designation} {u : CompilationUnit} {m p : DeclId}
  {rule : PhaseRule} {c : Context}

/-- On the way down numbers rise. -/
theorem path_rises (h : goal.Matches u) :
    goal.path.Pairwise fun p m => p.index < m.index := by
  have hrise : (.root :: goal.path ++ [goal.target]).IsChain
      fun p m : DeclId => p.index < m.index :=
    h.chain.imp fun p m hm => (h.wellFormed.index_of_child hm).1
  exact (List.isChain_iff_pairwise.mp hrise).sublist
    ((List.sublist_cons_self ..).trans (List.sublist_append_left ..))

/-- The path comes by nothing twice. -/
theorem path_nodup (h : goal.Matches u) : goal.path.Nodup := by
  refine h.path_rises.imp fun {p m} hlt => ?_
  rintro rfl
  exact Nat.lt_irrefl _ hlt

/-- A type parameter of the path is not below the target. -/
theorem not_mem_subtree (h : goal.Matches u) (hp : p ∈ goal.path)
    (hm : m ∈ u.parameters p) : m ∉ u.subtree goal.target := by
  obtain ⟨hchild, hkind⟩ := CompilationUnit.mem_parameters_iff.mp hm
  have hparent := (h.wellFormed.child_iff p m).mp hchild
  have hlt := h.wellFormed.index_lt_of_mem_ancestors (h.path p hp)
  intro hbelow
  rcases h.wellFormed.mem_subtree hbelow with rfl | hup
  · exact h.kind hkind
  · rw [h.wellFormed.ancestors_of_parent hparent] at hup
    rcases List.mem_cons.mp hup with heq | hup
    · rw [heq] at hlt
      exact Nat.lt_irrefl _ hlt
    · exact Nat.lt_asymm hlt (h.wellFormed.index_lt_of_mem_ancestors hup)

/-- Work on members is work on different ones if the members differ. -/
theorem nodup_map_member {ms : List DeclId} (hms : ms.Nodup) :
    (ms.map Work.member).Nodup :=
  hms.map fun _ _ h => Work.member.inj h

/-- The work on a header does nothing twice. -/
theorem headerWork_nodup (h : goal.Matches u) (p : DeclId) :
    (headerWork u p).Nodup := by
  refine List.nodup_cons.mpr ⟨fun hmem => ?_,
    nodup_map_member ((h.listsOnce p).filter _)⟩
  obtain ⟨m, -, hm⟩ := List.mem_map.mp hmem
  cases hm

/-- The plan does nothing twice. -/
theorem plan_nodup (h : goal.Matches u) : (goal.plan u).Nodup := by
  have hparent : ∀ {p m}, m ∈ u.parameters p → u.parent? m = some p := by
    intro p m hm
    exact (h.wellFormed.child_iff p m).mp
      (CompilationUnit.mem_parameters_iff.mp hm).1
  refine List.nodup_append.mpr ⟨List.nodup_flatMap.mpr
    ⟨fun p _ => h.headerWork_nodup p, ?_⟩,
    nodup_map_member (h.wellFormed.preorder_nodup h.listsOnce _ _), ?_⟩
  · -- the headers differ, and nothing belongs to two declarations
    refine h.path_nodup.imp fun {p q} hne k hp hq => hne ?_
    rcases List.mem_cons.mp hp with rfl | hp
    · rcases List.mem_cons.mp hq with heq | hq
      · exact Work.header.inj heq
      · obtain ⟨m, -, hm⟩ := List.mem_map.mp hq
        cases hm
    · obtain ⟨m, hm, rfl⟩ := List.mem_map.mp hp
      rcases List.mem_cons.mp hq with heq | hq
      · cases heq
      · obtain ⟨m', hm', heq⟩ := List.mem_map.mp hq
        obtain rfl := Work.member.inj heq
        exact Option.some.inj ((hparent hm).symm.trans (hparent hm'))
  · intro k hk k' hk' heq
    subst heq
    obtain ⟨m, hbelow, rfl⟩ := List.mem_map.mp hk'
    obtain ⟨p, hp, hm⟩ := List.mem_flatMap.mp hk
    rcases List.mem_cons.mp hm with heq | hm
    · cases heq
    · obtain ⟨m', hm', heq⟩ := List.mem_map.mp hm
      obtain rfl := Work.member.inj heq
      exact h.not_mem_subtree hp hm' hbelow

/-- So no walk along the path and below the target comes by a member
twice. -/
theorem members_nodup (h : goal.Matches u) {v : Visits}
    (hv : Along u goal.path goal.target v) : v.members.Nodup := by
  obtain ⟨ms, hms, hmembers⟩ := hv.members
  have hsub : (v.members.map Work.member).Sublist (goal.plan u) := by
    rw [hmembers, List.map_append, List.map_flatMap]
    exact (List.Sublist.flatMap_right _ fun p _ =>
      List.sublist_cons_self ..).append (hms.map _)
  exact (h.plan_nodup.sublist hsub).of_map _

/-- A walk along the path has no failures of its own. -/
theorem along_performs (h : goal.Matches c.unit) :
    Performs rule c (goal.plan c.unit) (Along c.unit goal.path goal.target)
      (along rule c goal.target goal.path) := by
  obtain ⟨x, hx⟩ := Option.isSome_iff_exists.mp h.there
  exact Walk.along_performs h.wellFormed h.file h.target
    (CompilationUnit.index_lt_size hx) goal.path

/-- And that is where a search for the target goes. -/
theorem visitBelow_root (h : goal.Matches c.unit) :
    visitBelow rule c goal c.unit.size .root =
      along rule c goal.target goal.path :=
  visitBelow_eq h.wellFormed h.listsOnce h.path (fun _ hp => hp) h.chain
    (Nat.le_refl _)

/-- It meets the target once, so a walk for the designation is no more. -/
theorem run_eq (h : goal.Matches c.unit) :
    run rule c goal = along rule c goal.target goal.path := by
  unfold run
  rw [h.visitBelow_root]
  funext w
  rcases hrun : along rule c goal.target goal.path w with ⟨e | v, w'⟩
  · rw [bind_run_error hrun]
  · rw [bind_run_ok hrun, if_neg]
    · rfl
    · exact not_not.mpr (h.along_performs.ok hrun).1.targets

end Designation.Matches

namespace UnitSpec.OfForms

variable {s : UnitSpec} {draft : Draft}

/-- A designation for a unit that is described by named forms matches it,
unless it is for the file. -/
theorem designation_matches (hs : s.OfForms) (h : s.draft = .ok draft)
    (id : UnitId) {allowLocal : Bool} {d : DeclId} {goal : Designation}
    (hgoal : (draft.finish id).designateWith allowLocal d = .ok goal)
    (hfile : goal.isFile = false) : goal.Matches (draft.finish id) := by
  have hwf : (draft.finish id).WellFormed := draft_wellFormed h id
  have hplanted : Planted False (draft.finish id).tree
      (draft.finish id).placement? := hs.planted False.elim h id
  have htarget : goal.target ≠ .root := by
    intro hroot
    rw [Designation.isFile, hroot] at hfile
    cases hfile
  have hd : d.isRoot = false := by
    refine Bool.eq_false_iff.mpr fun hd => ?_
    exact htarget (hwf.designate_root hd hgoal).1
  obtain ⟨x, hx, hown, halone, -⟩ :=
    CompilationUnit.standsAlone_of_designateWith hwf hd hgoal
  have hparent : ∀ d, ((draft.finish id).decl? d).isSome → d ≠ .root →
      ∃ p, (draft.finish id).parent? d = some p := by
    intro d hd hne
    obtain ⟨y, hy⟩ := Option.isSome_iff_exists.mp hd
    obtain ⟨p, -, hp, -⟩ := hplanted.placed_decl hy hne
    exact ⟨p, hp⟩
  refine {
    wellFormed := hwf
    listsOnce := draft_listsOnce h id
    path := fun p hp => ((CompilationUnit.mem_path_iff hgoal).mp hp).1
    chain := ?_
    file := fun d => hs.kind_ne_file h id
    target := htarget
    there := by rw [hx]; rfl
    kind := fun hkind => ?_ }
  · obtain ⟨target, -, -, rfl⟩ := CompilationUnit.designateWith_eq_ok hgoal
    exact hwf.isChain_path hparent (by rw [hx]; rfl) htarget
  · -- a type parameter is resolved with what it belongs to
    obtain ⟨_, _, _, _, _, hhangs⟩ := hplanted.placed_decl hx htarget
    obtain ⟨-, form, hform, hnode⟩ := hhangs hown
    rw [CompilationUnit.kind?, hx, Option.map_some, hform] at hkind
    rw [form.node_of_typeParameter (Option.some.inj hkind)] at hnode
    rw [SourceTree.standsAlone, hnode] at halone
    cases halone

end UnitSpec.OfForms

/-- The work of a phase after that of the supertypes leaves the markers what
they are, as far as the phase goes, so below its target a walk comes by what it
would have come by at the start. -/
theorem Walk.along_reaches_start {rule : PhaseRule} {c : Context}
    (hrule : rule.phase.rule? = some rule) (hphase : rule.phase ≠ .supertypes)
    (hquiet : c.setup.Quiet) {w : World} (hw : w.Coherent)
    (hu : w.Registered c.unit) (target : DeclId) (path : List DeclId)
    {v : Visits} {w' : World}
    (hrun : along rule c target path w = (.ok v, w')) :
    ∃ ms : List DeclId, v.members = path.flatMap c.unit.parameters ++ ms ∧
      ∀ x, x ∈ ms ↔ Reached c.unit rule.phase w target x := by
  have hI := (hw.steady_within .supertypes).and_registered c.unit
  have hkeeps := hI.walk (c := c) (fun _ => Phase.le_refl _)
    (fun _ hw => hw.2) hquiet hrule
  have hlt : Phase.supertypes < rule.phase :=
    Phase.lt_of_not_le fun hle => hphase
      (Phase.position_inj (Nat.le_antisymm hle
        (Phase.supertypes_le_of_rule? hrule)))
  have hstart : (w.Coherent ∧ w.Within .supertypes w) ∧ w.Registered c.unit :=
    ⟨⟨hw, .refl _ _⟩, hu⟩
  exact (Walk.along_reaches hkeeps (Phase.inBodies_iff hrule)
    (fun w' hw' d => hw'.1.2.below c.unit d rule.phase hw'.2 hlt) target
    path).ok hstart hrun

/-- In a unit that is described by named forms, a walk for any designation but
that of a file is exact, whatever the rule and the markers. It has no failures
of its own: when it has come to its end it has met its target once, so the check
that is made there never fails; and one that fails was stopped by work, of which
it does no piece twice. If it answers, its headers are the path, in order; its
members differ from each other, and each of them is a type parameter of the path
or below the target; and what it did is the work that it tells of, no piece of
it twice.

If the rule is that of a phase other than that of the supertypes, and the hooks
leave the markers alone, then its members below the target are those that one
comes to from the target through members that go through the phases, are not in
executable code unless the bodies are resolved, and were marked with less than
the phase when the walk began. -/
theorem walk_exact {s : UnitSpec} (hs : s.OfForms) {draft : Draft}
    (h : s.draft = .ok draft) {id : UnitId} {allowLocal : Bool} {e : DeclId}
    {goal : Designation}
    (hgoal : (draft.finish id).designateWith allowLocal e = .ok goal)
    (hfile : goal.isFile = false) {c : Context} (hc : c.unit = draft.finish id)
    (rule : PhaseRule) (w : World) :
    (∀ v w', Walk.visitBelow rule c goal c.unit.size .root w = (.ok v, w') →
      v.targets = 1) ∧
    (∀ f w', Walk.run rule c goal w = (.error f, w') →
      ∃ works : List Work, works.Nodup ∧
        Action.each (Work.perform rule c) works w = (.error f, w')) ∧
    ∀ v w', Walk.run rule c goal w = (.ok v, w') →
      v.targets = 1 ∧ v.headers = goal.path ∧ v.members.Nodup ∧
      (∀ m ∈ v.members, (∃ p ∈ goal.path, m ∈ c.unit.children p ∧
        c.unit.kind? m = some .typeParameter) ∨
          m ∈ c.unit.subtree goal.target) ∧
      v.work.Nodup ∧
      Action.each (Work.perform rule c) v.work w = (.ok (), w') ∧
      (rule.phase.rule? = some rule → rule.phase ≠ .supertypes →
        c.setup.Quiet → w.Coherent → w.Registered c.unit →
        ∀ m, (m ∈ v.members ∧ m ∈ c.unit.subtree goal.target) ↔
          Walk.Reached c.unit rule.phase w goal.target m) := by
  have hmatches : goal.Matches c.unit := by
    rw [hc]
    exact hs.designation_matches h id hgoal hfile
  have hperforms : Walk.Performs rule c (goal.plan c.unit)
      (Walk.Along c.unit goal.path goal.target)
      (Walk.along rule c goal.target goal.path) := hmatches.along_performs
  rw [hmatches.visitBelow_root, hmatches.run_eq]
  refine ⟨fun v w' hrun => (hperforms.ok hrun).1.targets, fun f w' hrun => ?_,
    fun v w' hrun => ?_⟩
  · obtain ⟨works, hsub, hworks⟩ := hperforms.error hrun
    exact ⟨works, hmatches.plan_nodup.sublist hsub, hworks⟩
  · obtain ⟨halong, hsub, hworks⟩ := hperforms.ok hrun
    obtain ⟨ms, hms, hmembers⟩ := halong.members
    refine ⟨halong.targets, halong.headers, hmatches.members_nodup halong,
      fun m hm => ?_, hmatches.plan_nodup.sublist hsub, hworks,
      fun hrule hphase hquiet hw hu m => ?_⟩
    · rw [hmembers, List.mem_append, List.mem_flatMap] at hm
      rcases hm with ⟨p, hp, hm⟩ | hm
      · exact Or.inl ⟨p, hp, CompilationUnit.mem_parameters_iff.mp hm⟩
      · exact Or.inr (hms.subset hm)
    · obtain ⟨ms', hmembers', hreached⟩ := Walk.along_reaches_start hrule
        hphase hquiet hw hu goal.target goal.path hrun
      obtain rfl : ms = ms' :=
        List.append_cancel_left (hmembers.symm.trans hmembers')
      rw [← hreached m, hmembers, List.mem_append, List.mem_flatMap]
      constructor
      · rintro ⟨⟨p, hp, hm⟩ | hm, hbelow⟩
        · exact absurd hbelow (hmatches.not_mem_subtree hp hm)
        · exact hm
      · exact fun hm => ⟨Or.inr hm, hms.subset hm⟩

/-- A class with a type parameter, and in it a class with two functions, the
first of which has a local variable. -/
def UnitSpec.genericClass : UnitSpec :=
  .ofEntries "a.kt" [.member 0 (.classNamed "C" []),
    .member 1 (.ofForm .typeParameter "T"), .member 1 (.classNamed "D" []),
    .member 3 (.functionNamed "f" none),
    ⟨⟨4⟩, true, .ofForm .localVariable "x"⟩,
    .member 3 (.functionNamed "g" none)]

/-- It is described by named forms. -/
theorem UnitSpec.ofForms_genericClass : UnitSpec.genericClass.OfForms := by
  intro e he
  simp only [genericClass, ofEntries, List.mem_cons, List.not_mem_nil,
    or_false] at he
  rcases he with rfl | rfl | rfl | rfl | rfl | rfl
  · exact ⟨.classDecl, rfl, rfl⟩
  · exact ⟨.typeParameter, rfl, rfl⟩
  · exact ⟨.classDecl, rfl, rfl⟩
  · exact ⟨.function, rfl, rfl⟩
  · exact ⟨.localVariable, rfl, rfl⟩
  · exact ⟨.function, rfl, rfl⟩

/-- The inner class is to get its types after its first function got them: the
walk comes by the type parameter of the outer class, the inner class and the
other function. When bodies are resolved it goes on to the local variable as
well; and a walk that a hook stops was stopped by its work. -/
theorem walk_exact_genericClass :
    let s := UnitSpec.genericClass
    let draft := s.draft.toOption.getD default
    let u := draft.finish ⟨0⟩
    let w := World.after (.plain .default)
      [.addUnit s, .resolve false ⟨⟨0⟩, ⟨4⟩⟩ .types false]
    let c : Context :=
      ⟨.plain .default, u, ⟨.ofUnit ⟨0⟩, true⟩, default, false⟩
    let stopped : Context :=
      { c with setup := ⟨.default, .fromSyntax, [.failing]⟩ }
    let goal : Designation := ⟨u, [⟨1⟩], ⟨3⟩, false⟩
    s.OfForms ∧ s.draft = .ok draft ∧
      u.designateWith false ⟨3⟩ = .ok goal ∧ goal.isFile = false ∧
      (∃ v w', Walk.run .types c goal w = (.ok v, w') ∧
        v.headers = [⟨1⟩] ∧ v.members = [⟨2⟩, ⟨3⟩, ⟨6⟩] ∧ v.work.Nodup ∧
        Action.each (Work.perform .types c) v.work w = (.ok (), w')) ∧
      Walk.Reached u .types w ⟨3⟩ ⟨6⟩ ∧ ¬ Walk.Reached u .types w ⟨3⟩ ⟨4⟩ ∧
      Walk.Reached u .bodies w ⟨3⟩ ⟨5⟩ ∧
      ∃ f w' works, Walk.run .types stopped goal w = (.error f, w') ∧
        works.Nodup ∧
        Action.each (Work.perform .types stopped) works w = (.error f, w') := by
  intro s draft u w c stopped goal
  have hforms : s.OfForms := UnitSpec.ofForms_genericClass
  have hdraft : s.draft = .ok draft := by decide +kernel
  have hgoal : u.designateWith false ⟨3⟩ = .ok goal := by decide +kernel
  have hu : w.Registered u := by
    show w.registry.unit? ⟨0⟩ = some u
    decide +kernel
  have hw : w.Coherent := (Reaches.after _ _).coherent (Setup.quiet_plain _)
  have hquiet : c.setup.Quiet := Setup.quiet_plain _
  have htypes : (Walk.run .types c goal w).1.toOption.map Visits.members =
      some [⟨2⟩, ⟨3⟩, ⟨6⟩] := by decide +kernel
  have hbodies : (Walk.run .bodies c goal w).1.toOption.map Visits.members =
      some [⟨2⟩, ⟨3⟩, ⟨4⟩, ⟨5⟩, ⟨6⟩] := by decide +kernel
  have hstopped : (Walk.run .types stopped goal w).1.toOption = none := by
    decide +kernel
  obtain ⟨v, w₁, hrun, hmembers⟩ := run_of_map htypes
  obtain ⟨v', w₂, hrun', hmembers'⟩ := run_of_map hbodies
  obtain ⟨f, w₃, hfail⟩ := run_of_none hstopped
  obtain ⟨-, hheaders, -, -, hnodup, hwork, hreached⟩ :=
    (walk_exact hforms hdraft hgoal rfl (c := c) rfl .types w).2.2 v w₁ hrun
  obtain ⟨-, -, -, -, -, -, hreached'⟩ :=
    (walk_exact hforms hdraft hgoal rfl (c := c) rfl .bodies w).2.2 v' w₂ hrun'
  obtain ⟨works, hworks, hstop⟩ :=
    (walk_exact hforms hdraft hgoal rfl (c := stopped) rfl .types w).2.1 f w₃
      hfail
  have hiff := hreached rfl (by decide) hquiet hw hu
  have hiff' := hreached' rfl (by decide) hquiet hw hu
  rw [hmembers] at hiff
  rw [hmembers'] at hiff'
  refine ⟨hforms, hdraft, hgoal, rfl, ⟨v, w₁, hrun, hheaders, hmembers, hnodup,
    hwork⟩, (hiff ⟨6⟩).mp (by decide +kernel), fun h => ?_,
    (hiff' ⟨5⟩).mp (by decide +kernel), f, w₃, works, hfail, hworks, hstop⟩
  exact absurd ((hiff ⟨4⟩).mpr h).1 (by decide)

end StagedResolve
