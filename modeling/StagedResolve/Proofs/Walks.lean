/-
Walks: what they keep, and what they come by.

# What a walk keeps

A walk is the work of one phase on some declarations of a unit, with the
hooks called in between, and it reads markers to decide where to go. A
relation between two runs that survives the work survives the walk
(`Walk.run_keeps`).

# What a walk comes by

The visits of a walk are closed in both directions (`Walk.Route`).
Upwards: whatever is visited hangs on something that is visited too, up
to the file, so the headers and members of a walk that met its target
hold the whole path. Downwards: below the target everything is visited
that is not left out, and what is left out has a reason that lasts. And
whatever the work establishes for a declaration holds of every visited
one when the walk is over, because it lasts (`Action.Advances`).
-/
import StagedResolve.Proofs.Worlds
import StagedResolve.Walk

namespace StagedResolve

open StagedResolve.Action World

-- ======================================================== two runs together

namespace Walk

variable {p : SideBySide} {rule : PhaseRule} {c : Context}

/-- The relation survives what a walk is made of that comes by declarations
in `P`. -/
structure Keeps (p : SideBySide) (rule : PhaseRule) (c : Context)
    (P : DeclId → Prop) : Prop where
  stop : ∀ v w, p.along v w → p.failed v w
  own : ∀ v w d, p.along v w → v.own c.unit d = w.own c.unit d
  below : ∀ v w d, p.along v w → v.below c.unit d = w.below c.unit d
  header : ∀ d, P d → Action.Keeps p (rule.onHeader c d)
  member : ∀ d, P d → Action.Keeps p (rule.onMember c d)
  hooks : ∀ d, P d → Action.Keeps p (c.runHooks rule.phase d)

/-- Where a walk for a designation can come by: the path, its type
parameters, and what is below the target. -/
structure Roams (u : CompilationUnit) (goal : Designation)
    (P : DeclId → Prop) : Prop where
  path : ∀ d, goal.onPath d = true → P d
  parameter : ∀ d, goal.onPath d = true → ∀ m ∈ u.children d,
    u.kind? m = some .typeParameter → P m
  target : ∃ S : DeclId → Prop, S goal.target ∧
    (∀ d, S d → ∀ m ∈ u.children d, S m) ∧ ∀ d, S d → P d

/-- A walk roams about everything. -/
theorem Roams.anywhere (u : CompilationUnit) (goal : Designation) :
    Roams u goal fun _ => True :=
  ⟨fun _ _ => trivial, fun _ _ _ _ _ => trivial,
    fun _ => True, trivial, fun _ _ _ _ => trivial, fun _ _ => trivial⟩

namespace Keeps

variable {P : DeclId → Prop} {d : DeclId}

/-- The work on one declaration. -/
theorem workOn (hp : Keeps p rule c P) (hd : P d) :
    Action.Keeps p (Walk.workOn rule c d) :=
  .bind (hp.member d hd) fun _ => hp.hooks d hd

/-- Deciding what to leave out. -/
theorem skips (hp : Keeps p rule c P) (d : DeclId) :
    Action.Keeps p (Walk.skips rule c d) :=
  .read fun v w hvw => by rw [hp.below v w d hvw]

/-- A declaration and its members. -/
theorem visitMember (hp : Keeps p rule c P) {S : DeclId → Prop}
    (hclosed : ∀ d, S d → ∀ m ∈ c.unit.children d, S m)
    (hS : ∀ d, S d → P d) (fuel : Nat) (hd : S d) :
    Action.Keeps p (Walk.visitMember rule c fuel d) := by
  induction fuel generalizing d with
  | zero => exact .stop hp.stop
  | succ fuel ih =>
      have hmain : Action.Keeps p (do
          let fresh ← Action.read fun w => decide (w.own c.unit d < rule.phase)
          if fresh then Walk.workOn rule c d
          let here : Visits := ⟨[], [d], 0, if fresh then [.member d] else []⟩
          let rest ← Action.collect (fun m => do
            if ← Walk.skips rule c m then return .none
            Walk.visitMember rule c fuel m) (c.unit.children d)
          return here ++ .concat rest) := by
        refine .bind (.read fun v w hvw => by rw [hp.own v w d hvw])
          fun fresh => ?_
        have hrest : Action.Keeps p (do
            let rest ← Action.collect (fun m => do
              if ← Walk.skips rule c m then return .none
              Walk.visitMember rule c fuel m) (c.unit.children d)
            return (⟨[], [d], 0, if fresh then [.member d] else []⟩ : Visits)
              ++ .concat rest) := by
          refine .bind (.collect fun m hm => ?_) fun _ => .pure
          refine .bind (hp.skips m) fun left => ?_
          split
          · exact .pure
          · exact ih (hclosed d hd m hm)
        cases fresh with
        | true => exact .bind (hp.workOn (hS d hd)) fun _ => hrest
        | false => exact hrest
      unfold Walk.visitMember
      by_cases hfile : c.unit.kind? d = some .file
      · simp only [hfile, if_true]
        exact .bind (.stop hp.stop) fun _ => hmain
      · simp only [hfile, if_false]
        exact hmain

/-- A declaration on the path. -/
theorem visitHeader (hp : Keeps p rule c P) {goal : Designation}
    (hroams : Roams c.unit goal P) (hd : goal.onPath d = true) :
    Action.Keeps p (Walk.visitHeader rule c d) := by
  have hP := hroams.path d hd
  refine .bind (hp.header d hP) fun _ => .bind (hp.hooks d hP) fun _ => ?_
  refine .bind (.each fun x hx => hp.workOn ?_) fun _ => .pure
  obtain ⟨hm, hk⟩ := List.mem_filter.mp hx
  exact hroams.parameter d hd x hm (eq_of_beq hk)

/-- What is below a declaration, as far as the designation goes. -/
theorem visitBelow (hp : Keeps p rule c P) {goal : Designation}
    (hroams : Roams c.unit goal P) (fuel : Nat) (parent : DeclId) :
    Action.Keeps p (Walk.visitBelow rule c goal fuel parent) := by
  obtain ⟨S, htarget, hclosed, hS⟩ := hroams.target
  induction fuel generalizing parent with
  | zero => exact .stop hp.stop
  | succ fuel ih =>
      refine .bind (.collect fun d _ => ?_) fun _ => .pure
      split
      · next heq =>
        subst heq
        exact .bind (hp.visitMember hclosed hS _ htarget) fun _ => .pure
      · split
        · next hpath =>
          exact .bind (hp.visitHeader hroams hpath) fun _ =>
            .bind (ih d) fun _ => .pure
        · exact .pure

/-- A whole walk. -/
theorem run (hp : Keeps p rule c P) {goal : Designation}
    (hroams : Roams c.unit goal P) :
    Action.Keeps p (Walk.run rule c goal) := by
  refine .bind (hp.visitBelow hroams _ _) fun visits => ?_
  split
  · exact .bind (.stop hp.stop) fun _ => .pure
  · exact .pure

end Keeps

-- ==================================================== where a walk has been

end Walk

namespace Visits

variable {P : DeclId → Prop}

/-- The visits are all to declarations in `P`. -/
def In (v : Visits) (P : DeclId → Prop) : Prop :=
  ∀ d, d ∈ v.headers ∨ d ∈ v.members → P d

/-- There are no visits to begin with. -/
theorem In.none : Visits.none.In P := by
  rintro d (hd | hd) <;> cases hd

/-- One walk after another. -/
theorem In.append {v v' : Visits} (h : v.In P) (h' : v'.In P) :
    (v ++ v').In P := by
  rintro d (hd | hd)
  · exact (List.mem_append.mp hd).elim (fun hd => h d (Or.inl hd))
      fun hd => h' d (Or.inl hd)
  · exact (List.mem_append.mp hd).elim (fun hd => h d (Or.inr hd))
      fun hd => h' d (Or.inr hd)

/-- Several walks. -/
theorem In.concat {α : Type} {as : List α} {vs : List Visits}
    (h : List.Forall₂ (fun _ v => v.In P) as vs) : (Visits.concat vs).In P := by
  induction h with
  | nil => exact .none
  | cons hv _ ih => exact hv.append ih

end Visits

namespace Walk

namespace Roams

variable {goal : Designation} {P : DeclId → Prop}

/-- A declaration and its members. -/
theorem visitMember {S : DeclId → Prop}
    (hclosed : ∀ d, S d → ∀ m ∈ c.unit.children d, S m) (fuel : Nat)
    {d : DeclId} (hd : S d) :
    Triple (fun _ => True) (Walk.visitMember rule c fuel d)
      (fun v _ => v.In S) fun _ => True := by
  induction fuel generalizing d with
  | zero => exact .stop fun _ _ => trivial
  | succ fuel ih =>
      have hrest : ∀ work, Triple (fun _ => True) (do
          let rest ← Action.collect (fun m => do
            if ← Walk.skips rule c m then return .none
            Walk.visitMember rule c fuel m) (c.unit.children d)
          return (⟨[], [d], 0, work⟩ : Visits) ++ .concat rest)
          (fun v _ => v.In S) fun _ => True := by
        intro work
        refine .bind (.collect (T := fun _ v => v.In S) fun m hm => ?_)
          fun rest => .pure fun _ hw => .append ?_ (.concat hw.2)
        · refine .read_then fun left => ?_
          split
          · exact .pure fun _ _ => ⟨trivial, .none⟩
          · exact (ih (hclosed d hd m hm)).post fun _ _ hv => ⟨trivial, hv⟩
        · rintro x (hx | hx)
          · cases hx
          · rwa [List.mem_singleton.mp hx]
      have hmain : Triple (fun _ => True) (do
          let fresh ← Action.read fun w => decide (w.own c.unit d < rule.phase)
          if fresh then Walk.workOn rule c d
          let here : Visits := ⟨[], [d], 0, if fresh then [.member d] else []⟩
          let rest ← Action.collect (fun m => do
            if ← Walk.skips rule c m then return .none
            Walk.visitMember rule c fuel m) (c.unit.children d)
          return here ++ .concat rest)
          (fun v _ => v.In S) fun _ => True := by
        refine .read_then fun fresh => ?_
        cases fresh with
        | true => exact .bind (.trivial _ _) fun _ => hrest _
        | false => exact hrest _
      unfold Walk.visitMember
      by_cases hfile : c.unit.kind? d = some .file
      · simp only [hfile, if_true]
        exact .bind (.trivial _ _) fun _ => hmain
      · simp only [hfile, if_false]
        exact hmain

/-- A declaration on the path. -/
theorem visitHeader (hroams : Roams c.unit goal P) {d : DeclId}
    (hd : goal.onPath d = true) :
    Triple (fun _ => True) (Walk.visitHeader rule c d)
      (fun v _ => v.In P) fun _ => True := by
  refine .bind (.trivial _ _) fun _ => .bind (.trivial _ _) fun _ =>
    .bind (.trivial _ _) fun _ => .pure fun _ _ => ?_
  rintro x (hx | hx)
  · rw [List.mem_singleton.mp hx]
    exact hroams.path d hd
  · obtain ⟨hm, hk⟩ := List.mem_filter.mp hx
    exact hroams.parameter d hd x hm (eq_of_beq hk)

/-- What is below a declaration, as far as the designation goes. -/
theorem visitBelow (hroams : Roams c.unit goal P) (fuel : Nat)
    (parent : DeclId) :
    Triple (fun _ => True) (Walk.visitBelow rule c goal fuel parent)
      (fun v _ => v.In P) fun _ => True := by
  obtain ⟨S, htarget, hclosed, hS⟩ := hroams.target
  induction fuel generalizing parent with
  | zero => exact .stop fun _ _ => trivial
  | succ fuel ih =>
      refine .bind (.collect (T := fun _ v => v.In P) fun d _ => ?_)
        fun vs => .pure fun _ hw => .concat hw.2
      split
      · next heq =>
        subst heq
        exact .bind (visitMember hclosed _ htarget) fun v =>
          .pure fun _ hv => ⟨trivial, fun x hx => hS x (hv x hx)⟩
      · split
        · next hpath =>
          refine .bind (hroams.visitHeader hpath) fun header => ?_
          refine .bind (Q := fun v _ => v.In P ∧ header.In P) ?_ fun v =>
            .pure fun _ hw => ⟨trivial, hw.2.append hw.1⟩
          exact fun w hw => (Triple.assume fun hin =>
            (ih d).post fun _ _ hv => ⟨hv, hin⟩) w ⟨trivial, hw⟩
        · exact .pure fun _ _ => ⟨trivial, .none⟩

/-- A walk visits nothing but where it can come by. -/
theorem run (hroams : Roams c.unit goal P) :
    Triple (fun _ => True) (Walk.run rule c goal) (fun v _ => v.In P)
      fun _ => True := by
  refine .bind (hroams.visitBelow _ _) fun v => ?_
  split
  · exact .bind (Q := fun _ _ => False) (.stop fun _ _ => trivial)
      fun _ _ hw => hw.elim
  · exact .pure fun _ hv => hv

end Roams

-- ============================================================= the rules

/-- The rule of a phase is made of the session and of work. -/
theorem Keeps.of_rule {p : SideBySide} {c : Context} {phase : Phase}
    {rule : PhaseRule} {P : DeclId → Prop}
    (hrule : phase.rule? = some rule) (hp : p.Tasks c P)
    (hown : ∀ v w d, p.along v w → v.own c.unit d = w.own c.unit d)
    (hbelow : ∀ v w d, p.along v w → v.below c.unit d = w.below c.unit d)
    (hhooks : ∀ q d, P d → Action.Keeps p (c.runHooks q d))
    (hclass : ∀ d, phase = .supertypes ∨
      (phase = .bodies ∧ c.unit.isLocal d = true) →
      Action.Keeps p (PhaseRule.classSupertypes c d)) :
    Keeps p rule c P := by
  have hrest : ∀ {q : Phase} {b : Bool}, Keeps p (.idle q b) c P :=
    fun {q b} => ⟨hp.stop, hown, hbelow, fun _ _ => .pure, fun _ _ => .pure,
      hhooks q⟩
  cases phase with
  | raw | imports | extensionAnnotations | extensionStatus | newMembers =>
      cases hrule
  | supertypes =>
      cases hrule
      have hsession : ∀ d, Action.Keeps p (PhaseRule.classSupertypes c d) :=
        fun d => hclass d (Or.inl rfl)
      exact ⟨hp.stop, hown, hbelow, fun d _ => hsession d,
        fun d _ => hsession d, hhooks _⟩
  | sealedInheritors =>
      cases hrule
      exact hrest
  | types =>
      cases hrule
      exact ⟨hp.stop, hown, hbelow, fun _ hd => hp.annotations _ .types hd,
        fun _ hd => hp.signature _ .types hd, hhooks _⟩
  | status =>
      cases hrule
      exact ⟨hp.stop, hown, hbelow, fun _ hd => hp.status _ hd,
        fun _ hd => hp.status _ hd, hhooks _⟩
  | contracts =>
      cases hrule
      exact ⟨hp.stop, hown, hbelow, fun _ _ => .pure,
        fun _ hd => hp.contract _ .contracts hd, hhooks _⟩
  | implicitTypes =>
      cases hrule
      exact ⟨hp.stop, hown, hbelow, fun _ _ => .pure,
        fun _ hd => hp.inferred _ .implicitTypes hd, hhooks _⟩
  | bodies =>
      cases hrule
      exact ⟨hp.stop, hown, hbelow, fun _ _ => .pure,
        fun d hd => hp.resolveBody hd fun h => hclass d (Or.inr ⟨rfl, h⟩),
        hhooks _⟩

end Walk

/-- A rule belongs to its phase. -/
theorem Phase.phase_of_rule? {p : Phase} {rule : PhaseRule}
    (h : p.rule? = some rule) : rule.phase = p := by
  cases p <;> cases h <;> rfl

/-- A phase with a rule comes after the imports, and is run. -/
theorem Phase.supertypes_le_of_rule? {p : Phase} {rule : PhaseRule}
    (h : p.rule? = some rule) : supertypes ≤ p := by
  cases p <;> first | (cases h; done) | decide

/-- Whatever is run after the phases of the file has a rule. -/
theorem Phase.rule?_ne_none {p : Phase} (hlate : lastFileWide < p)
    (hrun : p.isExtension = false) : p.rule? ≠ none := by
  revert hlate hrun
  cases p <;> decide

/-- Only the rule of the last phase goes into executable code. -/
theorem Phase.inBodies_iff {p : Phase} {rule : PhaseRule}
    (h : p.rule? = some rule) : rule.inBodies = true ↔ p = .bodies := by
  cases p <;> cases h <;> decide

-- ================================================== what a walk comes by

namespace Visits

/-- The headers of several walks. -/
theorem mem_headers_concat {vs : List Visits} {x : DeclId} :
    x ∈ (concat vs).headers ↔ ∃ v ∈ vs, x ∈ v.headers := by
  induction vs with
  | nil => simp [concat, none]
  | cons v rest ih =>
      show x ∈ v.headers ++ (concat rest).headers ↔ _
      simp [ih]

/-- The members of several walks. -/
theorem mem_members_concat {vs : List Visits} {x : DeclId} :
    x ∈ (concat vs).members ↔ ∃ v ∈ vs, x ∈ v.members := by
  induction vs with
  | nil => simp [concat, none]
  | cons v rest ih =>
      show x ∈ v.members ++ (concat rest).members ↔ _
      simp [ih]

/-- The target was met in one of several walks. -/
theorem targets_concat {vs : List Visits} (h : 0 < (concat vs).targets) :
    ∃ v ∈ vs, 0 < v.targets := by
  induction vs with
  | nil => cases h
  | cons v rest ih =>
      have hsum : (concat (v :: rest)).targets =
          v.targets + (concat rest).targets := rfl
      rcases Nat.eq_zero_or_pos v.targets with hv | hv
      · obtain ⟨v', hv', hpos⟩ := ih (by omega)
        exact ⟨v', List.mem_cons_of_mem _ hv', hpos⟩
      · exact ⟨v, List.mem_cons_self .., hv⟩

/-- Several walks that do not meet the target. -/
theorem targets_concat_eq_zero {vs : List Visits}
    (h : ∀ v ∈ vs, v.targets = 0) : (concat vs).targets = 0 := by
  rcases Nat.eq_zero_or_pos (concat vs).targets with hv | hv
  · exact hv
  · obtain ⟨v, hmem, hpos⟩ := targets_concat hv
    rw [h v hmem] at hpos
    exact absurd hpos (Nat.lt_irrefl 0)

end Visits

namespace Walk

variable {S : World → World → Prop} [Course S] {rule : PhaseRule}
  {c : Context} {I E : World → Prop} {D : DeclId → World → Prop}
  {goal : Designation}

/-- Why a walk leaves a member out. -/
def LeftOut (rule : PhaseRule) (c : Context) (m : DeclId) (w : World) : Prop :=
  w.Registered c.unit ∧ (c.unit.isEligible m = false ∨
    (c.unit.isLocal m = true ∧ rule.inBodies = false) ∨
      rule.phase ≤ w.below c.unit m)

/-- A member that a walk does not leave out for what it is. -/
def Enters (rule : PhaseRule) (c : Context) (m : DeclId) : Prop :=
  c.unit.isEligible m = true ∧ (c.unit.isLocal m = true → rule.inBodies = true)

/-- What was left out stays out. -/
theorem lasting_leftOut (m : DeclId) : KeptBy S (LeftOut rule c m) := by
  rintro v w hvw ⟨hreg, hv⟩
  have h := Course.later v w hvw
  refine ⟨h.registered hreg, hv.imp id (Or.imp id fun hm => ?_)⟩
  exact Phase.le_trans hm (h.below c.unit m hreg)

/-- The work keeps a condition and whatever is kept on the way, and
establishes `D` for each declaration; declarations that are marked already
have it. -/
structure EstablishesBy (S : World → World → Prop) (rule : PhaseRule)
    (c : Context) (goal : Designation) (I E : World → Prop)
    (D : DeclId → World → Prop) : Prop where
  registered : ∀ w, I w → w.Registered c.unit
  wellFormed : c.unit.WellFormed
  stop : ∀ w, I w → E w
  lasting : ∀ d, KeptBy S (D d)
  header : ∀ d, goal.onPath d = true →
    AdvancesBy S I (do rule.onHeader c d; c.runHooks rule.phase d)
      (fun _ => D d) E
  member : ∀ d, AdvancesBy S I (workOn rule c d) (fun _ => D d) E
  marked : ∀ w d, I w → rule.phase ≤ w.own c.unit d → D d w

/-- The work keeps a condition and whatever lasts, and establishes `D` for
each declaration. -/
abbrev Establishes (rule : PhaseRule) (c : Context) (goal : Designation)
    (I E : World → Prop) (D : DeclId → World → Prop) : Prop :=
  EstablishesBy Onward rule c goal I E D

/-- The visits to a declaration and its members. -/
structure Subtree (rule : PhaseRule) (c : Context) (D : DeclId → World → Prop)
    (d : DeclId) (v : Visits) (w : World) : Prop where
  headers : v.headers = []
  targets : v.targets = 0
  top : d ∈ v.members
  linked : ∀ x ∈ v.members, x = d ∨
    (Enters rule c x ∧ ∃ q ∈ v.members, c.unit.parent? x = some q)
  full : ∀ x ∈ v.members, ∀ m ∈ c.unit.children x,
    m ∈ v.members ∨ LeftOut rule c m w
  done : ∀ x ∈ v.members, D x w

/-- Such visits last. -/
theorem lasting_subtree (hD : ∀ d, KeptBy S (D d)) (d : DeclId) (v : Visits) :
    KeptBy S (Subtree rule c D d v) := fun u w h hv =>
  { hv with
    full := fun x hx m hm =>
      (hv.full x hx m hm).imp_right (lasting_leftOut m u w h)
    done := fun x hx => hD x u w h (hv.done x hx) }

omit [Course S] in
/-- Assuming more. -/
theorem EstablishesBy.and_lasting (h : EstablishesBy S rule c goal I E D)
    {T : World → Prop} (hT : KeptBy S T) :
    EstablishesBy S rule c goal (fun w => I w ∧ T w) E D :=
  { h with
    registered := fun w hw => h.registered w hw.1
    stop := fun w hw => h.stop w hw.1
    header := fun d hd => (h.header d hd).and_lasting hT
    member := fun d => (h.member d).and_lasting hT
    marked := fun w d hw => h.marked w d hw.1 }

/-- What becomes of a member: it is left out, or visited with all that is
below it. -/
private def Treated (rule : PhaseRule) (c : Context)
    (D : DeclId → World → Prop) (m : DeclId) (v : Visits) (w : World) : Prop :=
  (v = .none ∧ LeftOut rule c m w) ∨
    (Enters rule c m ∧ Subtree rule c D m v w)

private theorem lasting_treated (hD : ∀ d, KeptBy S (D d)) (m : DeclId)
    (v : Visits) : KeptBy S (Treated rule c D m v) := by
  rintro u w h (⟨hv, hm⟩ | ⟨hm, hv⟩)
  · exact Or.inl ⟨hv, lasting_leftOut m u w h hm⟩
  · exact Or.inr ⟨hm, lasting_subtree hD m v u w h hv⟩

/-- The visits to a declaration, put together from those to its
members. -/
private theorem Subtree.assemble (hu : c.unit.WellFormed) {d : DeclId}
    {vs : List Visits} {work : List Work} {w : World} (hd : D d w)
    (hmembers : ∀ m ∈ c.unit.children d, ∃ v ∈ vs, Treated rule c D m v w)
    (hvisits : ∀ v ∈ vs, ∃ m ∈ c.unit.children d, Treated rule c D m v w) :
    Subtree rule c D d ((⟨[], [d], 0, work⟩ : Visits) ++ .concat vs) w := by
  have hmem : ∀ x, x ∈ ((⟨[], [d], 0, work⟩ : Visits) ++ .concat vs).members ↔
      x = d ∨ ∃ v ∈ vs, x ∈ v.members := by
    intro x
    show x ∈ d :: (Visits.concat vs).members ↔ _
    rw [List.mem_cons, Visits.mem_members_concat]
  have hsub : ∀ v ∈ vs, ∀ x ∈ v.members, ∃ m ∈ c.unit.children d,
      Enters rule c m ∧ Subtree rule c D m v w := by
    intro v hv x hx
    obtain ⟨m, hm, ⟨rfl, -⟩ | h⟩ := hvisits v hv
    · cases hx
    · exact ⟨m, hm, h⟩
  constructor
  case headers =>
    show [] ++ (Visits.concat vs).headers = []
    rw [List.nil_append, List.eq_nil_iff_forall_not_mem]
    intro x hx
    obtain ⟨v, hv, hx⟩ := Visits.mem_headers_concat.mp hx
    obtain ⟨m, hm, ⟨rfl, -⟩ | ⟨-, h⟩⟩ := hvisits v hv
    · cases hx
    · rw [h.headers] at hx
      cases hx
  case targets =>
    show 0 + (Visits.concat vs).targets = 0
    rw [Visits.targets_concat_eq_zero]
    intro v hv
    obtain ⟨m, hm, ⟨rfl, -⟩ | ⟨-, h⟩⟩ := hvisits v hv
    · rfl
    · exact h.targets
  case top => exact (hmem d).mpr (Or.inl rfl)
  case linked =>
    intro x hx
    rcases (hmem x).mp hx with rfl | ⟨v, hv, hx⟩
    · exact Or.inl rfl
    · obtain ⟨m, hm, helig, h⟩ := hsub v hv x hx
      right
      rcases h.linked x hx with rfl | ⟨hx', q, hq, hparent⟩
      · exact ⟨helig, d, (hmem d).mpr (Or.inl rfl), (hu.child_iff d x).mp hm⟩
      · exact ⟨hx', q, (hmem q).mpr (Or.inr ⟨v, hv, hq⟩), hparent⟩
  case full =>
    intro x hx m hm
    rcases (hmem x).mp hx with rfl | ⟨v, hv, hx⟩
    · obtain ⟨v, hv, ⟨-, h⟩ | ⟨-, h⟩⟩ := hmembers m hm
      · exact Or.inr h
      · exact Or.inl ((hmem m).mpr (Or.inr ⟨v, hv, h.top⟩))
    · obtain ⟨m', hm', -, h⟩ := hsub v hv x hx
      exact (h.full x hx m hm).imp_left fun hm => (hmem m).mpr
        (Or.inr ⟨v, hv, hm⟩)
  case done =>
    intro x hx
    rcases (hmem x).mp hx with rfl | ⟨v, hv, hx⟩
    · exact hd
    · obtain ⟨m, hm, -, h⟩ := hsub v hv x hx
      exact h.done x hx

omit [Course S] in
/-- Deciding what to leave out. -/
private theorem EstablishesBy.skips (h : EstablishesBy S rule c goal I E D)
    (m : DeclId) : AdvancesBy S I (Walk.skips rule c m) (fun left w =>
      (left = true → LeftOut rule c m w) ∧
        (left = false → Enters rule c m)) E := by
  refine .read fun w hw => ?_
  simp only [LeftOut, Enters, h.registered w hw, true_and]
  cases c.unit.isEligible m <;> cases c.unit.isLocal m <;>
    cases rule.inBodies <;> simp

/-- The visits to a declaration and its members are what they should
be. -/
theorem EstablishesBy.visitMember (h : EstablishesBy S rule c goal I E D)
    (fuel : Nat) (d : DeclId) :
    AdvancesBy S I (visitMember rule c fuel d) (Subtree rule c D d) E := by
  induction fuel generalizing I d with
  | zero => exact .stop h.stop
  | succ fuel ih =>
      -- the members, once the declaration itself is done
      have hrest : ∀ work, AdvancesBy S (fun w => I w ∧ D d w) (do
          let rest ← Action.collect (fun m => do
            if ← Walk.skips rule c m then return .none
            Walk.visitMember rule c fuel m) (c.unit.children d)
          return (⟨[], [d], 0, work⟩ : Visits) ++ .concat rest)
          (Subtree rule c D d) E := by
        intro work
        have h' := h.and_lasting (h.lasting d)
        refine .bind (.collect (T := Treated rule c D)
          (lasting_treated h.lasting) fun m hm => ?_) fun vs => ?_
        · refine .bind (h'.skips m) fun left => ?_
          cases left with
          | true => exact .pure fun w hw => Or.inl ⟨rfl, hw.2.1 rfl⟩
          | false =>
              have h'' := h'.and_lasting (T := fun w =>
                (false = true → LeftOut rule c m w) ∧
                  (false = false → Enters rule c m))
                fun u w hw hu => ⟨nofun, hu.2⟩
              exact (ih h'' m).post fun v w hw hv =>
                Or.inr ⟨hw.2.2 rfl, hv⟩
        · exact .pure fun w hw => .assemble h.wellFormed hw.1.2 hw.2.1 hw.2.2
      have hmain : AdvancesBy S I (do
          let fresh ← Action.read fun w => decide (w.own c.unit d < rule.phase)
          if fresh then Walk.workOn rule c d
          let here : Visits := ⟨[], [d], 0, if fresh then [.member d] else []⟩
          let rest ← Action.collect (fun m => do
            if ← Walk.skips rule c m then return .none
            Walk.visitMember rule c fuel m) (c.unit.children d)
          return here ++ .concat rest) (Subtree rule c D d) E := by
        refine .bind (Q := fun fresh w => fresh = false → D d w)
          (.read fun w hw hfresh => ?_) fun fresh => ?_
        · exact h.marked w d hw (Phase.le_of_not_lt (of_decide_eq_false hfresh))
        · cases fresh with
          | true =>
              have h' := h.and_lasting (T := fun w => true = false → D d w)
                fun u w _ _ => nofun
              refine .bind (h'.member d) fun _ => ?_
              exact (hrest _).congr fun w =>
                ⟨fun hw => ⟨⟨hw.1, nofun⟩, hw.2⟩, fun hw => ⟨hw.1.1, hw.2⟩⟩
          | false =>
              exact (hrest _).congr fun w =>
                ⟨fun hw => ⟨hw.1, fun _ => hw.2⟩, fun hw => ⟨hw.1, hw.2 rfl⟩⟩
      unfold Walk.visitMember
      by_cases hfile : c.unit.kind? d = some .file
      · simp only [hfile, if_true]
        exact .andThen (.stop (Q := fun _ _ => True) h.stop) fun _ => hmain
      · simp only [hfile, if_false]
        exact hmain

-- ============================================================ the route

/-- The visits of a walk below `parent`, as far as a designation goes. -/
structure Route (rule : PhaseRule) (c : Context) (D : DeclId → World → Prop)
    (goal : Designation) (parent : DeclId) (v : Visits) (w : World) : Prop where
  header : ∀ x ∈ v.headers, goal.onPath x = true ∧
    (c.unit.parent? x = some parent ∨
      ∃ q ∈ v.headers, c.unit.parent? x = some q)
  member : ∀ x ∈ v.members,
    (x = goal.target ∧ (c.unit.parent? x = some parent ∨
      ∃ q ∈ v.headers, c.unit.parent? x = some q)) ∨
    (c.unit.kind? x = some .typeParameter ∧
      ∃ q ∈ v.headers, c.unit.parent? x = some q) ∨
    (Enters rule c x ∧
      ∃ q ∈ v.members, c.unit.parent? x = some q)
  target : 0 < v.targets → goal.target ∈ v.members
  full : ∀ x ∈ v.members, c.unit.kind? x ≠ some .typeParameter →
    ∀ m ∈ c.unit.children x, m ∈ v.members ∨ LeftOut rule c m w
  done : ∀ x, x ∈ v.headers ∨ x ∈ v.members → D x w

variable {parent : DeclId}

/-- A route lasts. -/
theorem lasting_route (hD : ∀ d, KeptBy S (D d)) (v : Visits) :
    KeptBy S (Route rule c D goal parent v) := fun u w h hv =>
  { hv with
    full := fun x hx hk m hm =>
      (hv.full x hx hk m hm).imp_right (lasting_leftOut m u w h)
    done := fun x hx => hD x u w h (hv.done x hx) }

/-- A walk that came by nothing. -/
theorem Route.none {w : World} : Route rule c D goal parent .none w :=
  ⟨nofun, nofun, nofun, nofun, fun _ hx => by cases hx <;> contradiction⟩

/-- Several walks below the same declaration. -/
theorem Route.concat {vs : List Visits} {w : World}
    (h : ∀ v ∈ vs, Route rule c D goal parent v w) :
    Route rule c D goal parent (.concat vs) w := by
  have hheaders := fun x => @Visits.mem_headers_concat vs x
  have hmembers := fun x => @Visits.mem_members_concat vs x
  constructor
  case header =>
    intro x hx
    obtain ⟨v, hv, hx⟩ := (hheaders x).mp hx
    obtain ⟨hpath, hlink⟩ := (h v hv).header x hx
    refine ⟨hpath, hlink.imp_right ?_⟩
    rintro ⟨q, hq, hparent⟩
    exact ⟨q, (hheaders q).mpr ⟨v, hv, hq⟩, hparent⟩
  case member =>
    intro x hx
    obtain ⟨v, hv, hx⟩ := (hmembers x).mp hx
    have hup : ∀ q ∈ v.headers, q ∈ (Visits.concat vs).headers :=
      fun q hq => (hheaders q).mpr ⟨v, hv, hq⟩
    rcases (h v hv).member x hx with ⟨hx, hlink⟩ | ⟨hx, q, hq, hparent⟩ |
      ⟨hx, q, hq, hparent⟩
    · refine Or.inl ⟨hx, hlink.imp_right ?_⟩
      rintro ⟨q, hq, hparent⟩
      exact ⟨q, hup q hq, hparent⟩
    · exact Or.inr (Or.inl ⟨hx, q, hup q hq, hparent⟩)
    · exact Or.inr (Or.inr ⟨hx, q, (hmembers q).mpr ⟨v, hv, hq⟩, hparent⟩)
  case target =>
    intro hpos
    obtain ⟨v, hv, hpos⟩ := Visits.targets_concat hpos
    exact (hmembers _).mpr ⟨v, hv, (h v hv).target hpos⟩
  case full =>
    intro x hx hk m hm
    obtain ⟨v, hv, hx⟩ := (hmembers x).mp hx
    exact ((h v hv).full x hx hk m hm).imp_left fun hm =>
      (hmembers m).mpr ⟨v, hv, hm⟩
  case done =>
    rintro x (hx | hx)
    · obtain ⟨v, hv, hx⟩ := (hheaders x).mp hx
      exact (h v hv).done x (Or.inl hx)
    · obtain ⟨v, hv, hx⟩ := (hmembers x).mp hx
      exact (h v hv).done x (Or.inr hx)

/-- The target with what is below it. -/
theorem Route.of_subtree {v : Visits} {w : World}
    (hparent : c.unit.parent? goal.target = some parent)
    (h : Subtree rule c D goal.target v w) :
    Route rule c D goal parent { v with targets := v.targets + 1 } w := by
  constructor
  case header =>
    intro x hx
    rw [h.headers] at hx
    cases hx
  case member =>
    intro x hx
    rcases h.linked x hx with rfl | hlink
    · exact Or.inl ⟨rfl, Or.inl hparent⟩
    · exact Or.inr (Or.inr hlink)
  case target => exact fun _ => h.top
  case full => exact fun x hx _ => h.full x hx
  case done =>
    rintro x (hx | hx)
    · rw [h.headers] at hx
      cases hx
    · exact h.done x hx

/-- A declaration on the path, with the route below it. -/
theorem Route.of_header {d : DeclId} {parameters : List DeclId}
    {work : List Work} {v : Visits} {w : World}
    (hparent : c.unit.parent? d = some parent) (hpath : goal.onPath d = true)
    (hd : D d w)
    (hparameters : ∀ x ∈ parameters, c.unit.kind? x = some .typeParameter ∧
      c.unit.parent? x = some d ∧ D x w)
    (h : Route rule c D goal d v w) :
    Route rule c D goal parent (⟨[d], parameters, 0, work⟩ ++ v) w := by
  have hheaders : ∀ x, x ∈ ((⟨[d], parameters, 0, work⟩ : Visits) ++ v).headers ↔
      x = d ∨ x ∈ v.headers := by
    intro x
    show x ∈ [d] ++ v.headers ↔ _
    rw [List.mem_append, List.mem_singleton]
  have hmembers : ∀ x, x ∈ ((⟨[d], parameters, 0, work⟩ : Visits) ++ v).members ↔
      x ∈ parameters ∨ x ∈ v.members := by
    intro x
    show x ∈ parameters ++ v.members ↔ _
    rw [List.mem_append]
  -- what hangs on the declaration or on a header below it
  have hlink : ∀ x, (c.unit.parent? x = some d ∨
      ∃ q ∈ v.headers, c.unit.parent? x = some q) →
      ∃ q ∈ ((⟨[d], parameters, 0, work⟩ : Visits) ++ v).headers,
        c.unit.parent? x = some q := by
    rintro x (hx | ⟨q, hq, hx⟩)
    · exact ⟨d, (hheaders d).mpr (Or.inl rfl), hx⟩
    · exact ⟨q, (hheaders q).mpr (Or.inr hq), hx⟩
  constructor
  case header =>
    intro x hx
    rcases (hheaders x).mp hx with rfl | hx
    · exact ⟨hpath, Or.inl hparent⟩
    · obtain ⟨hx, h'⟩ := h.header x hx
      exact ⟨hx, Or.inr (hlink x h')⟩
  case member =>
    intro x hx
    rcases (hmembers x).mp hx with hx | hx
    · obtain ⟨hk, hp, -⟩ := hparameters x hx
      exact Or.inr (Or.inl ⟨hk, hlink x (Or.inl hp)⟩)
    · rcases h.member x hx with ⟨hx, h'⟩ | ⟨hx, q, hq, hp⟩ | ⟨hx, q, hq, hp⟩
      · exact Or.inl ⟨hx, Or.inr (hlink x h')⟩
      · exact Or.inr (Or.inl ⟨hx, hlink x (Or.inr ⟨q, hq, hp⟩)⟩)
      · exact Or.inr (Or.inr ⟨hx, q, (hmembers q).mpr (Or.inr hq), hp⟩)
  case target =>
    intro hpos
    have hsum : ((⟨[d], parameters, 0, work⟩ : Visits) ++ v).targets =
        0 + v.targets := rfl
    exact (hmembers _).mpr (Or.inr (h.target (by omega)))
  case full =>
    intro x hx hk m hm
    rcases (hmembers x).mp hx with hx | hx
    · exact absurd (hparameters x hx).1 hk
    · exact (h.full x hx hk m hm).imp_left fun hm =>
        (hmembers m).mpr (Or.inr hm)
  case done =>
    rintro x (hx | hx)
    · rcases (hheaders x).mp hx with rfl | hx
      · exact hd
      · exact h.done x (Or.inl hx)
    · rcases (hmembers x).mp hx with hx | hx
      · exact (hparameters x hx).2.2
      · exact h.done x (Or.inr hx)

omit [Course S] in
/-- The visit to a declaration on the path. -/
theorem EstablishesBy.visitHeader (h : EstablishesBy S rule c goal I E D)
    {d : DeclId} (hd : goal.onPath d = true) :
    AdvancesBy S I (visitHeader rule c d) (fun v w => D d w ∧
      ∃ parameters work, v = ⟨[d], parameters, 0, work⟩ ∧
        ∀ x ∈ parameters, c.unit.kind? x = some .typeParameter ∧
          c.unit.parent? x = some d ∧ D x w) E := by
  have h' := h.and_lasting (h.lasting d)
  have hassoc : Walk.visitHeader rule c d =
      (do rule.onHeader c d; c.runHooks rule.phase d) >>= fun _ => do
        let parameters := (c.unit.children d).filter fun m =>
          c.unit.kind? m == some .typeParameter
        Action.each (Walk.workOn rule c) parameters
        return ⟨[d], parameters, 0, .header d :: parameters.map .member⟩ :=
    (Action.bind_assoc _ _ _).symm
  rw [hassoc]
  refine .bind (h.header d hd) fun _ => ?_
  refine .bind (.each h.lasting fun x _ => h'.member x) fun _ => ?_
  refine .pure fun w hw => ⟨hw.1.2, _, _, rfl, fun x hx => ?_⟩
  obtain ⟨hmem, hk⟩ := List.mem_filter.mp hx
  exact ⟨eq_of_beq hk, (h.wellFormed.child_iff d x).mp hmem, hw.2 x hx⟩

/-- The visits below a declaration are a route. -/
theorem EstablishesBy.visitBelow (h : EstablishesBy S rule c goal I E D)
    (fuel : Nat) (parent : DeclId) :
    AdvancesBy S I (visitBelow rule c goal fuel parent)
      (Route rule c D goal parent) E := by
  induction fuel generalizing I parent with
  | zero => exact .stop h.stop
  | succ fuel ih =>
      refine .bind (.collect (T := fun _ => Route rule c D goal parent)
        (fun _ => lasting_route h.lasting) fun d hd => ?_) fun vs => ?_
      · have hparent := (h.wellFormed.child_iff parent d).mp hd
        split
        · next heq =>
          refine .bind (h.visitMember _ d) fun v => .pure fun w hw => ?_
          subst heq
          exact .of_subtree hparent hw.2
        · split
          · next hpath =>
            have hlast : ∀ v, KeptBy S fun w => D d w ∧
                ∃ parameters work, v = (⟨[d], parameters, 0, work⟩ : Visits) ∧
                  ∀ x ∈ parameters, c.unit.kind? x = some .typeParameter ∧
                    c.unit.parent? x = some d ∧ D x w := by
              rintro v u w hw ⟨hd, parameters, work, hv, hall⟩
              refine ⟨h.lasting d u w hw hd, parameters, work, hv, ?_⟩
              intro x hx
              obtain ⟨hk, hp, hx⟩ := hall x hx
              exact ⟨hk, hp, h.lasting x u w hw hx⟩
            refine .bind (h.visitHeader hpath) fun header => ?_
            have h' := h.and_lasting (hlast header)
            refine .bind (ih h' d) fun v => ?_
            refine .pure fun w hw => ?_
            obtain ⟨⟨-, hd, parameters, work, rfl, hall⟩, hroute⟩ := hw
            exact .of_header hparent hpath hd hall hroute
          · exact .pure fun w _ => .none
      · refine .pure fun w hw => .concat fun v hv => ?_
        obtain ⟨_, -, hroute⟩ := hw.2.2 v hv
        exact hroute

/-- A walk that answers has met its target on a route from the file. -/
theorem EstablishesBy.run (h : EstablishesBy S rule c goal I E D) :
    AdvancesBy S I (run rule c goal) (fun v w =>
      Route rule c D goal .root v w ∧ goal.target ∈ v.members) E := by
  refine .bind (h.visitBelow _ _) fun v => ?_
  by_cases ht : v.targets ≠ 1
  · rw [if_pos ht]
    exact .bind (.stop (Q := fun _ _ => False) fun w hw => h.stop w hw.1)
      fun _ => .pure fun w hw => hw.2.elim
  · rw [if_neg ht]
    exact .pure fun w hw => ⟨hw.2, hw.2.target (by omega)⟩

end Walk

end StagedResolve
