/-
Reasoning about runs of actions.

# One run

`Triple P x Q E` says what a run of `x` from a world in `P` ends with:
an answer and a world in `Q`, or a failure and a world in `E`. A failure
keeps what was written before it, so the worlds that failures leave are
described as carefully as the others.

# Two runs side by side

`Keeps p x` compares two runs of one action. As long as both go on their
worlds are related by `p.along`; they answer and fail together, and
after a failure their worlds are related by `p.failed`. The second run
may also go its own way, which it then does for good (`p.away`): that is
how a run that puts something off is compared with one that does not.
Where only runs that answer are of interest, either may fail as it likes
(`p.alone`).

One run is two runs from the same world (`SideBySide.solo`), so what is
proved once for `Keeps` serves for invariants too. Every function of the
library that only looks things up, or only writes to the slots of the
unit at hand, has its lemma in this form, with the steps it is made of
as hypotheses; a particular invariant then has to be checked for those
steps only.
-/
import Mathlib.Data.List.Forall2
import StagedResolve.World

namespace StagedResolve

namespace Action

variable {α β : Type}

/-- How a sequence of actions is grouped does not matter. -/
theorem bind_assoc {γ : Type} (x : Action α) (f : α → Action β)
    (g : β → Action γ) : (x >>= f) >>= g = x >>= fun a => f a >>= g := by
  funext w
  rcases hx : x w with ⟨e | a, w'⟩
  · rw [bind_run_error (bind_run_error hx f), bind_run_error hx]
  · rw [bind_run_ok hx]
    rcases hf : f a w' with ⟨e | b, w''⟩
    · rw [bind_run_error ((bind_run_ok hx f).trans hf), bind_run_error hf]
    · rw [bind_run_ok ((bind_run_ok hx f).trans hf), bind_run_ok hf]

/-- A run that is known to end in one way. -/
theorem run_of_fst {x : Action α} {w : World} {r : Except Failure α}
    (h : (x w).1 = r) : x w = (r, (x w).2) :=
  Prod.ext h rfl

/-- A run is known to answer by what is read off its answer. -/
theorem run_of_map {x : Action α} {w : World} {g : α → β} {b : β}
    (h : (x w).1.toOption.map g = some b) :
    ∃ a w', x w = (.ok a, w') ∧ g a = b := by
  rcases hx : x w with ⟨e | a, w'⟩
  · rw [hx] at h
    cases h
  · rw [hx] at h
    exact ⟨a, w', rfl, Option.some.inj h⟩

/-- A run that does not answer fails. -/
theorem run_of_none {x : Action α} {w : World} (h : (x w).1.toOption = none) :
    ∃ e w', x w = (.error e, w') := by
  rcases hx : x w with ⟨e | a, w'⟩
  · exact ⟨e, w', rfl⟩
  · rw [hx] at h
    cases h

/-- Going through a list of one member. -/
theorem each_singleton (f : α → Action Unit) (a : α) : each f [a] = f a := by
  funext w
  show (f a >>= fun _ => answer ()) w = f a w
  rcases hrun : f a w with ⟨e | _, w'⟩
  · rw [bind_run_error hrun]
  · rw [bind_run_ok hrun]
    rfl

/-- Going through the values of a function. -/
theorem each_map (f : α → Action Unit) (g : β → α) (bs : List β) :
    each f (bs.map g) = each (fun b => f (g b)) bs := by
  induction bs with
  | nil => rfl
  | cons b rest ih =>
      show (f (g b) >>= fun _ => each f (rest.map g)) = _
      rw [ih]
      rfl

/-- Going through two lists, one after the other. -/
theorem each_append (f : α → Action Unit) (as bs : List α) :
    each f (as ++ bs) = each f as >>= fun _ => each f bs := by
  induction as with
  | nil => rfl
  | cons a rest ih =>
      show (f a >>= fun _ => each f (rest ++ bs)) =
        (f a >>= fun _ => each f rest) >>= fun _ => each f bs
      rw [bind_assoc, ih]

/-- Taking the lock of a unit in order changes the thread alone. -/
theorem lockUnitOrdered_run (id : UnitId) (w : World) : lockUnitOrdered id w =
    (.ok (w.thread.lockOrdered (.ofUnit id)).1,
      { w with thread := (w.thread.lockOrdered (.ofUnit id)).2 }) := rfl

-- ============================================================== one run

/-- From a world in `P` the action answers and leaves `Q`, or fails and
leaves `E`. -/
def Triple (P : World → Prop) (x : Action α) (Q : α → World → Prop)
    (E : World → Prop) : Prop :=
  ∀ w, P w →
    match x w with
    | (.ok a, w') => Q a w'
    | (.error _, w') => E w'

namespace Triple

variable {P P' E E' : World → Prop} {Q Q' : α → World → Prop}
  {R : β → World → Prop} {x : Action α}

/-- What holds after an answer. -/
theorem ok (h : Triple P x Q E) {w w' : World} {a : α} (hw : P w)
    (hx : x w = (.ok a, w')) : Q a w' := by
  have := h w hw
  rwa [hx] at this

/-- What holds after a failure. -/
theorem error (h : Triple P x Q E) {w w' : World} {e : Failure} (hw : P w)
    (hx : x w = (.error e, w')) : E w' := by
  have := h w hw
  rwa [hx] at this

/-- What holds after a run, however it ends. -/
theorem world {P I : World → Prop} (h : Triple P x (fun _ => I) I)
    {w : World} (hw : P w) : I (x w).2 := by
  have hrun := h w hw
  rcases hx : x w with ⟨e | a, w'⟩
  · rwa [hx] at hrun
  · rwa [hx] at hrun

/-- A triple is what its runs show. -/
theorem of_runs (hok : ∀ w a w', P w → x w = (.ok a, w') → Q a w')
    (herr : ∀ w e w', P w → x w = (.error e, w') → E w') :
    Triple P x Q E := by
  intro w hw
  rcases hx : x w with ⟨e | a, w'⟩
  · exact herr w e w' hw hx
  · exact hok w a w' hw hx

/-- The precondition may be strengthened, the postconditions
weakened. -/
theorem conseq (h : Triple P x Q E) (hP : ∀ w, P' w → P w)
    (hQ : ∀ a w, Q a w → Q' a w) (hE : ∀ w, E w → E' w) :
    Triple P' x Q' E' :=
  of_runs (fun _ _ _ hw hx => hQ _ _ (h.ok (hP _ hw) hx))
    (fun _ _ _ hw hx => hE _ (h.error (hP _ hw) hx))

/-- What two triples say at once. -/
theorem both {Q' : α → World → Prop} {E' : World → Prop}
    (h : Triple P x Q E) (h' : Triple P x Q' E') :
    Triple P x (fun a w => Q a w ∧ Q' a w) fun w => E w ∧ E' w := by
  intro w hw
  have hrun := h w hw
  have hrun' := h' w hw
  rcases hx : x w with ⟨e | a, w'⟩
  · rw [hx] at hrun hrun'
    exact ⟨hrun, hrun'⟩
  · rw [hx] at hrun hrun'
    exact ⟨hrun, hrun'⟩

/-- A triple that says nothing. -/
theorem trivial (P : World → Prop) (x : Action α) :
    Triple P x (fun _ _ => True) fun _ => True := by
  intro w _
  rcases x w with ⟨e | a, w'⟩ <;> exact True.intro

/-- The precondition may be strengthened. -/
theorem pre (h : Triple P x Q E) (hP : ∀ w, P' w → P w) :
    Triple P' x Q E :=
  h.conseq hP (fun _ _ => id) (fun _ => id)

/-- The postcondition may be weakened. -/
theorem post (h : Triple P x Q E) (hQ : ∀ a w, Q a w → Q' a w) :
    Triple P x Q' E :=
  h.conseq (fun _ => id) hQ (fun _ => id)

/-- Answering needs the postcondition of the answer. -/
theorem pure {a : α} (h : ∀ w, P w → Q a w) :
    Triple P (Pure.pure a) Q E :=
  fun w hw => h w hw

/-- One action after another. -/
theorem bind {f : α → Action β} (hx : Triple P x Q E)
    (hf : ∀ a, Triple (Q a) (f a) R E) : Triple P (x >>= f) R E := by
  intro w hw
  rcases h : x w with ⟨e | a, w'⟩
  · rw [bind_run_error h]
    exact hx.error hw h
  · rw [bind_run_ok h]
    exact hf a w' (hx.ok hw h)

/-- Reading answers with what is there. -/
theorem read {f : World → α} (h : ∀ w, P w → Q (f w) w) :
    Triple P (Action.read f) Q E :=
  fun w hw => h w hw

/-- Reading is followed by what is done with the value that was read. -/
theorem read_bind {g : World → α} {f : α → Action β}
    (h : ∀ a, Triple (fun w => P w ∧ g w = a) (f a) R E) :
    Triple P (Action.read g >>= f) R E :=
  bind (Q := fun a w => P w ∧ g w = a) (read fun _ hw => ⟨hw, rfl⟩) h

/-- Reading, where what was read does not matter. -/
theorem read_then {g : World → α} {f : α → Action β}
    (h : ∀ a, Triple P (f a) R E) : Triple P (Action.read g >>= f) R E :=
  bind (Q := fun _ => P) (read fun _ hw => hw) h

/-- A change of the world. -/
theorem update {f : World → World} {Q : Unit → World → Prop}
    (h : ∀ w, P w → Q () (f w)) : Triple P (Action.update f) Q E :=
  fun w hw => h w hw

/-- Stopping needs the condition on failures. -/
theorem stop {f : Failure} (h : ∀ w, P w → E w) :
    Triple P (Action.stop (α := α) f) Q E :=
  fun w hw => h w hw

/-- Looking at the token changes nothing. -/
theorem checkCancelled {cancellable : Bool} {phase : Phase}
    (h : ∀ w, P w → E w) :
    Triple P (Action.checkCancelled cancellable phase) (fun _ => P) E := by
  intro w hw
  unfold Action.checkCancelled
  cases cancellable with
  | false => exact hw
  | true =>
      rw [if_pos rfl]
      cases w.thread.token.check phase with
      | ok a => exact hw
      | error e => exact h w hw

/-- An action under a guard that is dropped afterwards. -/
theorem holding {g : Guard} (h : Triple P x Q E)
    (hQ : ∀ a w, Q a w → Q' a { w with thread := w.thread.release g })
    (hE : ∀ w, E w → E' { w with thread := w.thread.release g }) :
    Triple P (Action.holding g x) Q' E' := by
  intro w hw
  have hrun := h w hw
  unfold Action.holding
  rcases hr : x w with ⟨e | a, w'⟩
  · rw [hr] at hrun
    exact hE w' hrun
  · rw [hr] at hrun
    exact hQ a w' hrun

/-- What is assumed outside of the world may be used inside. -/
theorem assume {p : Prop} (h : p → Triple P x Q E) :
    Triple (fun w => P w ∧ p) x Q E :=
  fun w hw => h hw.2 w hw.1

/-- A loop over a list, with a condition that follows how far it has
come. -/
theorem each_prefix {f : α → Action Unit} (S : List α → World → Prop) :
    ∀ (done rest : List α),
      (∀ pre a post, done ++ rest = pre ++ a :: post →
        Triple (S pre) (f a) (fun _ => S (pre ++ [a])) E) →
      Triple (S done) (each f rest) (fun _ => S (done ++ rest)) E := by
  intro done rest
  induction rest generalizing done with
  | nil =>
      intro _
      rw [List.append_nil]
      exact pure fun _ hw => hw
  | cons a rest ih =>
      intro h
      refine bind (h done a rest rfl) fun _ => ?_
      have hsplit : done ++ a :: rest = (done ++ [a]) ++ rest := by simp
      rw [hsplit]
      exact ih (done ++ [a]) fun pre b post hpre =>
        h pre b post (hsplit.trans hpre)

/-- A loop whose body keeps a condition keeps it. -/
theorem each {f : α → Action Unit} {as : List α}
    (h : ∀ a ∈ as, Triple P (f a) (fun _ => P) E) :
    Triple P (Action.each f as) (fun _ => P) E :=
  each_prefix (fun _ => P) [] as fun pre a post hsplit =>
    h a (by rw [← List.nil_append as, hsplit]; simp)

/-- A loop that collects answers, each of which satisfies a condition
that the rest of the loop does not disturb. -/
theorem collect {f : α → Action β} {as : List α} {T : α → β → Prop}
    (h : ∀ a ∈ as, Triple P (f a) (fun b w => P w ∧ T a b) E) :
    Triple P (Action.collect f as)
      (fun bs w => P w ∧ List.Forall₂ T as bs) E := by
  induction as with
  | nil => exact pure fun _ hw => ⟨hw, .nil⟩
  | cons a rest ih =>
      refine bind (h a (List.mem_cons_self ..)) fun b => ?_
      refine bind (Q := fun bs w => (P w ∧ List.Forall₂ T rest bs) ∧ T a b) ?_
        fun bs => pure fun w hw => ⟨hw.1.1, .cons hw.2 hw.1.2⟩
      refine (assume fun hb => ?_)
      exact (ih fun c hc => h c (List.mem_cons_of_mem _ hc)).post
        fun _ _ hw => ⟨hw, hb⟩

end Triple

end Action

-- ==================================================== two runs together

/-- How the worlds of two runs are related. -/
structure SideBySide where
  /-- While both runs go on. -/
  along : World → World → Prop
  /-- Once both have failed. -/
  failed : World → World → Prop
  /-- The second run has gone its own way. -/
  away : World → Prop
  /-- A run may fail whatever the other one does. -/
  alone : Prop := False

/-- Both runs have answered the same, or failed in the same way, and
left related worlds. -/
def SideBySide.Meets (p : SideBySide) {α : Type} :
    Except Failure α × World → Except Failure α × World → Prop
  | (.ok a, v), (.ok b, w) => a = b ∧ p.along v w
  | (.error e, v), (.error f, w) => p.alone ∨ (e = f ∧ p.failed v w)
  | _, _ => p.alone

/-- Runs that may fail alone meet unless both answer. -/
theorem SideBySide.Meets.of_alone {p : SideBySide} {α : Type}
    {r r' : Except Failure α × World} (hp : p.alone)
    (h : ∀ a b, r.1 = .ok a → r'.1 ≠ .ok b) : p.Meets r r' := by
  rcases r with ⟨e | a, v⟩ <;> rcases r' with ⟨f | b, w⟩
  · exact Or.inl hp
  · exact hp
  · exact hp
  · exact absurd rfl (h a b rfl)

/-- A world beside itself: an invariant, and what failures leave of
it. -/
def SideBySide.solo (I E : World → Prop) : SideBySide :=
  { along := fun v w => v = w ∧ I w
    failed := fun v w => v = w ∧ E w
    away := fun _ => False }

/-- The relation under an assumption. A run that has gone its own way is
followed even where the assumption fails. -/
def SideBySide.given (p : SideBySide) (P : Prop) : SideBySide :=
  { p with along := fun v w => P ∧ p.along v w }

/-- One relation holds wherever another one does. -/
structure SideBySide.Weakens (p q : SideBySide) : Prop where
  along : ∀ v w, p.along v w → q.along v w
  failed : ∀ v w, p.failed v w → q.failed v w
  away : ∀ w, p.away w → q.away w
  alone : p.alone → q.alone

theorem SideBySide.Weakens.refl (p : SideBySide) : p.Weakens p :=
  ⟨fun _ _ h => h, fun _ _ h => h, fun _ h => h, id⟩

theorem SideBySide.Weakens.of_given (p : SideBySide) (P : Prop) :
    (p.given P).Weakens p :=
  ⟨fun _ _ h => h.2, fun _ _ h => h, fun _ h => h, id⟩

namespace Action

variable {α β : Type}

/-- Two runs of the action lead from one relation to another. -/
structure Leads (p q : SideBySide) (x : Action α) : Prop where
  gone : ∀ w, p.away w → q.away (x w).2
  run : ∀ v w, p.along v w → q.away (x w).2 ∨ q.Meets (x v) (x w)

namespace Leads

variable {p q r : SideBySide} {x : Action α}

theorem pre (h : Leads q r x) (hpq : p.Weakens q) : Leads p r x :=
  ⟨fun w hw => h.gone w (hpq.away w hw),
    fun v w hvw => h.run v w (hpq.along v w hvw)⟩

theorem post (h : Leads p q x) (hqr : q.Weakens r) : Leads p r x := by
  refine ⟨fun w hw => hqr.away _ (h.gone w hw), fun v w hvw => ?_⟩
  refine (h.run v w hvw).imp (hqr.away _) fun hm => ?_
  rcases hv : x v with ⟨e | a, v'⟩ <;> rcases hw : x w with ⟨f | b, w'⟩ <;>
    rw [hv, hw] at hm
  · exact hm.imp hqr.alone fun hm => ⟨hm.1, hqr.failed v' w' hm.2⟩
  · exact hqr.alone hm
  · exact hqr.alone hm
  · exact ⟨hm.1, hqr.along v' w' hm.2⟩

/-- One action after another, where something is known about the answers
of the first. -/
theorem bind_answer {f : α → Action β} {T : α → Prop} (hx : Leads p q x)
    (hT : ∀ v w a w', p.along v w → x w = (.ok a, w') → T a)
    (hf : ∀ a, Leads (q.given (T a)) r (f a)) (hqr : q.Weakens r) :
    Leads p r (x >>= f) := by
  constructor
  · intro w hw
    have hg := hx.gone w hw
    rcases h : x w with ⟨e | a, w'⟩ <;> rw [h] at hg
    · rw [bind_run_error h]
      exact hqr.away w' hg
    · rw [bind_run_ok h]
      exact (hf a).gone w' hg
  · intro v w hvw
    have hr := hx.run v w hvw
    rcases hv : x v with ⟨e | a, v'⟩ <;> rcases hw : x w with ⟨f' | b, w'⟩ <;>
      rw [hv, hw] at hr
    case error.error =>
      rw [bind_run_error hv, bind_run_error hw]
      exact hr.imp (hqr.away w') fun hm =>
        hm.imp hqr.alone fun hm => ⟨hm.1, hqr.failed v' w' hm.2⟩
    case error.ok =>
      rw [bind_run_error hv, bind_run_ok hw]
      exact hr.imp ((hf b).gone w') fun hm => .of_alone (hqr.alone hm) nofun
    case ok.error =>
      rw [bind_run_ok hv, bind_run_error hw]
      exact hr.imp (hqr.away w') fun hm => .of_alone (hqr.alone hm) nofun
    case ok.ok =>
      rw [bind_run_ok hv, bind_run_ok hw]
      rcases hr with hr | ⟨rfl, hr⟩
      · exact Or.inl ((hf b).gone w' hr)
      · exact (hf a).run v' w' ⟨hT v w a w' hvw hw, hr⟩

/-- Where both runs answer, and the second one has not gone its own way, they
answer the same. -/
theorem ok {v w v' w' : World} {a b : α} (h : Leads p q x) (hvw : p.along v w)
    (hv : x v = (.ok a, v')) (hw : x w = (.ok b, w')) (haway : ¬ q.away w') :
    a = b ∧ q.along v' w' := by
  have hrun := h.run v w hvw
  rw [hv, hw] at hrun
  exact hrun.resolve_left haway

/-- One action after another. -/
theorem bind {f : α → Action β} (hx : Leads p q x)
    (hf : ∀ a, Leads q r (f a)) (hqr : q.Weakens r) : Leads p r (x >>= f) :=
  hx.bind_answer (T := fun _ => True) (fun _ _ _ _ _ _ => trivial)
    (fun a => (hf a).pre (.of_given q True)) hqr

end Leads

/-- Two runs of the action stay related, unless the second one goes its
own way. -/
structure Keeps (p : SideBySide) (x : Action α) : Prop where
  gone : ∀ w, p.away w → p.away (x w).2
  run : ∀ v w, p.along v w → p.away (x w).2 ∨ p.Meets (x v) (x w)

/-- Runs that lead back to their relation stay related. -/
theorem Leads.keeps {p : SideBySide} {x : Action α} (h : Leads p p x) :
    Keeps p x :=
  ⟨h.gone, h.run⟩

namespace Keeps

variable {p : SideBySide} {x : Action α} {I E : World → Prop}

/-- Runs that stay related lead from their relation to itself. -/
theorem leads (h : Keeps p x) : Leads p p x :=
  ⟨h.gone, h.run⟩

/-- An action that keeps an invariant beside itself keeps it. -/
theorem triple (h : Keeps (.solo I E) x) : Triple I x (fun _ => I) E := by
  intro w hw
  have hm := (h.run w w ⟨rfl, hw⟩).resolve_left id
  rcases hx : x w with ⟨e | a, w'⟩
  · rw [hx] at hm
    exact (hm.resolve_left id).2.2
  · rw [hx] at hm
    exact hm.2.2

/-- An action that keeps an invariant keeps it beside itself. -/
theorem of_triple (h : Triple I x (fun _ => I) E) :
    Keeps (.solo I E) x := by
  refine ⟨fun _ => id, fun v w hvw => Or.inr ?_⟩
  obtain ⟨rfl, hv⟩ := hvw
  rcases hx : x v with ⟨e | a, w'⟩
  · exact Or.inr ⟨rfl, rfl, h.error hv hx⟩
  · exact ⟨rfl, rfl, h.ok hv hx⟩

/-- An action that keeps a relation keeps it under any assumption. -/
theorem given (P : Prop) (h : Keeps p x) : Keeps (p.given P) x := by
  refine ⟨h.gone, fun v w hvw => (h.run v w hvw.2).imp_right fun hm => ?_⟩
  rcases hv : x v with ⟨e | a, v'⟩ <;> rcases hw : x w with ⟨f | b, w'⟩ <;>
    rw [hv, hw] at hm
  · exact hm
  · exact hm
  · exact hm
  · exact ⟨hm.1, hvw.1, hm.2⟩

/-- An assumption that holds may be dropped. -/
theorem of_given {P : Prop} (hP : P) (h : Keeps (p.given P) x) :
    Keeps p x := by
  refine ⟨h.gone, fun v w hvw => (h.run v w ⟨hP, hvw⟩).imp_right fun hm => ?_⟩
  rcases hv : x v with ⟨e | a, v'⟩ <;> rcases hw : x w with ⟨f | b, w'⟩ <;>
    rw [hv, hw] at hm
  · exact hm
  · exact hm
  · exact hm
  · exact ⟨hm.1, hm.2.2⟩

/-- An assumption may be strengthened. -/
theorem given_mono {P Q : Prop} (hPQ : P → Q) (h : Keeps (p.given Q) x) :
    Keeps (p.given P) x := by
  refine ⟨h.gone, fun v w hvw => ?_⟩
  exact ((h.of_given (hPQ hvw.1)).given P).run v w hvw

/-- Answering keeps everything. -/
theorem pure {a : α} : Keeps p (Pure.pure a) :=
  ⟨fun _ => id, fun _ _ h => Or.inr ⟨rfl, h⟩⟩

/-- One action after another. -/
theorem bind {f : α → Action β} (hx : Keeps p x)
    (hf : ∀ a, Keeps p (f a)) : Keeps p (x >>= f) :=
  (hx.leads.bind (fun a => (hf a).leads) (.refl p)).keeps

/-- Reading what both worlds agree on. -/
theorem read {f : World → α} (h : ∀ v w, p.along v w → f v = f w) :
    Keeps p (Action.read f) :=
  ⟨fun _ => id, fun v w hvw => Or.inr ⟨h v w hvw, hvw⟩⟩

/-- One action after another, where something is known about the answers
of the first. -/
theorem bind_answer {f : α → Action β} {T : α → Prop} (hx : Keeps p x)
    (hT : ∀ v w a w', p.along v w → x w = (.ok a, w') → T a)
    (hf : ∀ a, Keeps (p.given (T a)) (f a)) : Keeps p (x >>= f) :=
  (hx.leads.bind_answer hT (fun a => (hf a).leads.post (.of_given p _))
    (.refl p)).keeps

/-- Reading what both worlds agree on, and going on with what is known
about it. -/
theorem read_bind {g : World → α} {f : α → Action β} {T : α → Prop}
    (h : ∀ v w, p.along v w → g v = g w) (hT : ∀ v w, p.along v w → T (g w))
    (hf : ∀ a, Keeps (p.given (T a)) (f a)) :
    Keeps p (Action.read g >>= f) :=
  bind_answer (read h)
    (fun v w a w' hvw hx => by cases hx; exact hT v w hvw) hf

/-- A change of both worlds. -/
theorem update {f : World → World} (hg : ∀ w, p.away w → p.away (f w))
    (h : ∀ v w, p.along v w → p.along (f v) (f w)) :
    Keeps p (Action.update f) :=
  ⟨hg, fun v w hvw => Or.inr ⟨rfl, h v w hvw⟩⟩

/-- Both runs stop. -/
theorem stop {f : Failure} (h : ∀ v w, p.along v w → p.failed v w) :
    Keeps p (Action.stop (α := α) f) :=
  ⟨fun _ => id, fun v w hvw => Or.inr (Or.inr ⟨rfl, h v w hvw⟩)⟩

/-- A loop over a list. -/
theorem each {f : α → Action Unit} {as : List α}
    (h : ∀ a ∈ as, Keeps p (f a)) : Keeps p (Action.each f as) := by
  induction as with
  | nil => exact pure
  | cons a rest ih =>
      exact bind (h a (List.mem_cons_self ..)) fun _ =>
        ih fun b hb => h b (List.mem_cons_of_mem _ hb)

/-- A loop that collects answers. -/
theorem collect {f : α → Action β} {as : List α}
    (h : ∀ a ∈ as, Keeps p (f a)) : Keeps p (Action.collect f as) := by
  induction as with
  | nil => exact pure
  | cons a rest ih =>
      exact bind (h a (List.mem_cons_self ..)) fun _ =>
        bind (ih fun b hb => h b (List.mem_cons_of_mem _ hb)) fun _ => pure

/-- A search through a list. -/
theorem firstSome {f : α → Action (Option β)} {as : List α}
    (h : ∀ a ∈ as, Keeps p (f a)) : Keeps p (Action.firstSome f as) := by
  induction as with
  | nil => exact pure
  | cons a rest ih =>
      refine bind (h a (List.mem_cons_self ..)) fun r => ?_
      cases r with
      | some b => exact pure
      | none => exact ih fun b hb => h b (List.mem_cons_of_mem _ hb)

end Keeps

end Action

end StagedResolve
