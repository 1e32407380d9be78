/-
Writing back: what becomes of the results of a session.

# What writing back does

A session writes a result to a class whose supertype marker is not set,
and sets the marker; and it marks members that the phase has nothing to
do for (`CompilationUnit.Passed`). Marking the members of a class counts
as one step, as in between an owner is marked and what it has inside is
not. A condition that survives these two, and all that leaves the markers
alone, survives writing back (`Tended`). Writing back cannot fail: it
writes under guards of the units it writes to, to declarations that are
there.

# What is there afterwards

Every result has then been dealt with: its class is final, or it is one
of another unit whose lock is blocked, and putting it off was counted
(`World.Kept`). So between two calls a session is at rest: it knows the
references of everything it has met, and every clause it has computed is
final or put off (`World.Rested`).
-/
import Mathlib.Data.List.Nodup
import StagedResolve.Proofs.Commits
import StagedResolve.Proofs.Rounds
import StagedResolve.Proofs.Waiting
import StagedResolve.Supertypes.Commit

namespace StagedResolve

open StagedResolve.Action World

-- ============================================================ single writes

/-- Entering a unit adds it and nothing else. -/
theorem mem_enterAscending {id a : UnitId} {l : List UnitId} :
    a ∈ enterAscending id l ↔ a = id ∨ a ∈ l := by
  induction l with
  | nil => simp [enterAscending]
  | cons next rest ih =>
      unfold enterAscending
      split
      · simp
      · split
        · next heq => simp [heq]
        · simp only [List.mem_cons, ih]
          tauto

/-- A list stays ascending when a unit is entered. -/
theorem pairwise_enterAscending (id : UnitId) {l : List UnitId}
    (h : l.Pairwise (· < ·)) : (enterAscending id l).Pairwise (· < ·) := by
  induction l with
  | nil => simp [enterAscending]
  | cons next rest ih =>
      obtain ⟨hnext, hrest⟩ := List.pairwise_cons.mp h
      unfold enterAscending
      split
      · next hlt =>
        refine List.pairwise_cons.mpr ⟨fun a ha => ?_, h⟩
        rcases List.mem_cons.mp ha with rfl | ha
        · exact hlt
        · exact Nat.lt_trans hlt (hnext a ha)
      · next hle =>
        split
        · exact h
        · next hne =>
          refine List.pairwise_cons.mpr ⟨fun a ha => ?_, ih hrest⟩
          rcases mem_enterAscending.mp ha with rfl | ha
          · refine Nat.lt_of_le_of_ne (Nat.le_of_not_lt hle) fun heq => hne ?_
            cases a
            cases next
            cases heq
            rfl
          · exact hnext a ha

/-- The units of some symbols. -/
theorem mem_unitsOf {l : List Symbol} {id : UnitId} :
    id ∈ unitsOf l ↔ ∃ c ∈ l, c.unit = id := by
  induction l with
  | nil => simp [unitsOf]
  | cons c rest ih =>
      rw [unitsOf, List.foldr_cons, mem_enterAscending, ← unitsOf, ih]
      simp [eq_comm]

/-- The units of some symbols ascend. -/
theorem pairwise_unitsOf (l : List Symbol) :
    (unitsOf l).Pairwise (· < ·) := by
  induction l with
  | nil => exact .nil
  | cons c rest ih => exact pairwise_enterAscending c.unit ih

/-- No unit is named twice. -/
theorem nodup_unitsOf (l : List Symbol) : (unitsOf l).Nodup := by
  refine (pairwise_unitsOf l).imp fun h heq => ?_
  subst heq
  exact Nat.lt_irrefl _ h

/-- Inserting under a key twice is inserting once. -/
theorem Table.put_put {κ ν : Type} [DecidableEq κ] (k : κ) (v v' : ν)
    (es : List (κ × ν)) : put k v' (put k v es) = put k v' es := by
  induction es with
  | nil => simp [put]
  | cons e rest ih =>
      obtain ⟨a, b⟩ := e
      by_cases h : a = k
      · simp [put, h]
      · simp [put, h, ih]

namespace World

/-- Setting a state twice is setting it once. -/
theorem setState_setState (w : World) (u : CompilationUnit) (d : DeclId)
    (s s' : DeclState) :
    (w.setState u d s).setState u d s' = w.setState u d s' := by
  simp only [setState, Table.insert, Table.put_put]

/-- The world in which the result of a class has been filled in. -/
def filled (w : World) (u : CompilationUnit) (d : DeclId) (r : Computed) :
    World :=
  w.setState u d { w.state u d with
    own := (w.own u d).raise .supertypes
    slots := r.fill (w.slots u d) }

/-- Filling a result in raises a marker. -/
theorem raised_filled (w : World) (u : CompilationUnit) (d : DeclId)
    (r : Computed) : (w.state u d).Raised .supertypes { w.state u d with
      own := (w.own u d).raise .supertypes
      slots := r.fill (w.slots u d) } :=
  ⟨⟨.supertypes, Phase.le_refl _, rfl⟩,
    ⟨.raw, Phase.raw_le _, (Phase.raise_raw _).symm⟩⟩

/-- It sets the marker of the class. -/
theorem supertypes_le_filled (w : World) (u : CompilationUnit) (d : DeclId)
    (r : Computed) : .supertypes ≤ (w.filled u d r).own u d := by
  rw [own, filled, state_setState_self]
  exact Phase.goal_le_raise _ _

/-- A result fits a declaration: it is of its kind and refers to genuine
classes, to no more than were written. -/
structure Fits (w : World) (x : Declaration) (r : Computed) : Prop where
  isAlias : r.isAlias = true ↔ x.kind = .typeAlias
  classes : ∀ b ∈ r.classes, w.registry.Genuine b
  width : r.classes.length < x.searchWeight

/-- A class with a result that was computed is one of the unit that it is
of. -/
theorem Remembers.exists_class {w : World} {u : CompilationUnit} {c : Symbol}
    {r : Computed} (hw : w.Remembers) (hu : w.Registered u)
    (hid : u.id = c.unit) (hc : w.session.result? c = some r)
    (hpending : r.committed = false) : ∃ x, u.decl? c.decl = some x ∧
      x.kind.isClassLike = true ∧ x.isEligible = true ∧ w.Fits x r := by
  have hj := hw.result c r hc
  obtain ⟨v, x, hv, hvid, hx, hk, he, halias⟩ := hj.pending hpending
  obtain rfl : v = u := hv.eq hu (hvid.trans hid.symm)
  refine ⟨x, hx, hk, he, halias, hj.classes, ?_⟩
  rcases hj.width with hzero | ⟨v', y, hv', hid', hy, hlt⟩
  · rw [hzero, Declaration.searchWeight]
    omega
  · obtain rfl : v' = v := hv'.eq hv (hid'.trans hvid.symm)
    obtain rfl : y = x := Option.some.inj (hy.symm.trans hx)
    exact hlt

/-- The clause of a class is final, or writing it was put off because the
lock of its unit, which is not the one at hand, is blocked. -/
def Kept (own : UnitId) (t : Thread) (c : Symbol) (w : World) : Prop :=
  w.Done c ∨ (c.unit ≠ own ∧ t.Blocked (.ofUnit c.unit) ∧
    0 < w.counters.deferred)

/-- That lasts. -/
theorem lasting_kept (own : UnitId) (t : Thread) (c : Symbol) :
    Lasting (Kept own t c) := by
  rintro v w h (hdone | ⟨hne, hblocked, hpos⟩)
  · exact Or.inl (lasting_done c v w h hdone)
  · exact Or.inr ⟨hne, hblocked, Nat.lt_of_lt_of_le hpos h.deferred⟩

/-- What is known of a class once its result has been dealt with: it lasts,
and it holds where the clause is final and where writing it is put off. -/
structure Deals (J : World → Prop) (own : UnitId) (t : Thread)
    (L : Symbol → World → Prop) : Prop where
  lasting : ∀ c, Lasting (L c)
  done : ∀ c w, w.Done c → L c w
  putOff : ∀ c w, J w → c.unit ≠ own → t.Blocked (.ofUnit c.unit) →
    L c { w with counters := w.counters.countDeferred }

/-- Less may hold while results are dealt with. -/
theorem Deals.mono {J J' : World → Prop} {own : UnitId} {t : Thread}
    {L : Symbol → World → Prop} (hL : Deals J own t L)
    (h : ∀ w, J' w → J w) : Deals J' own t L :=
  { hL with putOff := fun c w hw => hL.putOff c w (h w hw) }

/-- The clause of such a class is final, or was put off. -/
theorem deals_kept (J : World → Prop) (own : UnitId) (t : Thread) :
    Deals J own t (Kept own t) where
  lasting := lasting_kept own t
  done := fun _ _ => Or.inl
  putOff := fun _ _ _ hne hblocked => Or.inr ⟨hne, hblocked, Nat.succ_pos _⟩

end World

/-- Writing a result to a class and setting its marker fills the result
in. -/
theorem Action.fill_run {α : Type} {g : Guard} {u : CompilationUnit}
    {d : DeclId} (hg : g.lock = .ofUnit u.id) (hd : (u.decl? d).isSome)
    (r : Computed) (rest : Action α) (w : World) :
    (do writeSlots g u d r.fill; raiseOwn g u d .supertypes; rest : Action α)
      w = rest (w.filled u d r) := by
  have hslots : writeSlots g u d r.fill w = (.ok (), w.setState u d
      { w.state u d with slots := r.fill (w.slots u d) }) :=
    writeState_eq hg hd _ w
  have hraise : ∀ v, raiseOwn g u d .supertypes v = (.ok (), v.setState u d
      { v.state u d with own := (v.own u d).raise .supertypes }) :=
    writeState_eq hg hd _
  rw [bind_run_ok hslots, bind_run_ok (hraise _), World.own,
    state_setState_self, setState_setState]
  rfl

/-- A condition in the middle of a session: the thread holds what it held,
and the session remembers nothing wrong. -/
def World.Midway (J : World → Prop) (t : Thread) (Q : Session → Prop)
    (w : World) : Prop :=
  J w ∧ t.Alike w.thread ∧ w.Remembers ∧ Q w.session

/-- Looking up leaves it. -/
theorem Detached.midway {J : World → Prop} (hJ : Detached J) (t : Thread)
    (Q : Session → Prop) : Static (Midway J t Q) where
  coherent := fun w hw => hJ.coherent w hw.1
  classifier := fun w k ⟨hw, ht, hr, hs⟩ => ⟨hJ.classifier w k hw, ht,
    hr.later (later_classifier (hJ.coherent w hw) k) rfl, hs⟩
  counters := fun w c hc ⟨hw, ht, hr, hs⟩ => ⟨hJ.counters w c hc hw, ht,
    hr.later (.of_eq rfl rfl hc) rfl, hs⟩

-- ====================================================== marked in passing

namespace CompilationUnit

variable {u : CompilationUnit} {owner d : DeclId}

/-- A member, or something below one, that the supertype phase has nothing
to do for. -/
def Passed (u : CompilationUnit) (d : DeclId) : Prop :=
  ∃ owner m, m ∈ u.children owner ∧ u.isClassLike m = false ∧
    u.isLocal m = false ∧ d ∈ u.subtree m ∧ u.isLocal d = false ∧
    u.isEligible d = true

/-- It is there. -/
theorem Passed.isSome (h : u.Passed d) : (u.decl? d).isSome := by
  obtain ⟨-, -, -, -, -, -, -, he⟩ := h
  rw [isEligible, Option.any_eq_true] at he
  obtain ⟨x, hx, -⟩ := he
  rw [hx]
  rfl

/-- It is not the file, which is no member of anything. -/
theorem Passed.ne_root (hu : u.WellFormed) (h : u.Passed d) : d ≠ .root := by
  rintro rfl
  obtain ⟨owner, m, hm, -, -, hsub, -, -⟩ := h
  have hlt := hu.earlier m owner ((hu.child_iff owner m).mp hm)
  rcases hu.mem_subtree hsub with rfl | hanc
  · exact absurd hlt (Nat.not_lt_zero _)
  · exact absurd (hu.index_lt_of_mem_ancestors hanc) (Nat.not_lt_zero _)

/-- What a session marks of a class that it reached, as what a walk would
have come by. -/
def passedBy (u : CompilationUnit) (owner : DeclId) : Visits where
  headers := []
  members := ((u.children owner).filter fun m =>
    !u.isClassLike m && !u.isLocal m).flatMap fun m =>
      (u.subtree m).filter fun d => !u.isLocal d && u.isEligible d
  targets := 0
  work := []

/-- Where such a declaration is. -/
theorem mem_passedBy_iff : d ∈ (u.passedBy owner).members ↔
    (∃ m ∈ u.children owner, u.isClassLike m = false ∧ u.isLocal m = false ∧
      d ∈ u.subtree m) ∧ u.isLocal d = false ∧ u.isEligible d = true := by
  simp only [passedBy, List.mem_flatMap, List.mem_filter, Bool.and_eq_true,
    Bool.not_eq_true']
  constructor
  · rintro ⟨m, ⟨hm, hclass, hlocal⟩, hsub, hd⟩
    exact ⟨⟨m, hm, hclass, hlocal, hsub⟩, hd⟩
  · rintro ⟨⟨m, hm, hclass, hlocal, hsub⟩, hd⟩
    exact ⟨m, ⟨hm, hclass, hlocal⟩, hsub, hd⟩

/-- The phase has nothing to do for any of them. -/
theorem passed_of_mem (h : d ∈ (u.passedBy owner).members) : u.Passed d := by
  obtain ⟨⟨m, hm, hclass, hlocal, hsub⟩, hd⟩ := mem_passedBy_iff.mp h
  exact ⟨owner, m, hm, hclass, hlocal, hsub, hd⟩

end CompilationUnit

/-- Marking them is committing a walk that came by them. -/
theorem Action.markMembers_eq (g : Guard) (u : CompilationUnit)
    (owner : DeclId) :
    markMembers g u owner = (u.passedBy owner).commit g u .supertypes := rfl

/-- A condition that survives single declarations being marked in passing
survives all that a session marks of a class. -/
theorem members_triple {J : World → Prop} (hJ : ∀ w u d s, J w →
      w.Registered u → u.Passed d → (w.state u d).Raised .supertypes s →
      s.slots = w.slots u d → J (w.setState u d s)) (g : Guard)
    (u : CompilationUnit) (owner : DeclId) (hg : g.lock = .ofUnit u.id) :
    Triple (fun w => J w ∧ w.Registered u) (markMembers g u owner)
      (fun _ w => J w ∧ w.Registered u) fun _ => False := by
  refine .each fun d hd => ?_
  have hpassed : u.Passed d := CompilationUnit.passed_of_mem hd
  have hwrite : ∀ f : DeclState → DeclState,
      (∀ st, st.Raised .supertypes (f st) ∧ (f st).slots = st.slots) →
      Triple (fun w => J w ∧ w.Registered u) (writeState g u d f)
        (fun _ w => J w ∧ w.Registered u) fun _ => False := by
    rintro f hf w ⟨hw, hu⟩
    rw [writeState_eq hg hpassed.isSome]
    exact ⟨hJ w u d _ hw hu hpassed (hf _).1 (hf _).2, hu⟩
  exact .bind (hwrite _ fun st => ⟨.of_own st (Phase.le_refl _), rfl⟩)
    fun _ => hwrite _ fun st => ⟨.of_below st (Phase.le_refl _), rfl⟩

/-- Together with another condition that does. -/
theorem members_triple_and {J R : World → Prop} {g : Guard}
    {u : CompilationUnit} {owner : DeclId}
    (hJ : Triple (fun w => J w ∧ w.Registered u) (markMembers g u owner)
      (fun _ w => J w ∧ w.Registered u) fun _ => False)
    (hR : ∀ w u d s, R w → w.Registered u → u.Passed d →
      (w.state u d).Raised .supertypes s → s.slots = w.slots u d →
      R (w.setState u d s)) (hg : g.lock = .ofUnit u.id) :
    Triple (fun w => (J w ∧ R w) ∧ w.Registered u) (markMembers g u owner)
      (fun _ w => (J w ∧ R w) ∧ w.Registered u) fun _ => False :=
  ((hJ.pre fun _ hw => ⟨hw.1.1, hw.2⟩).both
    ((members_triple hR g u owner hg).pre fun _ hw => ⟨hw.1.2, hw.2⟩)).conseq
      (fun _ hw => hw) (fun _ _ hw => ⟨⟨hw.1.1, hw.2.1⟩, hw.1.2⟩)
      fun _ hw => hw.1

/-- A condition that survives results being written back. -/
structure Tended (J : World → Prop) (X : Symbol → Computed → Prop) :
    Prop extends Detached J where
  referring : ∀ w, J w → w.Referring
  fill : ∀ w u x c r, J w → w.Registered u → u.id = c.unit →
    u.decl? c.decl = some x → x.kind.isClassLike = true →
    x.isEligible = true → X c r → w.Fits x r →
    ¬ .supertypes ≤ w.own u c.decl → J (w.filled u c.decl r)
  members : ∀ g u owner, g.lock = .ofUnit u.id →
    Triple (fun w => J w ∧ w.Registered u) (markMembers g u owner)
      (fun _ w => J w ∧ w.Registered u) fun _ => False

namespace Tended

variable {J : World → Prop} {X : Symbol → Computed → Prop}
  {L : Symbol → World → Prop} {t : Thread} {s : Session} {g : Guard}
  {u : CompilationUnit}

/-- What lasts may be added. -/
theorem and_lasting (hJ : Tended J X) {R : World → Prop} (hR : Lasting R) :
    Tended (fun w => J w ∧ R w) X :=
  { hJ.toDetached.and_lasting hR with
    referring := fun w hw => hJ.referring w hw.1
    fill := fun w u x c r hw hu hid hx hk he hX hfits hlt =>
      ⟨hJ.fill w u x c r hw.1 hu hid hx hk he hX hfits hlt,
        hR w _ (later_setState hu (raised_filled w u c.decl r)) hw.2⟩
    members := fun g u owner hg => members_triple_and (hJ.members g u owner hg)
      (fun w _ _ _ hw hu _ hs _ => hR w _ (later_setState hu hs) hw) hg }

-- ========================================================== one class

/-- A condition while results of one unit are written back: the session
does not change, and the thread holds what it held. -/
abbrev Working (J : World → Prop) (t : Thread) (s : Session) :
    World → Prop :=
  Midway J t (· = s)

/-- Marking what the phase has nothing to do for. -/
theorem markMembers_triple (hJ : Tended J X) (hg : g.lock = .ofUnit u.id)
    {R : World → Prop} (hR : Lasting R) (owner : DeclId) :
    Triple (fun w => Working J t s w ∧ w.Registered u ∧ R w)
      (markMembers g u owner)
      (fun _ w => Working J t s w ∧ w.Registered u ∧ R w)
      fun _ => False := by
  have hrest : ∀ (w : World) u d s', (t.Alike w.thread ∧ w.Remembers ∧
      w.session = s ∧ R w) → w.Registered u → u.Passed d →
      (w.state u d).Raised .supertypes s' → s'.slots = w.slots u d →
      t.Alike w.thread ∧ (w.setState u d s').Remembers ∧ w.session = s ∧
        R (w.setState u d s') := by
    rintro w u d s' ⟨ht, hr, hs, hRw⟩ hu - hraised -
    have hlater := later_setState (d := d) hu hraised
    exact ⟨ht, hr.later hlater rfl, hs, hR w _ hlater hRw⟩
  refine (members_triple_and (hJ.members g u owner hg) hrest hg).conseq ?_ ?_
    fun _ hw => hw
  · rintro w ⟨⟨hw, ht, hr, hs⟩, hu, hRw⟩
    exact ⟨⟨hw, ht, hr, hs, hRw⟩, hu⟩
  · rintro _ w ⟨⟨hw, ht, hr, hs, hRw⟩, hu⟩
    exact ⟨⟨hw, ht, hr, hs⟩, hu, hRw⟩

/-- Writing the result of one class back sets its marker. -/
theorem applyTo_triple (hJ : Tended J X) (hg : g.lock = .ofUnit u.id)
    {c : Symbol} {r : Computed} (hid : u.id = c.unit)
    (hc : s.result? c = some r) (hpending : r.committed = false)
    (hX : X c r) :
    Triple (fun w => Working J t s w ∧ w.Registered u) (applyTo g u c)
      (fun _ w => (Working J t s w ∧ w.Registered u) ∧ w.Done c)
      fun _ => False := by
  have hdone : ∀ w, Working J t s w ∧ w.Registered u →
      .supertypes ≤ w.own u c.decl → w.Done c := by
    rintro w ⟨⟨-, -, hr, rfl⟩, hu⟩ hle
    exact .of_unit (hr.known c (Session.hasMet_iff.mpr (Or.inr ⟨r, hc⟩))) hu
      hid fun _ _ _ _ => hle
  refine .read_bind fun found => ?_
  cases found with
  | none =>
      rintro w ⟨⟨⟨-, -, -, rfl⟩, -⟩, hnone⟩
      exact absurd (hc.symm.trans hnone) nofun
  | some q =>
      refine .read_bind fun own => ?_
      split
      · next hle =>
        exact .pure fun w hw => ⟨hw.1.1, hdone w hw.1.1 (hw.2 ▸ hle)⟩
      · next hle =>
        rintro w ⟨⟨⟨⟨hw, ht, hr, rfl⟩, hu⟩, hq⟩, hown⟩
        obtain rfl : r = q := Option.some.inj (hc.symm.trans hq)
        obtain ⟨x, hx, hk, he, hfits⟩ := hr.exists_class hu hid hc hpending
        have hlt : ¬ .supertypes ≤ w.own u c.decl := by
          rw [hown]
          exact hle
        have hfill : J (w.filled u c.decl r) := hJ.fill w u x c r hw hu hid hx
          hk he hX hfits hlt
        have hremembers : (w.filled u c.decl r).Remembers :=
          hr.later (later_setState hu (raised_filled w u c.decl r)) rfl
        have hnow : (w.filled u c.decl r).Done c :=
          hdone _ ⟨⟨hfill, ht, hremembers, rfl⟩, hu⟩ (supertypes_le_filled ..)
        rw [fill_run hg (by rw [hx]; rfl)]
        refine (Triple.read_then (P := fun v => Working J t w.session v ∧
          v.Registered u ∧ v.Done c) fun isSeed => ?_) _
            ⟨⟨hfill, ht, hremembers, rfl⟩, hu, hnow⟩
        split
        · exact (hJ.markMembers_triple hg (lasting_done c) _).post
            fun _ w hw => ⟨⟨hw.1, hw.2.1⟩, hw.2.2⟩
        · exact .pure fun w hw => ⟨⟨hw.1, hw.2.1⟩, hw.2.2⟩

-- ============================================================ one unit

/-- Writing the results of several classes of a unit back. -/
theorem each_applyTo_triple (hJ : Tended J X) (hg : g.lock = .ofUnit u.id)
    {classes : List Symbol} (h : ∀ c ∈ classes, c.unit = u.id ∧
      ∃ r, s.result? c = some r ∧ r.committed = false ∧ X c r) :
    Triple (fun w => Working J t s w ∧ w.Registered u)
      (each (applyTo g u) classes)
      (fun _ w => (Working J t s w ∧ w.Registered u) ∧
        ∀ c ∈ classes, w.Done c) fun _ => False := by
  induction classes generalizing J with
  | nil => exact .pure fun w hw => ⟨hw, nofun⟩
  | cons c rest ih =>
      obtain ⟨hid, r, hr, hpending, hX⟩ := h c (List.mem_cons_self ..)
      refine .bind (hJ.applyTo_triple hg hid.symm hr hpending hX) fun _ => ?_
      refine (ih (hJ.and_lasting (lasting_done c)) fun b hb =>
        h b (List.mem_cons_of_mem _ hb)).conseq (fun w hw => ?_)
        (fun _ w hw => ?_) fun _ hw => hw
      · obtain ⟨⟨⟨hw, ht, hrem, hs⟩, hu⟩, hc⟩ := hw
        exact ⟨⟨⟨hw, hc⟩, ht, hrem, hs⟩, hu⟩
      · obtain ⟨⟨⟨⟨hw, hc⟩, ht, hrem, hs⟩, hu⟩, hrest⟩ := hw
        refine ⟨⟨⟨hw, ht, hrem, hs⟩, hu⟩, fun b hb => ?_⟩
        rcases List.mem_cons.mp hb with rfl | hb
        · exact hc
        · exact hrest b hb

/-- What is done under a lock that is taken in order leaves the thread as
it was; without the lock something else is done. -/
theorem holding_triple {P Q : World → Prop} {id : UnitId}
    {body : Guard → Action Unit} {other : Action Unit}
    (hP : ∀ w t, P w → P { w with thread := t })
    (hQ : ∀ w t, Q w → Q { w with thread := t })
    (hbody : ∀ (g : Guard) (t' : Thread), g.lock = .ofUnit id →
      ¬ t.Blocked (.ofUnit id) →
      Triple (fun w => P w ∧ t'.Alike w.thread) (body g)
        (fun _ w => Q w ∧ t'.Alike w.thread) fun _ => False)
    (hother : t.Blocked (.ofUnit id) →
      Triple (fun w => P w ∧ t.Alike w.thread) other
        (fun _ w => Q w ∧ t.Alike w.thread) fun _ => False) :
    Triple (fun w => P w ∧ t.Alike w.thread) (do
        match ← lockUnitOrdered id with
        | some g => holding g (body g)
        | none => other)
      (fun _ w => Q w ∧ t.Alike w.thread) fun _ => False := by
  rintro w ⟨hw, ht⟩
  rw [bind_run_ok (lockUnitOrdered_run id w)]
  cases hg : (w.thread.lockOrdered (.ofUnit id)).1 with
  | none =>
      obtain ⟨hblocked, hsame⟩ := Thread.blocked_of_lockOrdered hg
      rw [hsame]
      exact hother (ht.blocked_iff.mpr hblocked) w ⟨hw, ht⟩
  | some g =>
      have hfree : ¬ t.Blocked (.ofUnit id) := fun hblocked => by
        rw [(ht.blocked_iff.mp hblocked).lockOrdered] at hg
        cases hg
      exact (hbody g _ (Thread.lock_lockOrdered hg) hfree).holding
        (fun _ v hv => ⟨hQ v _ hv.1, ht.trans (.release hg hv.2)⟩)
        (fun _ hv => hv) _ ⟨hP w _ hw, .refl _⟩

/-- Writing the results of one unit back deals with all of them. -/
theorem applyUnit_triple {ctx : Context}
    (hJ : Tended J fun c r => X c r ∧ t.Free ctx.unit.id c.unit)
    (hL : Deals J ctx.unit.id t L) (hreg : ∀ w, J w → w.Registered ctx.unit)
    (hguard : ctx.guard.lock = .ofUnit ctx.unit.id)
    {f : Symbol → Computed → Computed} {id : UnitId} {classes : List Symbol}
    (hne : classes ≠ []) (h : ∀ c ∈ classes, c.unit = id ∧ ∃ r,
      s.result? c = some r ∧ f c r = r ∧ r.committed = false ∧ X c r) :
    Triple (Midway J t (s.Revises f)) (applyUnit ctx id classes)
      (fun _ w => Midway J t (s.Revises f) w ∧ ∀ c ∈ classes, L c w)
      fun _ => False := by
  -- whatever session there is, the results are the same
  have hresults : ∀ {v : Session}, s.Revises f v → ∀ c ∈ classes,
      c.unit = id ∧ ∃ r, v.result? c = some r ∧ r.committed = false ∧
        X c r := by
    intro v hv c hc
    obtain ⟨hid, r, hr, hf, hpending, hX⟩ := h c hc
    refine ⟨hid, r, ?_, hpending, hX⟩
    rw [hv.result, hr, Option.map_some, hf]
  obtain ⟨c₀, hc₀⟩ := List.exists_mem_of_ne_nil classes hne
  have hid₀ : c₀.unit = id := (h c₀ hc₀).1
  unfold applyUnit
  split
  · next hown =>
    rintro w ⟨hw, ht, hr, hs⟩
    refine ((hJ.each_applyTo_triple (t := t) (s := w.session) hguard
      fun c hc => ?_).post fun _ v hv => ?_) w ⟨⟨hw, ht, hr, rfl⟩, hreg w hw⟩
    · obtain ⟨hid, r, hr, hpending, hX⟩ := hresults hs c hc
      exact ⟨hid.trans hown, r, hr, hpending, hX, Or.inl (hid.trans hown)⟩
    · obtain ⟨⟨⟨hv, ht', hr', hs'⟩, -⟩, hdone⟩ := hv
      exact ⟨⟨hv, ht', hr', by rw [hs']; exact hs⟩,
        fun c hc => hL.done c v (hdone c hc)⟩
  · next hown =>
    have hunit := sessionUnit?_advances (E := fun _ => False)
      (hJ.toDetached.midway t (s.Revises f)) (fun w hw => hJ.referring w hw.1)
      (fun w id table hw ht => ⟨hJ.session w _ hw.1, hw.2.1,
        hw.2.2.1.enterImports ht, hw.2.2.2.order, hw.2.2.2.expanded,
        hw.2.2.2.seeds, hw.2.2.2.underWay, hw.2.2.2.result⟩)
      (c := c₀) fun w hw => ?_
    · rw [← hid₀]
      refine .bind hunit.triple fun found => ?_
      cases found with
      | none =>
          -- a class to be written back belongs to a unit that is there
          rintro w ⟨⟨-, -, hr, hs⟩, hgone, -⟩
          obtain ⟨-, r, hr₀, hpending, -⟩ := hresults hs c₀ hc₀
          obtain ⟨v, x, hv, hvid, -⟩ := (hr.result c₀ r hr₀).pending hpending
          exact ((hgone rfl).absent v hv hvid).elim
      | some u =>
          refine Triple.conseq (P := fun w => (J w ∧ w.Remembers ∧
            s.Revises f w.session ∧ w.Registered u ∧ u.id = c₀.unit) ∧
              t.Alike w.thread)
            (Q := fun _ w => (J w ∧ w.Remembers ∧ s.Revises f w.session ∧
              ∀ c ∈ classes, L c w) ∧ t.Alike w.thread)
            (E := fun _ => False) ?_ ?_ ?_ fun _ hw => hw
          · refine holding_triple ?_ ?_ (fun g t' hg hfree => ?_)
              fun hblocked => ?_
            · exact fun w t hw => ⟨hJ.thread w t hw.1, hw.2.1.later
                (.of_eq rfl rfl (Nat.le_refl _)) rfl, hw.2.2⟩
            · exact fun w t hw => ⟨hJ.thread w t hw.1, hw.2.1.later
                (.of_eq rfl rfl (Nat.le_refl _)) rfl, hw.2.2.1,
                fun c hc => hL.lasting c w _
                  (.of_eq rfl rfl (Nat.le_refl _)) (hw.2.2.2 c hc)⟩
            · rintro w ⟨⟨hw, hr, hs, hu, huid⟩, ht⟩
              refine ((hJ.each_applyTo_triple (t := t') (s := w.session)
                (by rw [hg, huid]) fun c hc => ?_).post fun _ v hv => ?_) w
                  ⟨⟨hw, ht, hr, rfl⟩, hu⟩
              · obtain ⟨hid, r, hr, hpending, hX⟩ := hresults hs c hc
                have hid := hid.trans hid₀.symm
                refine ⟨hid.trans huid.symm, r, hr, hpending, hX, Or.inr ?_⟩
                rw [hid]
                exact hfree
              · obtain ⟨⟨⟨hv, ht', hr', hs'⟩, -⟩, hdone⟩ := hv
                exact ⟨⟨hv, hr', by rw [hs']; exact hs,
                  fun c hc => hL.done c v (hdone c hc)⟩, ht'⟩
            · refine .update ?_
              rintro w ⟨⟨hw, hr, hs, hu, huid⟩, ht⟩
              refine ⟨⟨hJ.counters w _ (Nat.le_succ _) hw, hr.later
                (.of_eq rfl rfl (Nat.le_succ _)) rfl, hs, fun c hc => ?_⟩, ht⟩
              have hid := ((h c hc).1).trans hid₀.symm
              refine hL.putOff c w hw ?_ ?_
              · rw [hid, hid₀]
                exact hown
              · rw [hid]
                exact hblocked
          · rintro w ⟨⟨hw, ht, hr, hs⟩, -, hu⟩
            exact ⟨⟨hw, hr, hs, (hu u rfl).1, (hu u rfl).2⟩, ht⟩
          · rintro _ w ⟨⟨hw, hr, hs, hkept⟩, ht⟩
            exact ⟨⟨hw, ht, hr, hs⟩, hkept⟩
    · obtain ⟨-, r, hr₀, -⟩ := hresults hw.2.2.2 c₀ hc₀
      exact hw.2.2.1.known c₀ (Session.hasMet_iff.mpr (Or.inr ⟨r, hr₀⟩))

-- ============================================================= all units

/-- What has become of a result once those of some units have been dealt
with. -/
def settle (done : List UnitId) (c : Symbol) (r : Computed) : Computed :=
  if r.isPending && done.contains c.unit then { r with applied := true }
  else r

/-- What is left to do once those of some units have been dealt with. -/
def Settled (L : Symbol → World → Prop) (s : Session) (done : List UnitId)
    (w : World) : Prop :=
  ∀ c r, s.result? c = some r → r.isPending = true → c.unit ∈ done → L c w

/-- It lasts. -/
theorem lasting_settled (hL : ∀ c, Lasting (L c)) (done : List UnitId) :
    Lasting (Settled L s done) :=
  .all fun c => .all fun _ => .all fun _ => .all fun _ => .all fun _ => hL c

/-- A result that has been dealt with is pending no more. -/
theorem settle_settle {done : List UnitId} {id : UnitId} (c : Symbol)
    (r : Computed) :
    (if r.isPending = true ∧ c.unit = id then
      { settle done c r with applied := true } else settle done c r) =
      settle (done ++ [id]) c r := by
  unfold settle
  by_cases hp : r.isPending = true <;> by_cases hid : c.unit = id <;>
    by_cases hd : c.unit ∈ done <;> simp [hp, hid, hd]
  all_goals
    subst hid
    simp [hd]

/-- The classes whose results are to be written back. -/
theorem mem_pending_iff {w : World} (hr : w.Remembers) {c : Symbol} :
    c ∈ w.session.pending ↔
      ∃ r, w.session.result? c = some r ∧ r.isPending = true := by
  unfold Session.pending
  rw [List.mem_filter, Option.any_eq_true]
  refine ⟨And.right, fun h => ⟨?_, h⟩⟩
  obtain ⟨r, hc, -⟩ := h
  exact (hr.listed c).mpr (Session.hasMet_iff.mpr (Or.inr ⟨r, hc⟩))

/-- Writing all results back deals with all of them. -/
theorem applyResults_triple {ctx : Context}
    (hJ : Tended J fun c r => X c r ∧ t.Free ctx.unit.id c.unit)
    (hL : Deals J ctx.unit.id t L) (hreg : ∀ w, J w → w.Registered ctx.unit)
    (hguard : ctx.guard.lock = .ofUnit ctx.unit.id)
    (hX : ∀ c r, s.result? c = some r → r.isPending = true → X c r) :
    Triple (Working J t s) (applyResults ctx)
      (fun _ w => ∃ done, Midway J t (s.Revises (settle done)) w ∧
        Settled L s done w ∧
        ∀ c r, s.result? c = some r → r.isPending = true → c.unit ∈ done)
      fun _ => False := by
  rintro w hw
  obtain ⟨-, -, hremembers, hs⟩ := id hw
  have hpending : ∀ c, c ∈ s.pending ↔
      ∃ r, s.result? c = some r ∧ r.isPending = true := by
    intro c
    rw [← hs]
    exact mem_pending_iff hremembers
  have hnodup : s.pending.Nodup := by
    rw [← hs]
    exact hremembers.nodup.filter _
  -- the classes of one unit
  have hclasses : ∀ id c, c ∈ s.pending.filter (fun c => c.unit == id) ↔
      (∃ r, s.result? c = some r ∧ r.isPending = true) ∧ c.unit = id := by
    intro id c
    rw [List.mem_filter, hpending, beq_iff_eq]
  have hread : session Session.pending w = (.ok s.pending, w) := by
    rw [← hs]
    rfl
  unfold applyResults
  rw [bind_run_ok hread]
  refine ((Triple.each_prefix (fun done w =>
    Midway J t (s.Revises (settle done)) w ∧
      Settled L s done w) [] (unitsOf s.pending) ?_).conseq
      (fun _ hw => hw) (fun _ v hv => ⟨_, hv.1, hv.2, fun c r hr hp =>
        mem_unitsOf.mpr ⟨c, (hpending c).mpr ⟨r, hr, hp⟩, rfl⟩⟩)
      fun _ hv => hv) w ?_
  case refine_2 =>
    obtain ⟨hJw, ht, hr, -⟩ := hw
    refine ⟨⟨hJw, ht, hr, ?_⟩, fun c r _ _ hmem => by cases hmem⟩
    rw [hs]
    refine ⟨rfl, rfl, rfl, fun _ => Iff.rfl, fun c => ?_⟩
    have hnone : settle [] c = id := by
      funext r
      simp [settle]
    rw [hnone, Option.map_id]
    rfl
  case refine_1 =>
    intro pre id post hsplit
    have hsplit : unitsOf s.pending = pre ++ id :: post := by simpa using hsplit
    have hnew : id ∉ pre := by
      have := nodup_unitsOf s.pending
      rw [hsplit, List.nodup_append] at this
      exact fun hid => this.2.2 id hid id (List.mem_cons_self ..) rfl
    have hne : s.pending.filter (fun c => c.unit == id) ≠ [] := by
      have hid : id ∈ unitsOf s.pending := by rw [hsplit]; simp
      obtain ⟨c, hc, hcid⟩ := mem_unitsOf.mp hid
      exact List.ne_nil_of_mem ((hclasses id c).mpr ⟨(hpending c).mp hc, hcid⟩)
    have hresults : ∀ c ∈ s.pending.filter (fun c => c.unit == id),
        c.unit = id ∧ ∃ r, s.result? c = some r ∧ settle pre c r = r ∧
          r.committed = false ∧ X c r := by
      intro c hc
      obtain ⟨⟨r, hr, hp⟩, hid⟩ := (hclasses id c).mp hc
      have hcommitted := Computed.not_committed hp
      refine ⟨hid, r, hr, ?_, hcommitted, hX c r hr hp⟩
      unfold settle
      rw [if_neg]
      simp [hid, hnew]
    have hunit := (hJ.and_lasting (lasting_settled (s := s) hL.lasting
      pre)).applyUnit_triple (t := t) (hL.mono fun _ hw => hw.1)
      (fun w hw => hreg w hw.1) hguard hne hresults
    · refine .bind (hunit.pre ?_) fun _ => .update ?_
      · rintro v ⟨⟨hv, ht, hr, hrev⟩, hsettled⟩
        exact ⟨⟨hv, hsettled⟩, ht, hr, hrev⟩
      · rintro v ⟨⟨⟨hv, hsettled⟩, ht, hr, hrev⟩, hkept⟩
        have hnext := Session.modifyEach_revises
          (fun _ r => { r with applied := true })
          (hnodup.filter fun c => c.unit == id) v.session
        have hlater : ∀ s', v.Onward { v with session := s' } :=
          fun _ => .of_eq rfl rfl (Nat.le_refl _)
        refine ⟨⟨hJ.session v _ hv, ht, hr.revises
          (Session.faithful_applied.onSome _) hnext
          (Session.imports_modifyEach _ _ _), ?_⟩, ?_⟩
        · refine (hrev.trans hnext).congr fun c r hc => ?_
          rw [← settle_settle]
          have hiff : c ∈ s.pending.filter (fun c => c.unit == id) ↔
              r.isPending = true ∧ c.unit = id := by
            rw [hclasses, hc]
            simp
          simp only [hiff]
        · intro c r hc hp hmem
          rcases List.mem_append.mp hmem with hmem | hmem
          · exact hL.lasting c v _ (hlater _) (hsettled c r hc hp hmem)
          · refine hL.lasting c v _ (hlater _) (hkept c ?_)
            exact (hclasses id c).mpr ⟨⟨r, hc, hp⟩, List.mem_singleton.mp hmem⟩

end Tended

-- ====================================================== whole sessions

/-- Between sessions the thread holds what it held. -/
theorem Detached.alike {I : World → Prop} (hI : Detached I) (t : Thread) :
    Unaware fun w => I w ∧ t.Alike w.thread where
  coherent := fun v hv => hI.coherent v hv.1
  classifier := fun v k hv => ⟨hI.classifier v k hv.1, hv.2⟩
  counters := fun v c hc hv => ⟨hI.counters v c hc hv.1, hv.2⟩
  session := fun v s hv => ⟨hI.session v s hv.1, hv.2⟩

/-- Hooks do not change that. -/
theorem Idle.alike {I : World → Prop} (hI : Idle I) (t : Thread) :
    Calm fun w => I w ∧ t.Alike w.thread :=
  { (hI.toDetached.alike t).toStatic with
    touches := fun v v' hv h => ⟨hI.touches v v' hv.1 h,
      hv.2.trans (.of_eq h.mutexes h.held)⟩
    slots := fun v u d s hv hu hd hs =>
      ⟨hI.slots v u d s hv.1 hu hd hs, hv.2⟩ }

namespace World

variable {own : UnitId} {t : Thread}

/-- A session between two calls. -/
structure Rested (own : UnitId) (t : Thread) (w : World) : Prop where
  alike : t.Alike w.thread
  remembers : w.Remembers
  followed : w.session.Followed []
  kept : ∀ c r, w.session.result? c = some r → r.committed = false →
    r.applied = true ∧ Kept own t c w

/-- A session that has computed nothing is at rest. -/
theorem Rested.start {w : World} (ht : t.Alike w.thread) :
    Rested own t { w with session := .start } :=
  ⟨ht, .start w, .start, nofun⟩

/-- A session stays at rest while it is left alone. -/
theorem Rested.later {v w : World} (hv : Rested own t v) (h : v.Onward w)
    (ht : t.Alike w.thread) (hs : w.session = v.session) :
    Rested own t w := by
  refine ⟨ht, hv.remembers.later h hs, by rw [hs]; exact hv.followed, ?_⟩
  rw [hs]
  exact fun c r hr hc => ⟨(hv.kept c r hr hc).1,
    lasting_kept own t c v w h (hv.kept c r hr hc).2⟩

/-- Looking up leaves a session at rest. -/
theorem static_rested {I : World → Prop} (hI : Detached I) :
    Static fun w => I w ∧ Rested own t w where
  coherent := fun w hw => hI.coherent w hw.1
  classifier := fun w k ⟨hw, hr⟩ => ⟨hI.classifier w k hw,
    hr.later (later_classifier (hI.coherent w hw) k) hr.alike rfl⟩
  counters := fun w c hc ⟨hw, hr⟩ => ⟨hI.counters w c hc hw,
    hr.later (.of_eq rfl rfl hc) hr.alike rfl⟩

/-- So do hooks, and whatever is written that is no clause. -/
theorem calm_rested {I : World → Prop} (hI : Idle I) :
    Calm fun w => I w ∧ Rested own t w :=
  { static_rested hI.toDetached with
    touches := fun v w ⟨hv, hr⟩ h => ⟨hI.touches v w hv h, hr.later h.later
      (hr.alike.trans (.of_eq h.mutexes h.held)) h.session⟩
    slots := fun w u d slots ⟨hw, hr⟩ hu hd hc =>
      ⟨hI.slots w u d slots hw hu hd hc,
        hr.later (later_setState hu (.of_slots .raw _ slots)) hr.alike rfl⟩ }

/-- All rounds of a session are over. Its results are still to be written
back, apart from those of earlier calls. -/
structure Closed (own : UnitId) (t : Thread) (w : World) : Prop where
  remembers : w.Remembers
  followed : w.session.Followed []
  kept : ∀ c r, w.session.result? c = some r → r.committed = false →
    r.applied = true → Kept own t c w

end World

/-- A condition that survives whole sessions: while results are written
back some condition holds from which it follows when all results have
been dealt with. -/
structure WritesBack (I : World → Prop) (own : UnitId) (t : Thread) : Prop
    extends Detached I where
  referring : ∀ w, I w → w.Referring
  write : ∀ w, I w → w.Closed own t → ∃ J, ∃ X : Symbol → Computed → Prop,
    Tended J (fun c r => X c r ∧ t.Free own c.unit) ∧ J w ∧
    (∀ c r, w.session.result? c = some r → r.isPending = true →
      X c (w.session.cutResult c r)) ∧
    ∀ v, J v → (∀ c r, w.session.result? c = some r → r.committed = false →
      Kept own t c v) → I v

/-- Less may be known about the results that are written back. -/
theorem Tended.mono {I : World → Prop} {X X' : Symbol → Computed → Prop}
    (hI : Tended I X) (h : ∀ c r, X' c r → X c r) : Tended I X' :=
  { hI with
    fill := fun w u x c r hw hu hid hx hk he hX =>
      hI.fill w u x c r hw hu hid hx hk he (h c r hX) }

/-- What survives results being written back that tell what is wrong in
them survives whole sessions. -/
theorem Tended.writesBack_of_tells {I : World → Prop}
    (hI : Tended I fun _ r => r.Tells) (own : UnitId) (t : Thread) :
    WritesBack I own t :=
  { hI with
    write := fun _ hw hclosed => ⟨I, fun _ r => r.Tells,
      hI.mono fun _ _ h => h.1, hw, fun c r hc hp =>
        (Session.faithful_cutResult _).tells c r
          ((hclosed.remembers.result c r hc).tells (Computed.not_committed hp)),
      fun _ hv _ => hv⟩ }

/-- What survives any results being written back survives whole
sessions. -/
theorem Tended.writesBack {I : World → Prop} (hI : Tended I fun _ _ => True)
    (own : UnitId) (t : Thread) : WritesBack I own t :=
  (hI.mono fun _ _ _ => trivial).writesBack_of_tells own t

namespace WritesBack

variable {I : World → Prop} {own : UnitId} {t : Thread}

/-- What lasts may be added. -/
theorem and_lasting (hI : WritesBack I own t) {R : World → Prop}
    (hR : Lasting R) : WritesBack (fun w => I w ∧ R w) own t :=
  { hI.toDetached.and_lasting hR with
    referring := fun w hw => hI.referring w hw.1
    write := fun w hw hclosed => by
      obtain ⟨J, X, hJ, hwJ, hX, hdone⟩ := hI.write w hw.1 hclosed
      exact ⟨_, X, hJ.and_lasting hR, ⟨hwJ, hw.2⟩, hX,
        fun v hv hkept => ⟨hdone v hv.1 hkept, hv.2⟩⟩ }

/-- Dealing with results keeps them right. -/
theorem faithful_settle (done : List UnitId) :
    Session.Faithful (Tended.settle done) := by
  constructor
  case committed =>
    intro c r
    unfold Tended.settle
    split <;> rfl
  case isAlias =>
    intro c r
    unfold Tended.settle
    split <;> rfl
  case classes =>
    intro c r
    unfold Tended.settle
    split
    · exact .refl _
    · exact .refl _
  case tells =>
    intro c r hr
    unfold Tended.settle
    split
    · exact hr
    · exact hr

end WritesBack

-- ============================================================ whole calls

namespace World

/-- Asking for more classes leaves the memory of a session. -/
theorem Remembers.ask {w : World} (h : w.Remembers) (seeds : List Symbol) :
    Remembers { w with session := { w.session with
      seeds := w.session.seeds ++ seeds } } :=
  ⟨h.listed, h.nodup, h.known, fun b r hb => lasting_justified b r w _
    (.of_eq rfl rfl (Nat.le_refl _)) (h.result b r hb), h.imports⟩

/-- It leaves a session at rest. -/
theorem Rested.ask {own : UnitId} {t : Thread} {w : World}
    (h : Rested own t w) (seeds : List Symbol) :
    Rested own t { w with session := { w.session with
      seeds := w.session.seeds ++ seeds } } := by
  refine ⟨h.alike, h.remembers.ask seeds,
    ⟨h.followed.idle, h.followed.expanded, h.followed.classes⟩,
    fun c r hc hn => ⟨(h.kept c r hc hn).1, ?_⟩⟩
  exact lasting_kept own t c w _ (.of_eq rfl rfl (Nat.le_refl _))
    (h.kept c r hc hn).2

end World

namespace Action

variable {I : World → Prop} {own : UnitId} {t : Thread}

/-- All rounds of a call leave a session that has computed the seeds and
all that they refer to. -/
theorem computeRounds_closed (own : UnitId) (t : Thread) (hI : Detached I)
    (href : ∀ w, I w → w.Referring) (config : Config) (cancellable : Bool)
    (bound : Nat) (seeds : List Symbol) :
    Triple (fun w => (I w ∧ Rested own t w) ∧ ∀ c ∈ seeds, w.registry.Known c)
      (computeRounds config cancellable bound seeds)
      (fun _ w => I w ∧ t.Alike w.thread ∧ Closed own t w ∧
        ∀ c ∈ seeds, w.session.hasMet c = true) I := by
  rintro w ⟨⟨hw, hrest⟩, hknown⟩
  -- what was computed by earlier calls stays dealt with
  have hold : Lasting fun v => ∀ c, ∀ r, w.session.result? c = some r →
      r.committed = false → Kept own t c v :=
    .all fun c => .all fun _ => .all fun _ => .all fun _ =>
      lasting_kept own t c
  refine (Triple.conseq (computeRounds_triple ((hI.alike t).and_lasting hold)
    (fun v hv => href v hv.1.1) bound w.session seeds) ?_ ?_
    fun v hv => hv.1.1 : Triple (fun v => v = w) _ _ _) w rfl
  · rintro v rfl
    refine ⟨⟨⟨⟨hw, hrest.alike⟩, fun c r hc hn => (hrest.kept c r hc hn).2⟩,
      hrest.remembers, .refl _⟩, ⟨hrest.followed.idle, hrest.followed.expanded,
      fun c r hc hn b hb => Or.inl ?_⟩, hknown⟩
    exact (hrest.followed.classes c r hc hn b hb).resolve_right
      List.not_mem_nil
  · rintro _ v ⟨⟨⟨⟨hv, ht⟩, hkept⟩, hr, hgrows⟩, hfollowed, hmet⟩
    refine ⟨hv, ht, ⟨hr, hfollowed, fun c r hc hn ha => ?_⟩, hmet⟩
    rcases hgrows.fresh c r hc with hc | hfresh
    · exact hkept c r hc hn
    · rw [hfresh] at ha
      cases ha

end Action

namespace Session

/-- What becomes of a result when cycles are broken and all that is pending
is dealt with. -/
def written (s : Session) (c : Symbol) (r : Computed) : Computed :=
  if r.isPending then { s.cutResult c r with applied := true } else r

/-- Then nothing is pending. -/
theorem applied_written {s : Session} {c : Symbol} {r : Computed}
    (h : (s.written c r).committed = false) :
    (s.written c r).applied = true := by
  unfold written at h ⊢
  split
  · rfl
  · next hp =>
    rw [if_neg hp] at h
    rw [Computed.isPending, h] at hp
    simpa using hp

end Session

namespace WritesBack

/-- Breaking cycles and writing back what was computed deals with all that
is pending. -/
theorem deals_triple {J : World → Prop} {X : Symbol → Computed → Prop}
    {L : Symbol → World → Prop} {t : Thread} {ctx : Context} {v : World}
    (hv : J v) (hreg : ∀ w, J w → w.Registered ctx.unit)
    (hguard : ctx.guard.lock = .ofUnit ctx.unit.id)
    (ht : t.Alike v.thread) (hr : v.Remembers)
    (hJ : Tended J fun c r => X c r ∧ t.Free ctx.unit.id c.unit)
    (hL : Deals J ctx.unit.id t L)
    (hX : ∀ c r, v.session.result? c = some r → r.isPending = true →
      X c (v.session.cutResult c r)) :
    Triple (· = v) (do
        updateSession Session.breakCycles
        applyResults ctx)
      (fun _ u => Midway J t (v.session.Revises v.session.written) u ∧
        (v.session.Followed [] → u.session.Followed []) ∧
        ∀ c r, v.session.result? c = some r → r.isPending = true → L c u)
      fun _ => False := by
  have hcut := hr.toListed.breakCycles
  have hcut' := hr.revises (Session.faithful_cutResult _) hcut
    v.session.imports_breakCycles
  have hpending := v.session.isPending_cutResult
  have hresult : ∀ c r, v.session.result? c = some r →
      v.session.breakCycles.result? c = some (v.session.cutResult c r) := by
    intro c r hc
    rw [hcut.result, hc]
    rfl
  have happly := hJ.applyResults_triple (t := t) (s := v.session.breakCycles)
    hL hreg hguard fun c r hc hp => ?_
  · refine Triple.bind (Q := fun _ => Tended.Working J t
      v.session.breakCycles) (.update ?_) fun _ =>
        happly.conseq (fun _ hu => hu) (fun _ u hu => ?_) fun _ hu => hu.elim
    · rintro u rfl
      exact ⟨hJ.session u _ hv, ht, hcut', rfl⟩
    · obtain ⟨units, ⟨hu, hthread, hmemory, hrevised⟩, hsettled, hall⟩ := hu
      refine ⟨⟨hu, hthread, hmemory, ?_⟩, fun hfollowed => ?_,
        fun c r hc hp => ?_⟩
      · refine (hcut.trans hrevised).congr fun c r hc => ?_
        unfold Session.written Tended.settle
        rw [hpending]
        cases hp : r.isPending with
        | true =>
            rw [List.contains_iff_mem.mpr (hall c _ (hresult c r hc)
              ((hpending c r).trans hp))]
            rfl
        | false =>
            rw [if_neg (by simp), if_neg (by simp),
              Session.cutResult_of_not_pending c hp]
      · exact (hfollowed.revises (Session.faithful_cutResult _) hcut).revises
          (faithful_settle units) hrevised
      · have hp := (hpending c r).trans hp
        exact hsettled c _ (hresult c r hc) hp (hall c _ (hresult c r hc) hp)
  · rw [hcut.result] at hc
    obtain ⟨q, hq, rfl⟩ := Option.map_eq_some_iff.mp hc
    exact hX c q hq (hpending c q ▸ hp)

/-- So a session is at rest afterwards. -/
theorem apply_triple {J : World → Prop} {X : Symbol → Computed → Prop}
    {t : Thread} {ctx : Context} {v : World} (hv : J v)
    (hreg : v.Registered ctx.unit)
    (hguard : ctx.guard.lock = .ofUnit ctx.unit.id)
    (ht : t.Alike v.thread) (hclosed : v.Closed ctx.unit.id t)
    (hJ : Tended J fun c r => X c r ∧ t.Free ctx.unit.id c.unit)
    (hX : ∀ c r, v.session.result? c = some r → r.isPending = true →
      X c (v.session.cutResult c r)) :
    Triple (· = v) (do
        updateSession Session.breakCycles
        applyResults ctx)
      (fun _ u => J u ∧ Rested ctx.unit.id t u ∧
        v.session.Revises v.session.written u.session ∧
        ∀ c r, v.session.result? c = some r → Kept ctx.unit.id t c u)
      fun _ => False := by
  obtain ⟨hr, hfollowed, hkept⟩ := hclosed
  have hJ' := (hJ.and_lasting (lasting_registered ctx.unit)).and_lasting
    (R := fun u => ∀ c r, v.session.result? c = some r →
      r.isPending = false → Kept ctx.unit.id t c u)
    (.all fun c => .all fun _ => .all fun _ => .all fun _ =>
      lasting_kept ctx.unit.id t c)
  refine (deals_triple (J := fun u => (J u ∧ u.Registered ctx.unit) ∧
    ∀ c r, v.session.result? c = some r → r.isPending = false →
      Kept ctx.unit.id t c u) ⟨⟨hv, hreg⟩, fun c r hc hp => ?_⟩
    (fun u hu => hu.1.2) hguard ht hr hJ' (deals_kept _ _ _) hX).conseq
    (fun _ hu => hu) (fun _ u hu => ?_) fun _ hu => hu
  · cases hn : r.committed with
    | true => exact Or.inl ((hr.result c r hc).committed hn)
    | false =>
        refine hkept c r hc hn ?_
        rw [Computed.isPending, hn] at hp
        simpa using hp
  · obtain ⟨⟨⟨⟨hu, -⟩, hkept⟩, hthread, hmemory, hrevised⟩, hfollowed', hdealt⟩ :=
      hu
    -- every result has been dealt with
    have hdealt : ∀ c r, v.session.result? c = some r →
        Kept ctx.unit.id t c u := fun c r hc => by
      cases hp : r.isPending with
      | false => exact hkept c r hc hp
      | true => exact hdealt c r hc hp
    refine ⟨hu, ⟨hthread, hmemory, hfollowed' hfollowed, fun c r hc hn => ?_⟩,
      hrevised, hdealt⟩
    rw [hrevised.result] at hc
    obtain ⟨q, hq, rfl⟩ := Option.map_eq_some_iff.mp hc
    exact ⟨Session.applied_written hn, hdealt c q hq⟩

variable {I : World → Prop} {t : Thread}

/-- A call of a session for some known classes ends with every one of them
final or put off. -/
theorem resolveSupertypes_triple {ctx : Context}
    (hI : WritesBack I ctx.unit.id t)
    (hreg : ∀ w, I w → w.Registered ctx.unit)
    (hguard : ctx.guard.lock = .ofUnit ctx.unit.id) (seeds : List Symbol) :
    Triple (fun w => (I w ∧ Rested ctx.unit.id t w) ∧
        ∀ c ∈ seeds, w.registry.Known c) (resolveSupertypes ctx seeds)
      (fun _ w => (I w ∧ Rested ctx.unit.id t w) ∧
        ∀ c ∈ seeds, Kept ctx.unit.id t c w) I := by
  refine .bind (Q := fun _ w => (I w ∧ Rested ctx.unit.id t w) ∧
    ∀ c ∈ seeds, w.registry.Known c) (.update fun w hw => ?_) fun _ =>
    .read_then fun bound => .bind (computeRounds_closed _ t hI.toDetached
      hI.referring _ _ bound seeds) fun _ => ?_
  · exact ⟨⟨hI.session w _ hw.1.1, hw.1.2.ask seeds⟩, hw.2⟩
  rintro v ⟨hv, ht, hclosed, hmet⟩
  obtain ⟨J, X, hJ, hvJ, hX, hdone⟩ := hI.write v hv hclosed
  refine ((apply_triple hvJ (hreg v hv) hguard ht hclosed hJ hX).conseq
    (fun _ h => h) (fun _ u hu => ?_) fun _ h => h.elim) v rfl
  obtain ⟨hu, hrest, -, hdealt⟩ := hu
  refine ⟨⟨hdone u hu fun c r hc _ => hdealt c r hc, hrest⟩, fun c hc => ?_⟩
  obtain ⟨q, hq⟩ := hclosed.followed.result? (hmet c hc)
  exact hdealt c q hq

end WritesBack

end StagedResolve
