/-
Budgets: why computing supertypes comes to an end.

# What there is to spend

A search for an inherited classifier, the nesting of computations and the
rounds all count steps, and the count they start with is what all
declarations weigh (`Registry.searchBound`). A class that is met takes
its own weight away from what is left, and refers to fewer classes than
it weighs (`World.Affords`). So what a class puts on the stack of a
search is paid for by the class itself, however classes refer to each
other (`Affordable.searchInherited`).

# Who pays for a computation

A computation looks up names only for a declaration that is there. The
declaration has been met by then, so less is left than when the
computation began, and it may begin others with one step less
(`evaluate_scaled`, `compute_ends`). A symbol that no declaration stands
behind has no supertypes and begins nothing.

A round that finds classes to go on with has computed the clause of one
that is there, so the next round has less left, too
(`computeRounds_ends`). Building units on the way leaves no more than
there was. All that can keep a call from its end is that it is cancelled.
-/
import StagedResolve.Proofs.Grounded

namespace StagedResolve

open StagedResolve.Action World

-- ======================================================= room for references

namespace World

variable {v w : World} {u : CompilationUnit} {x : Declaration} {c : Symbol}
  {r : Computed}

/-- No clause has more references than were written. -/
structure Roomy (w : World) : Prop where
  coherent : w.Coherent
  width : ∀ u d x, w.Registered u → u.decl? d = some x →
    Slot.arms (w.clause u d) < x.searchWeight

/-- This holds wherever clauses are grounded. -/
theorem Grounded.roomy (hw : w.Grounded) : w.Roomy :=
  ⟨hw.coherent, hw.referring.width⟩

/-- It survives all that leaves clauses alone. -/
theorem Roomy.structural : Structural Roomy where
  coherent := fun _ hw => hw.coherent
  unmoved := fun v w hv h hw => ⟨hw, fun u d x hu hx => by
    by_cases hreg : v.Registered u
    · rw [h.clause hreg]
      exact hv.width u d x hreg hx
    · exact width_of_fresh hx (h.fresh u d hu hreg)⟩

/-- A result is to scale: it refers to no more classes than its class can,
and if it was computed, it is that of a declaration and is an alias's only
if that is one. -/
structure Scaled (w : World) (c : Symbol) (r : Computed) : Prop where
  width : w.Affords c r.classes.length
  declared : r.committed = false → ∃ u x, w.Registered u ∧ u.id = c.unit ∧
    u.decl? c.decl = some x ∧ (r.isAlias = true ↔ x.kind = .typeAlias)

/-- It stays so. -/
theorem lasting_scaled (c : Symbol) (r : Computed) :
    Lasting fun w => w.Scaled c r := by
  rintro v w h ⟨hwidth, hdeclared⟩
  refine ⟨lasting_affords c _ v w h hwidth, fun hr => ?_⟩
  obtain ⟨u, x, hu, hrest⟩ := hdeclared hr
  exact ⟨u, x, h.registered hu, hrest⟩

/-- What was read off slots is to scale. -/
theorem Scaled.ofCommitted {types : List ResolvedType}
    (h : w.Affords c (ResolvedType.classes types).length) :
    w.Scaled c (.ofCommitted types) := by
  refine ⟨?_, fun hr => Bool.noConfusion hr⟩
  rwa [Computed.classes_ofCommitted]

/-- So is what resolving a clause comes to. -/
theorem Scaled.ofClause {r : List Reference × List ResolveError}
    (hu : w.Registered u) (hid : u.id = c.unit) (hx : u.decl? c.decl = some x)
    (hwidth : (Reference.classes r.1).length < x.searchWeight) :
    w.Scaled c (.ofClause x r) := by
  refine ⟨Or.inr ⟨u, x, hu, hid, hx, Nat.lt_of_le_of_lt
    (Computed.length_classes_ofClause x r) hwidth⟩, fun _ => ⟨u, x, hu, hid, hx, ?_⟩⟩
  simp [Computed.ofClause]

/-- Filling in a result that is to scale leaves room. -/
theorem Roomy.filled (hw : w.Roomy) (hu : w.Registered u)
    (hid : u.id = c.unit) (hr : w.Scaled c r) (hcomputed : r.committed = false) :
    (w.filled u c.decl r).Roomy := by
  obtain ⟨v, x, hv, hvid, hx, halias⟩ := hr.declared hcomputed
  obtain rfl : v = u := hv.eq hu (hvid.trans hid.symm)
  refine ⟨hw.coherent.setState hu (raised_filled w v c.decl r),
    fun v' d y hv' hy => ?_⟩
  by_cases h : v = v' ∧ c.decl = d
  · obtain ⟨rfl, rfl⟩ := h
    obtain rfl : y = x := Option.some.inj (hy.symm.trans hx)
    refine Nat.lt_of_le_of_lt (arms_filled hx halias) ?_
    rcases hr.width with hzero | ⟨v', y', hv', hid', hy', hlt⟩
    · rw [hzero, Declaration.searchWeight]
      omega
    · obtain rfl : v' = v := hv'.eq hv (hid'.trans hvid.symm)
      obtain rfl : y' = y := Option.some.inj (hy'.symm.trans hx)
      exact hlt
  · rw [clause_filled hu c.decl hv' d h]
    exact hw.width v' d y hv' hy

/-- A class that is met pays for all that it refers to. -/
theorem Affords.left_add_le {n : Nat} (h : w.Affords c n)
    (seen more : Symbol → Bool) (hw : w.Coherent)
    (hmore : ∀ b, seen b = true → more b = true) (hnew : seen c = false)
    (hseen : more c = true) :
    w.registry.left more + n ≤ w.registry.left seen := by
  rcases h with rfl | ⟨u, x, hu, hid, hx, hlt⟩
  · exact Registry.left_mono hmore
  · have := Registry.left_see seen more hw.registry hmore hu hid hx hnew hseen
    omega

/-- What is left stays below what it was below of. -/
theorem lasting_left (seen : Symbol → Bool) (m n : Nat) :
    Lasting fun w => m + w.registry.left seen < n := by
  intro v w h hv
  have := h.drains seen
  show m + w.registry.left seen < n
  omega

end World

-- =================================================== searches that are paid for

namespace Action

variable {I : World → Prop} {source : SupertypeSource}

/-- A source that answers, and with no more classes than the class it is
asked for can afford. -/
structure Affordable (I : World → Prop) (source : SupertypeSource) : Prop where
  static : Static I
  source : ∀ c, Advances I (source c) (fun bs w => w.Affords c bs.length)
    fun _ => False

namespace Affordable

/-- What lasts may be assumed. -/
theorem and_lasting (h : Affordable I source) {T : World → Prop}
    (hT : Lasting T) : Affordable (fun w => I w ∧ T w) source :=
  ⟨h.static.and_lasting hT, fun c => (h.source c).and_lasting hT⟩

/-- The condition may be put in other words. -/
theorem congr {J : World → Prop} (h : Affordable I source)
    (hIJ : ∀ w, I w ↔ J w) : Affordable J source := by
  have hIJ : I = J := funext fun w => propext (hIJ w)
  exact hIJ ▸ h

/-- A search ends if it may take as many steps as there are classes on its
stack, and as are left besides. -/
theorem searchInherited (h : Affordable I source) (name : String) (fuel : Nat)
    (seen stack : List Symbol) (hfuel : ∀ w, I w →
      stack.length + w.registry.left seen.contains < fuel) :
    Advances I (Scope.searchInherited source name fuel seen stack)
      (fun _ _ => True) fun _ => False := by
  induction fuel generalizing I seen stack with
  | zero => exact .stop fun w hw => absurd (hfuel w hw) (Nat.not_lt_zero _)
  | succ fuel ih =>
      cases stack with
      | nil => exact .pure fun _ _ => trivial
      | cons next stack =>
          simp only [List.length_cons] at hfuel
          unfold Scope.searchInherited
          split
          · exact ih h seen stack fun w hw => by
              have := hfuel w hw
              omega
          · next hnew =>
            refine .andThen (.read (Q := fun _ _ => True) fun _ _ => trivial)
              fun declared => ?_
            cases declared with
            | some found => exact .pure fun _ _ => trivial
            | none =>
                refine .bind (h.source next) fun above => ?_
                refine ih (h.and_lasting (lasting_affords next _)) _ _
                  fun w hw => ?_
                -- the class that is searched pays for what it puts there
                have hpaid := hw.2.left_add_le seen.contains
                  (next :: seen).contains (h.static.coherent w hw.1)
                  (fun b hb => by simp_all) (Bool.eq_false_iff.mpr hnew)
                  (by simp)
                have := hfuel w hw.1
                rw [List.length_append, List.length_reverse]
                omega

/-- So the search for an inherited classifier ends. -/
theorem inherited? (h : Affordable I source) (owner : Symbol) (name : String) :
    Advances I (Scope.inherited? source owner name) (fun _ _ => True)
      fun _ => False := by
  refine .bind (h.source owner) fun above => ?_
  have h' := h.and_lasting (lasting_affords owner above.length)
  refine .bind (.read (Q := fun bound w =>
    above.length + w.registry.left [owner].contains < bound) fun w hw => ?_)
    fun bound => ?_
  · have hpaid := hw.2.left_add_le (fun _ => false) [owner].contains
      (h.static.coherent w hw.1) nofun rfl (by simp)
    rw [w.registry.searchBound_eq]
    omega
  · refine (h'.and_lasting (lasting_left _ _ _)).searchInherited name bound _ _
      fun w hw => ?_
    rw [List.length_reverse]
    exact hw.2

/-- Looking up ends with an answer. -/
theorem yields (h : Affordable I source) :
    Yields (fun _ _ => True) (fun _ _ => True) I (fun _ => False) source where
  coherent := h.static.coherent
  lasting_fine := fun _ => lasting_const True
  live := fun _ _ _ _ => trivial
  classifier := fun k => (classifier_advances h.static k).post
    fun _ _ _ _ _ _ => trivial
  inherited := fun owner name => ((h.inherited? owner name).and_lasting
    (lasting_const True)).post fun _ _ _ _ _ _ => trivial

end Affordable

/-- Evaluating a class comes to a result that is to scale, if a source can be
asked as soon as the class is there. -/
theorem evaluate_scaled {K L : World → Prop} {c : Symbol} (hK : Static K)
    (hroomy : ∀ w, K w → w.Roomy)
    (himports : ∀ w id table, K w → K { w with session := { w.session with
      imports := w.session.imports.insert id table } })
    (hlive : ∀ w u x, K w → w.Registered u → u.id = c.unit →
      u.decl? c.decl = some x → L w)
    (hsource : Affordable (fun w => K w ∧ L w) source) (defaults : List String) :
    Advances K (evaluate defaults source c)
      (fun r w => w.Scaled c r ∧ r.applied = false) fun _ => False := by
  have hnone : ∀ w : World, w.Scaled c (.ofCommitted []) ∧
      (Computed.ofCommitted []).applied = false :=
    fun w => ⟨.ofCommitted (Or.inl rfl), rfl⟩
  refine .bind (sessionUnit?_registered (T := fun _ _ => True) hK
    (lasting_const True) (fun _ => lasting_const True)
    (fun _ _ _ _ _ _ => trivial) (fun _ _ _ _ => trivial)
    (fun w table hw _ => himports w c.unit table hw) fun _ _ _ => trivial)
    fun found => ?_
  cases found with
  | none => exact .pure fun w _ => hnone w
  | some u =>
      dsimp only
      split
      · exact .pure fun w _ => hnone w
      · next d hd =>
        split
        · exact .pure fun w _ => hnone w
        · have hthere := lasting_sought (lasting_const True) c.unit (some u)
          -- the class is there, so sources may be asked from here on
          have h := (hsource.and_lasting hthere).congr (J := fun w => K w ∧
              ((some u = none → True) ∧ ∀ v, some u = some v →
                w.Registered v ∧ v.id = c.unit)) fun w =>
            ⟨fun hw => ⟨hw.1.1, hw.2⟩, fun hw => ⟨⟨hw.1, hlive w u d hw.1
              (hw.2.2 u rfl).1 (hw.2.2 u rfl).2 hd⟩, hw.2⟩⟩
          refine .bind (.read (Q := fun clause _ =>
            Slot.arms clause < d.searchWeight) fun w hw =>
              (hroomy w hw.1).width u c.decl d (hw.2.2 u rfl).1 hd) fun clause => ?_
          have h := h.and_lasting (lasting_const (Slot.arms clause < d.searchWeight))
          refine .andThen (.read (Q := fun _ _ => True) fun _ _ => trivial)
            fun own => ?_
          split
          · refine .pure fun w hw => ⟨.ofCommitted (Or.inr ⟨u, d,
              (hw.1.2.2 u rfl).1, (hw.1.2.2 u rfl).2, hd, ?_⟩), rfl⟩
            exact Nat.lt_of_le_of_lt (Slot.length_classes_le_arms clause) hw.2
          · refine .andThen (.read (Q := fun _ _ => True) fun _ _ => trivial)
              fun table => ?_
            refine .bind ((resolveClause_width _ source c.decl clause).advances
              (resolveClause_advances h.yields ⟨u, table, defaults⟩
                (fun w hw => (hw.1.2.2 u rfl).1) (fun _ _ _ => trivial)
                (fun _ _ _ _ _ => trivial) c.decl clause
                fun _ _ _ _ => trivial)) fun r => .pure fun w hw => ⟨?_, rfl⟩
            exact .ofClause (hw.1.1.2.2 u rfl).1 (hw.1.1.2.2 u rfl).2 hd
              (Nat.lt_of_le_of_lt hw.2.2 hw.1.2)

end Action

-- ==================================================== a session and its results

namespace World

variable {v w : World} {c : Symbol}

/-- The session lists what it has met, has followed no more than that, and
its results are to scale. -/
structure Tallied (w : World) : Prop where
  listed : w.session.Listed
  expanded : w.session.expanded ≤ w.session.order.length
  result : ∀ c r, w.session.result? c = some r → w.Scaled c r

namespace Tallied

/-- Nothing has been met and nothing followed. -/
theorem start (w : World) : Tallied { w with session := .start } :=
  ⟨.start, Nat.le_refl _, nofun⟩

/-- Nothing that lasts changes that. -/
theorem later (hv : v.Tallied) (h : v.Onward w) (hs : w.session = v.session) :
    w.Tallied := by
  refine ⟨hs ▸ hv.listed, hs ▸ hv.expanded, fun c r hr => ?_⟩
  rw [hs] at hr
  exact lasting_scaled c r v w h (hv.result c r hr)

/-- What was met is the same, and so are the results. -/
theorem of_eq {t : Session} (hw : w.Tallied)
    (horder : t.order = w.session.order)
    (hprogress : t.progress = w.session.progress)
    (hexpanded : t.expanded ≤ t.order.length) :
    Tallied { w with session := t } := by
  refine ⟨hw.listed.of_eq horder hprogress, hexpanded, fun c r hr => ?_⟩
  have hr : t.result? c = some r := hr
  rw [Session.result?, hprogress] at hr
  exact lasting_scaled c r w _ (.of_eq rfl rfl (Nat.le_refl _))
    (hw.result c r hr)

/-- Beginning the computation of a class that was not met. -/
theorem enter (hw : w.Tallied) (hnew : w.session.hasMet c = false) :
    Tallied { w with session := w.session.enter c } := by
  refine ⟨hw.listed.enter hnew, ?_, fun b r hr => ?_⟩
  · show w.session.expanded ≤ (w.session.order ++ [c]).length
    rw [List.length_append]
    exact Nat.le_add_right_of_le hw.expanded
  · rw [Session.result?_enter] at hr
    split at hr
    · cases hr
    · exact lasting_scaled b r w _ (.of_eq rfl rfl (Nat.le_refl _))
        (hw.result b r hr)

/-- Ending a computation with a result that is to scale. -/
theorem finish {r : Computed} (hw : w.Tallied)
    (hc : w.session.hasMet c = true) (hr : w.Scaled c r) :
    Tallied { w with session := w.session.finish c r } := by
  have hlater : w.Onward { w with session := w.session.finish c r } :=
    .of_eq rfl rfl (Nat.le_refl _)
  refine ⟨hw.listed.finish ((hw.listed.met c).mpr hc) r, hw.expanded,
    fun b q hq => ?_⟩
  rw [Session.result?_finish] at hq
  split at hq
  · next hcb =>
    cases hq
    rw [← hcb]
    exact lasting_scaled c r w _ hlater hr
  · exact lasting_scaled b q w _ hlater (hw.result b q hq)

/-- A class can afford what the session knows of it. -/
theorem affords (hw : w.Tallied) (c : Symbol) :
    w.Affords c (w.session.classes c).length := by
  unfold Session.classes
  split
  · next r hr => exact (hw.result c r hr).width
  · exact Or.inl rfl

end Tallied

/-- A condition in a session that has gone on from another one. -/
def Spans (I : World → Prop) (s : Session) (w : World) : Prop :=
  I w ∧ w.Tallied ∧ s.Extends w.session

end World

/-- Looking up leaves it. -/
theorem Unaware.spans {I : World → Prop} {s : Session} (hI : Unaware I) :
    Static (Spans I s) where
  coherent := fun w hw => hI.coherent w hw.1
  classifier := fun w k ⟨hw, hr, hs⟩ => ⟨hI.classifier w k hw,
    hr.later (later_classifier (hI.coherent w hw) k) rfl, hs⟩
  counters := fun w c hc ⟨hw, hr, hs⟩ => ⟨hI.counters w c hc hw,
    hr.later (.of_eq rfl rfl hc) rfl, hs⟩

namespace Action

/-- Computing a class that was not met ends, if it may nest as deep as there
is something left. -/
theorem compute_ends (defaults : List String) (fuel : Nat)
    {I : World → Prop} (hI : Unaware I) (hroomy : ∀ w, I w → w.Roomy)
    (s : Session) (c : Symbol) :
    Triple (fun w => Spans I s w ∧ w.session.hasMet c = false ∧
        w.registry.left w.session.hasMet < fuel)
      (compute defaults fuel c)
      (fun _ w => Spans I s w ∧ w.session.hasMet c = true)
      fun _ => False := by
  induction fuel generalizing I s c with
  | zero => exact .stop fun w hw => absurd hw.2.2 (Nat.not_lt_zero _)
  | succ fuel ih =>
      rintro w ⟨⟨hw, htallied, hextends⟩, hnew, hfuel⟩
      -- what is left bounds what is left once `c` was met and is there
      have hJ := hI.and_lasting (lasting_left w.session.hasMet 0 (fuel + 1))
      have hL := lasting_left (w.session.enter c).hasMet 0 fuel
      have hlive : ∀ v u x, Spans (fun v => I v ∧ 0 + v.registry.left
          w.session.hasMet < fuel + 1) (w.session.enter c) v →
          v.Registered u → u.id = c.unit → u.decl? c.decl = some x →
          0 + v.registry.left (w.session.enter c).hasMet < fuel := by
        rintro v u x ⟨⟨hv, hleft⟩, -⟩ hu hid hx
        have := Registry.left_see w.session.hasMet
          (w.session.enter c).hasMet (hI.coherent v hv).registry
          (fun b => Session.hasMet_enter c) hu hid hx hnew
          (Session.hasMet_enter_iff.mpr (Or.inl rfl))
        have hweight : 0 < x.searchWeight := by
          rw [Declaration.searchWeight]
          omega
        omega
      have hsource : Affordable (fun v => Spans (fun v => I v ∧
          0 + v.registry.left w.session.hasMet < fuel + 1)
          (w.session.enter c) v ∧ 0 + v.registry.left
            (w.session.enter c).hasMet < fuel) (fun b => do
          if !(← session fun s => s.hasMet b) then compute defaults fuel b
          session fun s => s.classes b) := by
        refine ⟨hJ.spans.and_lasting hL, fun b R hR => ?_⟩
        refine .read_bind fun met => ?_
        cases met with
        | true => exact .read fun v hv => ⟨hv.1, hv.1.1.1.2.1.affords b⟩
        | false =>
            refine .bind ((ih ((hJ.and_lasting hL).and_lasting hR)
              (fun v hv => hroomy v hv.1.1.1) (w.session.enter c) b).conseq
              ?_ (fun _ v hv => hv) fun _ hv => hv) fun _ => .read fun v hv => ?_
            · rintro v ⟨⟨⟨⟨hv, hr, hs⟩, hleft⟩, hR'⟩, hmet⟩
              refine ⟨⟨⟨⟨hv, hleft⟩, hR'⟩, hr, hs⟩, hmet, ?_⟩
              have := v.registry.left_mono fun b => hs.hasMet (c := b)
              omega
            · obtain ⟨⟨⟨⟨hv, hleft⟩, hR'⟩, hr, hs⟩, -⟩ := hv
              exact ⟨⟨⟨⟨hv, hr, hs⟩, hleft⟩, hR'⟩, hr.affords b⟩
      have heval := (evaluate_scaled hJ.spans (fun v hv => hroomy v hv.1.1)
        (fun v id table hv => ⟨hJ.session v _ hv.1,
          hv.2.1.of_eq rfl rfl hv.2.1.expanded, ⟨hv.2.2.order, hv.2.2.result,
            hv.2.2.fresh, hv.2.2.underWay⟩, hv.2.2.expanded⟩)
        hlive hsource defaults).triple
      refine (Triple.bind (P := fun v => v = w) (Q := fun _ => Spans
        (fun v => I v ∧ 0 + v.registry.left w.session.hasMet < fuel + 1)
        (w.session.enter c)) (.update ?_)
        fun _ => .bind heval fun r => .update ?_) w rfl
      · rintro v rfl
        refine ⟨⟨hI.session v _ hw, ?_⟩, htallied.enter hnew, .refl _⟩
        show 0 + v.registry.left v.session.hasMet < fuel + 1
        omega
      · rintro v ⟨⟨⟨hv, -⟩, hr, hs⟩, hscaled, happlied⟩
        have hmet : v.session.hasMet c = true :=
          hs.hasMet (Session.hasMet_enter_iff.mpr (Or.inl rfl))
        exact ⟨⟨hI.session v _ hv, hr.finish hmet hscaled,
          hextends.trans (.finish hnew hs happlied)⟩,
          Session.hasMet_finish_iff.mpr (Or.inl rfl)⟩

end Action

end StagedResolve
