/-
Rounds: from seeds to everything that they refer to.

# Followed references

Between two rounds every class that a computed clause refers to has been
met, or is among those to be computed next (`Session.Followed`). A round
computes these, and what it finds becomes the work of the next one; when
nothing is left, the session is closed under references, apart from
those of clauses that had been committed before. A call that was
cancelled leaves references that nobody follows any more, so this can be
said of the classes that are not among such old ones, too
(`Session.Trails`).

# Revised results

Breaking cycles and writing back change results and leave the rest of a
session as it was (`Session.Revises`). Both keep what makes a result
right: where it comes from, and that it refers to known classes.

# Cycles within components

Cycles are broken component by component, each class with the other
members of its component in view. A reference of a class leads to a
member of its own component just if what it leads to leads back, since
the way there is the reference itself. So whatever list of components is
gone through, each class is left without the references that close a
cycle (`Session.Listed.breakCyclesBy`).
-/
import StagedResolve.Proofs.Components
import StagedResolve.Proofs.Memories
import StagedResolve.Supertypes.Cycles

namespace StagedResolve

open StagedResolve.Action World

namespace Session

variable {s t : Session} {b c : Symbol}

-- ====================================================== followed references

/-- The classes that are met next. -/
theorem mem_unmet_iff (cs found : List Symbol) :
    b ∈ s.unmet cs found ↔ b ∈ found ∨ ∃ c ∈ cs, ∃ r, s.result? c = some r ∧
      r.committed = false ∧ b ∈ r.classes ∧ s.hasMet b = false := by
  -- one clause contributes what is new in it
  have hfold : ∀ (bs found : List Symbol), b ∈ bs.foldl (fun found b =>
      if s.hasMet b || found.contains b then found else found ++ [b]) found ↔
        b ∈ found ∨ (b ∈ bs ∧ s.hasMet b = false) := by
    intro bs
    induction bs with
    | nil => simp
    | cons a rest ih =>
        intro found
        rw [List.foldl_cons, ih]
        by_cases hab : b = a
        · subst hab
          cases hmet : s.hasMet b <;> by_cases hf : b ∈ found <;>
            simp [hf]
        · split <;> simp [hab]
  induction cs generalizing found with
  | nil => simp [unmet]
  | cons a rest ih =>
      unfold unmet
      cases ha : s.result? a with
      | none =>
          refine (ih found).trans ?_
          simp [ha]
      | some r =>
          dsimp only
          cases hr : r.committed with
          | true =>
              rw [if_pos rfl]
              refine (ih found).trans ?_
              simp [ha, hr]
          | false =>
              rw [if_neg Bool.false_ne_true]
              refine (ih _).trans ?_
              rw [hfold]
              simp [ha, hr, or_assoc]

/-- No computation is under way, and every reference has been followed, apart
from those to classes that are computed next and from those of some old
classes. -/
structure Trails (old : List Symbol) (s : Session) (work : List Symbol) :
    Prop where
  idle : ∀ c, s.progress.find? c ≠ some .underWay
  expanded : s.expanded ≤ s.order.length
  classes : ∀ c r, c ∉ old → s.result? c = some r → r.committed = false →
    ∀ b ∈ r.classes, s.hasMet b = true ∨ b ∈ work

/-- When no computation is under way, what was met has a result. -/
theorem Trails.result? {old work : List Symbol} (h : s.Trails old work)
    (hc : s.hasMet c = true) : ∃ r, s.result? c = some r :=
  (hasMet_iff.mp hc).resolve_left (h.idle c)

/-- After a round the references of the classes that are new are
followed. -/
theorem Trails.follow {old work : List Symbol} (h : s.Trails old work)
    (hst : s.Extends t) (hs : ∀ c, c ∈ s.order ↔ s.hasMet c = true)
    (ht : ∀ c, c ∈ t.order ↔ t.hasMet c = true)
    (hwork : ∀ c ∈ work, t.hasMet c = true) :
    t.follow.2.Trails old t.follow.1 := by
  refine ⟨fun c hc => h.idle c ((hst.underWay c).mp hc), Nat.le_refl _, ?_⟩
  intro c r hold hr hcommitted b hb
  have hc : c ∈ t.order := (ht c).mpr (hasMet_iff.mpr (Or.inr ⟨r, hr⟩))
  obtain ⟨l, hl⟩ := hst.order
  rw [← hl, List.mem_append] at hc
  rcases hc with hc | hc
  · -- the references of classes that were met led to others or to this round
    obtain ⟨r', hr'⟩ := h.result? ((hs c).mp hc)
    have heq : some r = some r' := hr.symm.trans (hst.result c r' hr')
    cases heq
    rcases h.classes c r hold hr' hcommitted b hb with hmet | hwork'
    · exact Or.inl (hst.hasMet hmet)
    · exact Or.inl (hwork b hwork')
  · cases hmet : t.hasMet b with
    | true => exact Or.inl hmet
    | false =>
        refine Or.inr ((mem_unmet_iff _ _).mpr (Or.inr ⟨c, ?_, r, hr, hcommitted,
          hb, hmet⟩))
        rw [hst.expanded, ← hl, List.drop_append_of_le_length h.expanded]
        exact List.mem_append_right _ hc

/-- Every reference has been followed, apart from those to classes that
are computed next. -/
structure Followed (s : Session) (work : List Symbol) : Prop where
  idle : ∀ c, s.progress.find? c ≠ some .underWay
  expanded : s.expanded = s.order.length
  classes : ∀ c r, s.result? c = some r → r.committed = false →
    ∀ b ∈ r.classes, s.hasMet b = true ∨ b ∈ work

/-- No class is old then. -/
theorem Followed.trails {work : List Symbol} (h : s.Followed work) :
    s.Trails [] work :=
  ⟨h.idle, Nat.le_of_eq h.expanded, fun c r _ => h.classes c r⟩

/-- A session that has computed nothing has nothing to follow. -/
theorem Followed.start : Session.start.Followed [] :=
  ⟨nofun, rfl, nofun⟩

/-- When no computation is under way, what was met has a result. -/
theorem Followed.result? {work : List Symbol} (h : s.Followed work)
    (hc : s.hasMet c = true) : ∃ r, s.result? c = some r :=
  h.trails.result? hc

/-- After a round the references of the classes that are new are
followed. -/
theorem Followed.follow {work : List Symbol} (h : s.Followed work)
    (hst : s.Extends t) (hs : ∀ c, c ∈ s.order ↔ s.hasMet c = true)
    (ht : ∀ c, c ∈ t.order ↔ t.hasMet c = true)
    (hwork : ∀ c ∈ work, t.hasMet c = true) :
    t.follow.2.Followed t.follow.1 := by
  have htrails := h.trails.follow hst hs ht hwork
  exact ⟨htrails.idle, rfl, fun c r => htrails.classes c r List.not_mem_nil⟩

end Session

namespace Action

variable {I : World → Prop} {config : Config} {cancellable : Bool}

/-- One member of a round is met afterwards. -/
theorem computeRound_triple (hI : Unaware I) (href : ∀ w, I w → w.Referring)
    (s : Session) (c : Symbol) :
    Triple (fun w => Recalls I s w ∧ w.registry.Known c)
      (computeRound config cancellable c)
      (fun _ w => Recalls I s w ∧ w.session.hasMet c = true) I := by
  refine .read_bind fun met => ?_
  cases met with
  | true => exact .pure fun w hw => ⟨hw.1.1, hw.2⟩
  | false =>
      refine .read_then fun bound => ?_
      refine .bind ((compute_triple config.defaultImports bound hI href s
        c).pre fun w hw => ⟨hw.1.1, hw.1.2, hw.2⟩) fun _ => ?_
      refine .bind (Q := fun _ w => Recalls I s w ∧
        w.session.hasMet c = true) (.update ?_) fun _ => ?_
      · rintro w ⟨⟨hw, hr, hs⟩, hc⟩
        exact ⟨⟨hI.session w _ hw, ⟨hr.listed, hr.nodup, hr.known,
          fun b r h => lasting_justified b r w _ (.of_eq rfl rfl
            (Nat.le_refl _)) (hr.result b r h), hr.imports⟩,
          ⟨hs.order, hs.result, hs.fresh, hs.underWay⟩, hs.expanded⟩, hc⟩
      · refine .read_then fun processed => ?_
        split
        · exact .checkCancelled fun w hw => hw.1.1
        · exact .pure fun w hw => hw

/-- A round meets all its members. -/
theorem each_computeRound_triple (hI : Unaware I)
    (href : ∀ w, I w → w.Referring) (s : Session) (work : List Symbol) :
    Triple (fun w => Recalls I s w ∧ ∀ c ∈ work, w.registry.Known c)
      (each (computeRound config cancellable) work)
      (fun _ w => Recalls I s w ∧ ∀ c ∈ work, w.session.hasMet c = true)
      I := by
  have hI' := hI.and_lasting (lasting_known_all work)
  refine (Triple.each_prefix (fun done w => Recalls (fun w => I w ∧
    ∀ c ∈ work, w.registry.Known c) s w ∧
      ∀ c ∈ done, w.session.hasMet c = true) [] work ?_).conseq
      (fun w hw => ?_) (fun _ w hw => ?_) fun w hw => hw
  · rintro pre c post hsplit w ⟨⟨hw, hr, hs⟩, hpre⟩
    have hc : c ∈ work := by
      have : c ∈ pre ++ c :: post := by simp
      rwa [← hsplit] at this
    refine ((computeRound_triple hI' (fun w hw => href w hw.1) w.session
      c).conseq (fun _ hw => hw) (fun _ v hv => ?_) fun v hv => hv.1) w
      ⟨⟨hw, hr, .refl _⟩, hw.2 c hc⟩
    obtain ⟨⟨hv, hr', hs'⟩, hmet⟩ := hv
    refine ⟨⟨hv, hr', hs.trans hs'⟩, fun b hb => ?_⟩
    rcases List.mem_append.mp hb with hb | hb
    · exact hs'.hasMet (hpre b hb)
    · rw [List.mem_singleton.mp hb]
      exact hmet
  · exact ⟨(Unaware.recalls_and w).mpr hw, nofun⟩
  · exact ⟨((Unaware.recalls_and w).mp hw.1).1, hw.2⟩

/-- All rounds leave a session that is closed under references and has met
the seeds. -/
theorem computeRounds_triple (hI : Unaware I) (href : ∀ w, I w → w.Referring)
    (fuel : Nat) (s : Session) (work : List Symbol) :
    Triple (fun w => (I w ∧ w.Remembers ∧ s.Grows w.session) ∧
        w.session.Followed work ∧ ∀ c ∈ work, w.registry.Known c)
      (computeRounds config cancellable fuel work)
      (fun _ w => (I w ∧ w.Remembers ∧ s.Grows w.session) ∧
        w.session.Followed [] ∧ ∀ c ∈ work, w.session.hasMet c = true) I := by
  induction fuel generalizing s work with
  | zero =>
      cases work with
      | nil => exact .pure fun w hw => ⟨hw.1, hw.2.1, nofun⟩
      | cons c rest => exact .stop fun w hw => hw.1.1
  | succ fuel ih =>
      cases work with
      | nil => exact .pure fun w hw => ⟨hw.1, hw.2.1, nofun⟩
      | cons c rest =>
          refine .bind (Q := fun _ w => (I w ∧ w.Remembers ∧
            s.Grows w.session) ∧ w.session.Followed (c :: rest) ∧
              ∀ b ∈ c :: rest, w.registry.Known b) (.update ?_) fun _ => ?_
          · rintro w ⟨⟨hw, hr, hs⟩, hf, hwork⟩
            exact ⟨⟨hI.counters w _ (Nat.le_refl _) hw,
              hr.later (.of_eq rfl rfl (Nat.le_refl _)) rfl, hs⟩, hf, hwork⟩
          rintro w ⟨⟨hw, hr, hs⟩, hf, hwork⟩
          -- the round, and what it leads to
          refine (Triple.bind (P := fun v => v = w)
            ((each_computeRound_triple hI href w.session (c :: rest)).pre ?_)
              fun _ => ?_) w rfl
          · rintro v rfl
            exact ⟨⟨hw, hr, .refl _⟩, hwork⟩
          refine .read_bind fun next => ?_
          refine .bind (Q := fun _ v => ((I v ∧ v.Remembers ∧
            s.Grows v.session) ∧ v.session.Followed next.1 ∧
              ∀ b ∈ next.1, v.registry.Known b) ∧
              (w.session.order <+: v.session.order ∧
                ∀ b ∈ c :: rest, v.session.hasMet b = true)) ?_ fun _ => ?_
          · refine .update ?_
            rintro v ⟨⟨⟨hv, hr', hs'⟩, hmet⟩, rfl⟩
            have hlater : v.Onward { v with session := v.session.follow.2 } :=
              .of_eq rfl rfl (Nat.le_refl _)
            refine ⟨⟨⟨hI.session v _ hv, ⟨hr'.listed, hr'.nodup, hr'.known,
              fun b r h => lasting_justified b r v _ hlater (hr'.result b r h),
              hr'.imports⟩, ?_⟩, hf.follow hs' hr.listed hr'.listed hmet,
              fun b hb => ?_⟩, hs'.order, hmet⟩
            · have h := hs.trans hs'.toGrows
              exact ⟨h.order, h.result, h.fresh, h.underWay⟩
            · obtain hb | ⟨a, -, r, hra, -, hb, -⟩ :=
                (Session.mem_unmet_iff _ _).mp hb
              · cases hb
              · exact ((hr'.result a r hra).classes b hb).known
          · rintro v ⟨⟨⟨hv, hr', hs'⟩, hf', hnext⟩, -, hmet⟩
            refine ((ih v.session next.1).post fun _ u hu => ?_) v
              ⟨⟨hv, hr', .refl _⟩, hf', hnext⟩
            obtain ⟨⟨hu, hru, hgrows⟩, hfu, -⟩ := hu
            exact ⟨⟨hu, hru, hs'.trans hgrows⟩, hfu,
              fun b hb => hgrows.hasMet (hmet b hb)⟩

end Action

-- ========================================================== revised results

namespace Session

variable {s t : Session} {f : Symbol → Computed → Computed}

/-- Only results have changed, each as told. -/
structure Revises (f : Symbol → Computed → Computed) (s t : Session) :
    Prop where
  order : t.order = s.order
  expanded : t.expanded = s.expanded
  seeds : t.seeds = s.seeds
  underWay : ∀ c, t.progress.find? c = some .underWay ↔
    s.progress.find? c = some .underWay
  result : ∀ c, t.result? c = (s.result? c).map (f c)

/-- The same classes have been met. -/
theorem Revises.hasMet (h : s.Revises f t) (c : Symbol) :
    t.hasMet c = s.hasMet c := by
  rw [Bool.eq_iff_iff, hasMet_iff, hasMet_iff, h.underWay c, h.result c]
  simp

/-- Changing the result of one class. -/
theorem modify_revises (s : Session) (a : Symbol) (g : Computed → Computed) :
    s.Revises (fun c r => if c = a then g r else r) (s.modify a g) := by
  unfold modify
  split
  · next r hr =>
    refine ⟨rfl, rfl, rfl, fun c => ?_, fun c => ?_⟩
    · show (s.progress.insert a (.done (g r))).find? c = _ ↔ _
      rw [Table.find?_insert]
      split
      · next hac =>
        subst hac
        have hnot : s.progress.find? a ≠ some .underWay := by
          intro h
          rw [result?, h] at hr
          cases hr
        simp [hnot]
      · rfl
    · rw [result?_finish]
      by_cases hac : a = c
      · subst hac
        simp [hr]
      · simp [hac, Ne.symm hac]
  · next hr =>
    refine ⟨rfl, rfl, rfl, fun c => Iff.rfl, fun c => ?_⟩
    by_cases hca : c = a
    · subst hca
      simp [hr]
    · simp [hca]

/-- Changing the results of several classes, each of which is named
once. -/
theorem modifyEach_revises (f : Symbol → Computed → Computed)
    {l : List Symbol} (hl : l.Nodup) (s : Session) :
    s.Revises (fun c r => if c ∈ l then f c r else r) (modifyEach f l s) := by
  induction l generalizing s with
  | nil =>
      exact ⟨rfl, rfl, rfl, fun _ => Iff.rfl, fun _ => by simp [modifyEach]⟩
  | cons a rest ih =>
      obtain ⟨ha, hrest⟩ := List.nodup_cons.mp hl
      have h₁ := modify_revises s a (f a)
      have h₂ := ih hrest (s.modify a (f a))
      refine ⟨h₂.order.trans h₁.order, h₂.expanded.trans h₁.expanded,
        h₂.seeds.trans h₁.seeds,
        fun c => (h₂.underWay c).trans (h₁.underWay c), fun c => ?_⟩
      rw [modifyEach, h₂.result c, h₁.result c, Option.map_map]
      congr 1
      funext r
      by_cases hca : c = a
      · subst hca
        simp [ha]
      · simp [hca]

/-- Changing results changes nothing else. -/
theorem modifyEach_eq (f : Symbol → Computed → Computed) (l : List Symbol)
    (s : Session) :
    ∃ progress, modifyEach f l s = { s with progress := progress } := by
  induction l generalizing s with
  | nil => exact ⟨s.progress, rfl⟩
  | cons a rest ih =>
      obtain ⟨progress, h⟩ := ih (s.modify a (f a))
      refine ⟨progress, h.trans ?_⟩
      unfold modify
      split <;> rfl

/-- So it leaves the import tables. -/
theorem imports_modifyEach (f : Symbol → Computed → Computed)
    (l : List Symbol) (s : Session) :
    (modifyEach f l s).imports = s.imports := by
  obtain ⟨progress, h⟩ := modifyEach_eq f l s
  rw [h]

/-- One revision after another. -/
theorem Revises.trans {u : Session} {g : Symbol → Computed → Computed}
    (h : s.Revises f t) (h' : t.Revises g u) :
    s.Revises (fun c r => g c (f c r)) u := by
  refine ⟨h'.order.trans h.order, h'.expanded.trans h.expanded,
    h'.seeds.trans h.seeds, fun c => (h'.underWay c).trans (h.underWay c),
    fun c => ?_⟩
  rw [h'.result, h.result, Option.map_map]
  rfl

/-- A revision told in other words. -/
theorem Revises.congr {g : Symbol → Computed → Computed} (h : s.Revises f t)
    (hfg : ∀ c r, s.result? c = some r → f c r = g c r) : s.Revises g t := by
  refine ⟨h.order, h.expanded, h.seeds, h.underWay, fun c => ?_⟩
  rw [h.result]
  cases hr : s.result? c with
  | none => rfl
  | some r => exact congrArg some (hfg c r hr)

/-- The change keeps what makes results right. -/
structure Faithful (f : Symbol → Computed → Computed) : Prop where
  committed : ∀ c r, (f c r).committed = r.committed
  isAlias : ∀ c r, (f c r).isAlias = r.isAlias
  classes : ∀ c r, (f c r).classes.Sublist r.classes
  tells : ∀ c r, r.Tells → (f c r).Tells

/-- Changing the results of some classes only. -/
theorem Faithful.onSome (h : Faithful f) (l : List Symbol) :
    Faithful fun c r => if c ∈ l then f c r else r := by
  constructor
  case committed =>
    intro c r
    split
    · exact h.committed c r
    · rfl
  case isAlias =>
    intro c r
    split
    · exact h.isAlias c r
    · rfl
  case classes =>
    intro c r
    split
    · exact h.classes c r
    · exact .refl _
  case tells =>
    intro c r
    split
    · exact h.tells c r
    · exact fun hr => hr

/-- Noting that results are dealt with keeps them. -/
theorem faithful_applied : Faithful fun _ r => { r with applied := true } :=
  ⟨fun _ _ => rfl, fun _ _ => rfl, fun _ _ => .refl _, fun _ _ hr => hr⟩

end Session

-- ========================================================= breaking cycles

section Cut

variable {f g : Reference → Bool} {rs : List Reference} {x : Reference}
  {b : Symbol}

/-- Cutting goes through the references one by one. -/
theorem cut_eq (f : Reference → Bool) (rs : List Reference) :
    cut f rs = (rs.map fun x => if f x then ⟨.any, x.written⟩ else x,
      (rs.filter f).map cycleError) := by
  induction rs with
  | nil => rfl
  | cons x rest ih =>
      unfold cut
      rw [ih]
      cases hx : f x <;> simp [hx]

/-- It depends on what is to be cut among them. -/
theorem cut_congr (h : ∀ x ∈ rs, f x = g x) : cut f rs = cut g rs := by
  rw [cut_eq, cut_eq, List.filter_congr h]
  exact congrArg (·, _) (List.map_congr_left fun x hx => by rw [h x hx])

/-- What is left of the references, and what takes the place of the
others. -/
theorem mem_cut (hx : x ∈ (cut f rs).1) :
    x ∈ rs ∧ f x = false ∨ x.type = .any := by
  rw [cut_eq] at hx
  obtain ⟨y, hy, rfl⟩ := List.mem_map.mp hx
  split
  · exact Or.inr rfl
  · next hkept => exact Or.inl ⟨hy, Bool.eq_false_iff.mpr hkept⟩

/-- References to classes are left, not put in the place of others. -/
theorem mem_cut_of_class (hx : x ∈ (cut f rs).1)
    (hb : x.type.class? = some b) : x ∈ rs ∧ f x = false := by
  refine (mem_cut hx).resolve_right fun hany => ?_
  rw [hany] at hb
  cases hb

/-- So no class is referred to that was not before. -/
theorem classes_cut (f : Reference → Bool) (rs : List Reference) :
    (Reference.classes (cut f rs).1).Sublist (Reference.classes rs) := by
  induction rs with
  | nil => exact .refl _
  | cons r rest ih =>
      unfold cut
      rw [Reference.classes_cons]
      dsimp only
      split
      · -- what takes the place of a reference is not a class
        exact ih.trans (List.sublist_append_right ..)
      · rw [Reference.classes_cons]
        exact ih.append_left _

/-- A result of which nothing is to be cut stays as it is. -/
theorem Computed.without_eq_self {r : Computed}
    (h : ∀ x ∈ r.references, f x = false) : r.without f = r := by
  have hmap : r.references.map (fun x => if f x = true then
      (⟨.any, x.written⟩ : Reference) else x) = r.references :=
    (List.map_congr_left fun x hx => by rw [h x hx]; rfl).trans (List.map_id _)
  have hfilter : r.references.filter f = [] :=
    List.filter_eq_nil_iff.mpr fun x hx => by rw [h x hx]; exact nofun
  unfold Computed.without
  rw [cut_eq, hmap, hfilter]
  split
  · simp
  · rfl

/-- Otherwise it depends on what is to be cut among its references. -/
theorem Computed.without_congr {r : Computed}
    (h : ∀ x ∈ r.references, f x = g x) : r.without f = r.without g := by
  unfold Computed.without
  rw [cut_congr h]

end Cut

namespace Session

variable {s t : Session} {a b c : Symbol} {f : Symbol → Computed → Computed}

/-- Whether a reference of a class closes a cycle: it refers to a class of the
session that leads back to the class. -/
def closesCycle (s : Session) (a : Symbol) (x : Reference) : Bool :=
  match x.type.class? with
  | some b => s.order.contains b && (s.graph.reach b).contains a
  | none => false

/-- The result of a class without the references that close a cycle. -/
def cutResult (s : Session) (a : Symbol) (r : Computed) : Computed :=
  r.without (s.closesCycle a)

/-- What breaking the cycles within one component makes of the result of a
member. -/
def cutWithin (g : Graph Symbol) (members : List Symbol) (r : Computed) :
    Computed :=
  if g.isCycle members then
    r.without fun x => x.type.class?.any members.contains
  else r

/-- What breaking the cycles within several components makes of a result. -/
def cutAlong (g : Graph Symbol) (parts : List (List Symbol)) (c : Symbol)
    (r : Computed) : Computed :=
  match parts.find? (·.contains c) with
  | some members => cutWithin g members r
  | none => r

/-- One component after the other. -/
theorem foldl_breakComponent_revises (g : Graph Symbol)
    {parts : List (List Symbol)} (hparts : parts.flatten.Nodup) (s : Session) :
    s.Revises (cutAlong g parts) (parts.foldl (breakComponent g) s) := by
  induction parts generalizing s with
  | nil =>
      refine ⟨rfl, rfl, rfl, fun _ => Iff.rfl, fun c => ?_⟩
      exact (congrFun Option.map_id (s.result? c)).symm
  | cons members rest ih =>
      rw [List.flatten_cons] at hparts
      obtain ⟨hmembers, hrest, hapart⟩ := List.nodup_append.mp hparts
      have hfirst : s.Revises (fun c r => if c ∈ members then
          cutWithin g members r else r) (breakComponent g s members) := by
        unfold breakComponent cutWithin
        split
        · exact modifyEach_revises _ hmembers s
        · exact ⟨rfl, rfl, rfl, fun _ => Iff.rfl, fun _ => by simp⟩
      refine (hfirst.trans (ih hrest _)).congr fun c r _ => ?_
      unfold cutAlong
      by_cases hc : c ∈ members
      · -- no other component has the class as a member
        have hnone : rest.find? (·.contains c) = none := by
          refine List.find?_eq_none.mpr fun part hpart hmem => ?_
          exact hapart c hc c (List.mem_flatten_of_mem hpart
            (List.contains_iff_mem.mp hmem)) rfl
        have hfirst : (members :: rest).find? (·.contains c) = some members :=
          List.find?_cons_of_pos (List.contains_iff_mem.mpr hc)
        rw [hfirst, hnone, if_pos hc]
      · have hlater : (members :: rest).find? (·.contains c) =
            rest.find? (·.contains c) :=
          List.find?_cons_of_neg fun h => hc (List.contains_iff_mem.mp h)
        rw [hlater, if_neg hc]

/-- A reference of a class leads to a member of its component just if it
closes a cycle. -/
theorem contains_eq_closesCycle {parts : List (List Symbol)}
    (hparts : s.graph.Splits parts) {members : List Symbol}
    (hmembers : members ∈ parts) (ha : a ∈ members) {r : Computed}
    (hr : s.result? a = some r) {x : Reference} (hx : x ∈ r.references) :
    x.type.class?.any members.contains = s.closesCycle a x := by
  unfold closesCycle
  cases hclass : x.type.class? with
  | none => rfl
  | some b =>
      rw [Option.any_some, Bool.eq_iff_iff, Bool.and_eq_true,
        List.contains_iff_mem, List.contains_iff_mem, List.contains_iff_mem,
        hparts.linked members hmembers a ha b]
      refine and_congr_right fun hb => ?_
      rw [Graph.mem_reach_iff hb]
      have hedge : s.graph.Edge a b := by
        refine List.mem_filter.mpr ⟨?_, List.contains_iff_mem.mpr hb⟩
        rw [classes, hr]
        exact Computed.mem_classes_iff.mpr ⟨x, hx, hclass⟩
      exact and_iff_right (.single hedge)

/-- What breaking cycles along components makes of a result is what is left
without the references that close a cycle. -/
theorem cutAlong_eq {parts : List (List Symbol)}
    (hparts : s.graph.Splits parts) {r : Computed} (ha : a ∈ s.order)
    (hr : s.result? a = some r) :
    cutAlong s.graph parts a r = s.cutResult a r := by
  obtain ⟨part, hpart, hmem⟩ := hparts.covers a ha
  obtain ⟨members, hfind⟩ : ∃ members,
      parts.find? (·.contains a) = some members :=
    Option.isSome_iff_exists.mp (List.find?_isSome.mpr
      ⟨part, hpart, List.contains_iff_mem.mpr hmem⟩)
  have hmembers := List.mem_of_find?_eq_some hfind
  have ha : a ∈ members :=
    List.contains_iff_mem.mp (List.find?_some
      (p := fun l : List Symbol => l.contains a) hfind)
  have hcloses := fun x hx =>
    contains_eq_closesCycle hparts hmembers ha hr (x := x) hx
  unfold cutAlong cutWithin cutResult
  rw [hfind]
  dsimp only
  split
  · exact Computed.without_congr hcloses
  · next hcycle =>
    -- a reference that closes a cycle is an edge within the component
    refine (Computed.without_eq_self fun x hx => ?_).symm
    refine Bool.eq_false_iff.mpr fun hclose => hcycle ?_
    rw [← hcloses x hx] at hclose
    obtain ⟨b, hclass, hb⟩ := (Option.any_eq_true ..).mp hclose
    have hb := List.contains_iff_mem.mp hb
    refine Graph.isCycle_of_linked hparts hmembers ha hb ?_
    refine List.mem_filter.mpr ⟨?_, List.contains_iff_mem.mpr
      ((hparts.linked members hmembers a ha b).mp hb).1⟩
    rw [classes, hr]
    exact Computed.mem_classes_iff.mpr ⟨x, hx, hclass⟩

/-- Breaking cycles leaves every class without the references that close one,
however the components are found. -/
theorem Listed.breakCyclesBy (h : s.Listed)
    {components : Graph Symbol → List (List Symbol)}
    (hparts : s.graph.Splits (components s.graph)) :
    s.Revises s.cutResult (s.breakCyclesBy components) := by
  refine (foldl_breakComponent_revises s.graph hparts.nodup s).congr
    fun c r hr => cutAlong_eq hparts ?_ hr
  exact (h.met c).mpr (hasMet_iff.mpr (Or.inr ⟨r, hr⟩))

/-- So it does with the components that are found by search. -/
theorem Listed.breakCycles (h : s.Listed) :
    s.Revises s.cutResult s.breakCycles :=
  h.breakCyclesBy (Graph.splits_components h.nodup)

/-- What changing results keeps, breaking cycles keeps. -/
theorem breakCyclesBy_keeps {P : Session → Prop}
    (hP : ∀ f l t, P t → P (modifyEach f l t)) (hs : P s)
    (components : Graph Symbol → List (List Symbol)) :
    P (s.breakCyclesBy components) := by
  have hfold : ∀ (g : Graph Symbol) (parts : List (List Symbol)) (t : Session),
      P t → P (parts.foldl (breakComponent g) t) := by
    intro g parts
    induction parts with
    | nil => exact fun _ ht => ht
    | cons members rest ih =>
        refine fun t ht => ih _ ?_
        unfold breakComponent
        split
        · exact hP _ _ _ ht
        · exact ht
  exact hfold s.graph (components s.graph) s hs

/-- It changes results and nothing else. -/
theorem breakCyclesBy_eq (components : Graph Symbol → List (List Symbol))
    (s : Session) :
    ∃ progress, s.breakCyclesBy components = { s with progress := progress } := by
  refine breakCyclesBy_keeps (P := fun t => ∃ progress, t =
    { s with progress := progress }) ?_ ⟨s.progress, rfl⟩ components
  rintro f l t ⟨progress, rfl⟩
  obtain ⟨progress', h⟩ := modifyEach_eq f l { s with progress := progress }
  exact ⟨progress', h⟩

/-- So it leaves the import tables. -/
theorem imports_breakCycles (s : Session) :
    s.breakCycles.imports = s.imports := by
  obtain ⟨progress, h⟩ := breakCyclesBy_eq Graph.components s
  rw [breakCycles, h]

/-- A result that is pending was pending before cycles were broken. -/
theorem isPending_cutResult (s : Session) (c : Symbol) (r : Computed) :
    (s.cutResult c r).isPending = r.isPending := by
  unfold cutResult Computed.without
  split
  · next h => exact h.symm ▸ h
  · rfl

/-- A result that is not pending is left as it is. -/
theorem cutResult_of_not_pending (c : Symbol) {r : Computed}
    (h : r.isPending = false) : s.cutResult c r = r := by
  unfold cutResult Computed.without
  rw [h]
  rfl

/-- One that is pending has the references that close a cycle replaced, and
each of them reported. -/
theorem cutResult_of_pending (c : Symbol) {r : Computed}
    (h : r.isPending = true) : s.cutResult c r =
      { r with
        references := r.references.map fun x =>
          if s.closesCycle c x then ⟨.any, x.written⟩ else x
        errors := r.errors ++
          (r.references.filter (s.closesCycle c)).map cycleError } := by
  unfold cutResult Computed.without
  rw [h, cut_eq]
  rfl

/-- Cutting cycles keeps what makes results right. -/
theorem faithful_cutResult (s : Session) : Faithful s.cutResult := by
  constructor
  case committed =>
    intro c r
    unfold cutResult Computed.without
    split <;> rfl
  case isAlias =>
    intro c r
    unfold cutResult Computed.without
    split <;> rfl
  case classes =>
    intro c r
    unfold cutResult Computed.without
    split
    · exact classes_cut _ r.references
    · exact .refl _
  case tells =>
    intro c r hr
    unfold cutResult Computed.without
    split
    · intro x hx
      rcases mem_cut hx with ⟨hx, -⟩ | hany
      · exact (hr x hx).append_left _
      · rw [hany]
        exact nofun
    · exact hr

/-- References stay followed when results are revised. -/
theorem Followed.revises {work : List Symbol} (h : s.Followed work)
    (hf : Faithful f) (ht : s.Revises f t) : t.Followed work := by
  refine ⟨fun c hc => h.idle c ((ht.underWay c).mp hc),
    by rw [ht.expanded, ht.order]; exact h.expanded, ?_⟩
  intro c r hr hcommitted b hb
  rw [ht.result c] at hr
  obtain ⟨r', hr', rfl⟩ := Option.map_eq_some_iff.mp hr
  rw [hf.committed] at hcommitted
  rw [ht.hasMet]
  exact h.classes c r' hr' hcommitted b ((hf.classes c r').subset hb)

end Session

namespace World

/-- A faithful change keeps results right. -/
theorem Justified.faithful {w : World} {f : Symbol → Computed → Computed}
    {c : Symbol} {r : Computed} (h : w.Justified c r)
    (hf : Session.Faithful f) : w.Justified c (f c r) := by
  refine ⟨fun hr => h.committed (hf.committed c r ▸ hr), fun hr => ?_,
    fun b hb => h.classes b ((hf.classes c r).subset hb),
    h.width.mono (hf.classes c r).length_le,
    fun hr => hf.tells c r (h.tells (hf.committed c r ▸ hr))⟩
  rw [hf.isAlias]
  exact h.pending (hf.committed c r ▸ hr)

/-- A session whose results are revised still remembers nothing wrong. -/
theorem Remembers.revises {w : World} {t : Session}
    {f : Symbol → Computed → Computed} (hw : w.Remembers)
    (hf : Session.Faithful f) (ht : w.session.Revises f t)
    (himports : t.imports = w.session.imports) :
    Remembers { w with session := t } := by
  constructor
  case listed =>
    intro c
    show c ∈ t.order ↔ t.hasMet c = true
    rw [ht.order, ht.hasMet]
    exact hw.listed c
  case nodup =>
    show t.order.Nodup
    rw [ht.order]
    exact hw.nodup
  case known =>
    intro c hc
    have hc : t.hasMet c = true := hc
    rw [ht.hasMet] at hc
    exact hw.known c hc
  case result =>
    intro c r hr
    have hr : t.result? c = some r := hr
    rw [ht.result c] at hr
    obtain ⟨r', hr', rfl⟩ := Option.map_eq_some_iff.mp hr
    exact lasting_justified c _ w _ (.of_eq rfl rfl (Nat.le_refl _))
      ((hw.result c r' hr').faithful hf)
  case imports =>
    intro id table htable
    have htable : t.imports.find? id = some table := htable
    rw [himports] at htable
    exact hw.imports id table htable

end World

end StagedResolve
