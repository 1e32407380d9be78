/-
Sources: when a unit is built that was announced, and what a look-up leaves
to do.

# A look-up is done once

A look-up that does not find a classifier withdraws the source that
promises it, if there is one, with all that the source promises. So
afterwards either the classifier is declared or nothing promises it, and
looking it up again finds the same and builds nothing
(`Registry.classifier_again`). What was found stays found as long as the
unit is there that declares it, because the table of classifiers says no
more and no less than the units do; and a unit goes only if a call puts
another one in its place (`Call.retires`).

# A source is built once

A source has a number that is not used again. A look-up tells the path of the
source that it builds and nothing if it builds none, and `Registry.builds?`
is the number of that source (`Registry.built_classifier`,
`Registry.classifier_of_builds?_eq_none`). `Registry.Builds` follows these
numbers on the way from one registry to another, whatever the operations
are. A source that is built is awaited
before and not afterwards, and only announcing makes one awaited, under a
new number; so no number comes twice, and the numbers are those of the
sources that were awaited and are not any more (`Registry.Builds.tally`).
A request looks classifiers up and does nothing else to the registry, so
all histories are such ways (`Reaches.through_builds`).
-/
import StagedResolve.Proofs.Indexes

namespace StagedResolve

open StagedResolve.Action World

namespace Registry

variable {r s t : Registry} {k : NameKey}

-- ======================================================= numbers, promises

/-- The source with a number is still to be built. -/
def Awaits (r : Registry) (n : Nat) : Prop := (r.pending.find? n).isSome

/-- A key is promised once, and sources have numbers that were given out. -/
structure Numbered (r : Registry) : Prop where
  once : r.pendingIndex.KeysOnce
  issued : ∀ n, r.Awaits n → n < r.nextSource

/-- A registry without sources is numbered. -/
theorem numbered_empty : empty.Numbered where
  once := Table.keysOnce_empty
  issued := fun _ h => nomatch h

/-- No source was built or announced, and promises were dropped at most. -/
structure Idles (r s : Registry) : Prop where
  pending : s.pending = r.pending
  next : s.nextSource = r.nextSource
  promises : ∃ found, s.pendingIndex = dropPromises found r.pendingIndex

/-- Accepting a unit drops promises. -/
theorem idles_accept (r : Registry) (u : CompilationUnit) :
    r.Idles (r.accept u) := ⟨rfl, rfl, u.classifiers, rfl⟩

/-- What does not touch sources and promises drops none. -/
theorem Idles.of_eq (hpending : s.pending = r.pending)
    (hnext : s.nextSource = r.nextSource)
    (hindex : s.pendingIndex = r.pendingIndex) : r.Idles s :=
  ⟨hpending, hnext, [], hindex⟩

/-- Building a unit is no business of sources. -/
theorem idles_addUnit (r : Registry) (draft : Draft) :
    r.Idles (r.addUnit draft).2 := by
  rcases r.addUnit_cases draft with ⟨-, h⟩ | ⟨-, e, h⟩
  · rw [h]
    exact r.idles_accept _
  · rw [h]
    exact .of_eq rfl rfl rfl

/-- Nor is replacing one. -/
theorem idles_replaceUnit (r : Registry) (old : UnitId) (draft : Draft) :
    r.Idles (r.replaceUnit old draft).2 := by
  rcases r.replaceUnit_cases old draft with
    ⟨-, h⟩ | ⟨previous, u, -, -, ⟨-, h⟩ | ⟨-, e, h⟩⟩
  · rw [h]
    exact .of_eq rfl rfl rfl
  · rw [h]
    obtain ⟨hpending, hnext, hpromises⟩ := (r.remove previous).idles_accept u
    exact ⟨hpending, hnext, hpromises⟩
  · rw [h]
    exact .of_eq rfl rfl rfl

/-- Dropping promises makes no key occur twice. -/
theorem keysOnce_dropPromises {found : List (QualifiedName × Symbol)}
    {index : Table NameKey Nat} (h : index.KeysOnce) :
    (dropPromises found index).KeysOnce := by
  induction found generalizing index with
  | nil => exact h
  | cons entry rest ih => exact ih (h.filter _)

/-- Dropping promises makes none. -/
theorem find?_dropPromises {found : List (QualifiedName × Symbol)}
    {index : Table NameKey Nat} (h : index.find? k = none) :
    (dropPromises found index).find? k = none := by
  induction found generalizing index with
  | nil => exact h
  | cons entry rest ih =>
      refine ih ?_
      rw [Table.find?_erase, h, ite_self]

/-- A source takes all its promises along. -/
theorem Numbered.find?_withdrawn (hr : r.Numbered) {n : Nat}
    (h : r.pendingIndex.find? k = some n) :
    (r.pendingIndex.filter fun _ n' => n' ≠ n).find? k = none := by
  cases hfind : (r.pendingIndex.filter fun _ n' => n' ≠ n).find? k with
  | none => rfl
  | some m =>
      obtain ⟨hm, hne⟩ := (Table.find?_filter hr.once _).mp hfind
      rw [h] at hm
      cases hm
      exact absurd rfl (of_decide_eq_true hne)

/-- Where nothing is built or announced, numbers stay as they are. -/
theorem Numbered.idles (hr : r.Numbered) (h : r.Idles s) : s.Numbered := by
  obtain ⟨found, hfound⟩ := h.promises
  refine ⟨hfound ▸ keysOnce_dropPromises hr.once, fun n hn => ?_⟩
  rw [h.next]
  refine hr.issued n ?_
  rwa [Awaits, ← h.pending]

/-- Withdrawing a source leaves the others. -/
theorem awaits_withdraw {n m : Nat} :
    (r.withdraw n).Awaits m ↔ r.Awaits m ∧ m ≠ n := by
  have hfind : (r.withdraw n).pending.find? m =
      if n = m then none else r.pending.find? m := Table.find?_erase ..
  rw [Awaits, hfind]
  by_cases h : n = m
  · simp [h]
  · simp [h, Awaits, Ne.symm h]

/-- A source may be withdrawn. -/
theorem Numbered.withdraw (hr : r.Numbered) (n : Nat) :
    (r.withdraw n).Numbered :=
  ⟨hr.once.filter _, fun m hm => hr.issued m (awaits_withdraw.mp hm).1⟩

/-- A classifier may be looked up. -/
theorem Numbered.classifier (hr : r.Numbered) (k : NameKey) :
    (r.classifier k).registry.Numbered := by
  rcases r.classifier_cases k with hs | ⟨n, hs⟩ | ⟨n, source, -, hs⟩
  · rw [hs]
    exact hr
  · rw [hs]
    exact ⟨hr.once.filter _, hr.issued⟩
  · rw [hs]
    exact (hr.withdraw n).idles (idles_addUnit _ _)

/-- Promising makes no key occur twice. -/
theorem keysOnce_promise {n : Nat} {names : List QualifiedName}
    (h : r.pendingIndex.KeysOnce) :
    (promise n names r).pendingIndex.KeysOnce := by
  induction names generalizing r with
  | nil => exact h
  | cons name rest ih => exact ih (h.insert _ _)

/-- Announcing a unit gives out one number, and its source is awaited. -/
theorem awaits_addSource {path : String} {declares : List QualifiedName}
    {draft : Draft} {n : Nat} :
    (r.addSource path declares draft).Awaits n ↔
      n = r.nextSource ∨ r.Awaits n := by
  obtain ⟨packages, index, h⟩ := r.addSource_eq path declares draft
  rw [h, Awaits, Table.find?_insert]
  split
  · next heq => simp [heq]
  · next hne => simp [Ne.symm hne, Awaits]

/-- The next number is one more. -/
theorem nextSource_addSource {path : String} {declares : List QualifiedName}
    {draft : Draft} : (r.addSource path declares draft).nextSource =
      r.nextSource + 1 := by
  obtain ⟨packages, index, h⟩ := r.addSource_eq path declares draft
  rw [h]

/-- A unit may be announced. -/
theorem Numbered.addSource (hr : r.Numbered) (path : String)
    (declares : List QualifiedName) (draft : Draft) :
    (r.addSource path declares draft).Numbered := by
  refine ⟨keysOnce_promise (r := { r with nextSource := r.nextSource + 1 })
    hr.once, fun n hn => ?_⟩
  rw [nextSource_addSource]
  rcases awaits_addSource.mp hn with rfl | hn
  · exact Nat.lt_succ_self _
  · exact Nat.lt_succ_of_lt (hr.issued n hn)

/-- Every operation keeps a registry numbered. -/
theorem Numbered.alters (hr : r.Numbered) (hs : r.Alters s) : s.Numbered := by
  cases hs with
  | same => exact hr
  | addUnit spec d => exact hr.idles (r.idles_addUnit d)
  | replaceUnit old spec d => exact hr.idles (r.idles_replaceUnit old d)
  | addSource path declares spec d => exact hr.addSource path declares d
  | lookUp k => exact hr.classifier k

-- ======================================================== looking up again

/-- After a look-up the classifier is declared, if it was found, or nothing
promises it. -/
theorem Numbered.settles (hr : r.Numbered) (k : NameKey) :
    (r.classifier k).registry.classifiers.find? k = (r.classifier k).answer ∧
      ((r.classifier k).answer = none →
        (r.classifier k).registry.pendingIndex.find? k = none) := by
  cases hk : r.classifiers.find? k with
  | some c =>
      rw [classifier_of_declared hk]
      exact ⟨hk, fun h => nomatch h⟩
  | none =>
      cases hpromise : r.pendingIndex.find? k with
      | none =>
          rw [classifier_of_unpromised hk hpromise]
          exact ⟨hk, fun _ => hpromise⟩
      | some n =>
          have hdropped := hr.find?_withdrawn hpromise
          cases hsource : r.pending.find? n with
          | none =>
              rw [classifier_of_sourceless hk hpromise hsource]
              exact ⟨hk, fun _ => hdropped⟩
          | some source =>
              obtain ⟨hregistry, hanswer⟩ :=
                classifier_of_promised hk hpromise hsource
              rw [hregistry, hanswer]
              rcases (r.withdraw n).addUnit_cases source.draft with
                ⟨-, h⟩ | ⟨-, e, h⟩
              · rw [h]
                exact ⟨rfl, fun _ => find?_dropPromises hdropped⟩
              · rw [h]
                exact ⟨hk, fun _ => hdropped⟩

/-- Looking a classifier up again finds what was found, changes nothing and
builds nothing. -/
theorem Numbered.classifier_again (hr : r.Numbered) (k : NameKey) :
    (r.classifier k).registry.classifier k =
      ⟨(r.classifier k).answer, (r.classifier k).registry, none⟩ := by
  obtain ⟨hfind, hpromise⟩ := hr.settles k
  cases h : (r.classifier k).answer with
  | some c =>
      rw [h] at hfind
      exact classifier_of_declared hfind
  | none =>
      rw [h] at hfind
      exact classifier_of_unpromised hfind (hpromise h)

/-- What was found is found as long as its unit is there. -/
theorem Indexed.classifier_kept (hr : r.Indexed) (hs : s.Indexed)
    {c : Symbol} (hk : r.classifiers.find? k = some c)
    (hkept : ∀ u, r.unit? c.unit = some u → s.unit? c.unit = some u) :
    s.classifier k = ⟨some c, s, none⟩ := by
  obtain ⟨u, hu, hlast⟩ := (hr.entry k c).mp hk
  exact classifier_of_declared ((hs.entry k c).mpr ⟨u, hkept u hu, hlast⟩)

-- ========================================================= built on the way

/-- The number of the source that a look-up of the key builds. -/
def builds? (r : Registry) (k : NameKey) : Option Nat :=
  match r.classifiers.find? k with
  | some _ => none
  | none => (r.pendingIndex.find? k).filter fun n => r.pending.contains n

/-- It is the awaited source that promises a classifier which is not
declared. -/
theorem builds?_eq_some_iff {n : Nat} : r.builds? k = some n ↔
    r.classifiers.find? k = none ∧ r.pendingIndex.find? k = some n ∧
      r.Awaits n := by
  unfold builds?
  cases r.classifiers.find? k with
  | some c => simp
  | none =>
      simp only [Option.filter_eq_some_iff, true_and]
      exact Iff.rfl

/-- A look-up that builds no source tells of none and leaves them all. -/
theorem classifier_of_builds?_eq_none (h : r.builds? k = none) :
    (r.classifier k).built = none ∧
      (r.classifier k).registry.pending = r.pending ∧
      (r.classifier k).registry.nextSource = r.nextSource := by
  cases hk : r.classifiers.find? k with
  | some c =>
      rw [classifier_of_declared hk]
      exact ⟨rfl, rfl, rfl⟩
  | none =>
      cases hpromise : r.pendingIndex.find? k with
      | none =>
          rw [classifier_of_unpromised hk hpromise]
          exact ⟨rfl, rfl, rfl⟩
      | some n =>
          cases hsource : r.pending.find? n with
          | none =>
              rw [classifier_of_sourceless hk hpromise hsource]
              exact ⟨rfl, rfl, rfl⟩
          | some source =>
              have hbuilds : r.builds? k = some n :=
                builds?_eq_some_iff.mpr ⟨hk, hpromise, by
                  rw [Awaits, hsource]
                  rfl⟩
              rw [h] at hbuilds
              cases hbuilds

/-- One that builds a source tells its path. -/
theorem built_classifier {n : Nat} {source : PendingSource}
    (h : r.builds? k = some n) (hsource : r.pending.find? n = some source) :
    (r.classifier k).built = some source.path := by
  obtain ⟨hk, hpromise, -⟩ := builds?_eq_some_iff.mp h
  unfold Registry.classifier materialize
  simp only [hk, hpromise, hsource]
  split <;> rfl

/-- A source that a look-up builds is awaited before and not afterwards. -/
theorem awaits_classifier (r : Registry) (k : NameKey) :
    (∀ n, (r.classifier k).registry.Awaits n ↔
      r.Awaits n ∧ n ∉ (r.builds? k).toList) ∧
    (∀ n ∈ (r.builds? k).toList, r.Awaits n) ∧
    (r.classifier k).registry.nextSource = r.nextSource := by
  cases h : r.builds? k with
  | none =>
      obtain ⟨-, hpending, hnext⟩ := classifier_of_builds?_eq_none h
      refine ⟨fun n => ?_, (fun n hn => nomatch hn), hnext⟩
      rw [Awaits, hpending]
      exact (and_iff_left List.not_mem_nil).symm
  | some m =>
      obtain ⟨hk, hpromise, hawaits⟩ := builds?_eq_some_iff.mp h
      obtain ⟨source, hsource⟩ := Option.isSome_iff_exists.mp hawaits
      have hidles := (r.withdraw m).idles_addUnit source.draft
      rw [(classifier_of_promised hk hpromise hsource).1]
      simp only [Option.toList_some, List.mem_singleton]
      refine ⟨fun n => ?_, fun n hn => hn ▸ hawaits, hidles.next⟩
      rw [Awaits, hidles.pending]
      exact awaits_withdraw

/-- Operations lead from one registry to another, and the sources with these
numbers are built on the way. -/
inductive Builds (r : Registry) : List Nat → Registry → Prop where
  | refl : Builds r [] r
  | addUnit {built : List Nat} {s : Registry} (h : Builds r built s)
      (draft : Draft) : Builds r built (s.addUnit draft).2
  | replaceUnit {built : List Nat} {s : Registry} (h : Builds r built s)
      (old : UnitId) (draft : Draft) :
      Builds r built (s.replaceUnit old draft).2
  | addSource {built : List Nat} {s : Registry} (h : Builds r built s)
      (path : String) (declares : List QualifiedName) (draft : Draft) :
      Builds r built (s.addSource path declares draft)
  | lookUp {built : List Nat} {s : Registry} (h : Builds r built s)
      (k : NameKey) :
      Builds r (built ++ (s.builds? k).toList) (s.classifier k).registry

/-- One way after another. -/
theorem Builds.trans {first second : List Nat} (h : r.Builds first s)
    (h' : s.Builds second t) : r.Builds (first ++ second) t := by
  induction h' with
  | refl => rwa [List.append_nil]
  | addUnit _ draft ih => exact ih.addUnit draft
  | replaceUnit _ old draft ih => exact ih.replaceUnit old draft
  | addSource _ path declares draft ih => exact ih.addSource path declares draft
  | lookUp _ k ih =>
      rw [← List.append_assoc]
      exact ih.lookUp k

/-- What becomes of the sources on the way. A source that was awaited or has
been announced is built or awaited still, but not both, and it is built once
at most. -/
structure Tally (r : Registry) (built : List Nat) (s : Registry) : Prop where
  next : r.nextSource ≤ s.nextSource
  once : built.Nodup
  apart : ∀ n ∈ built, ¬ s.Awaits n
  all : ∀ n, n ∈ built ∨ s.Awaits n ↔
    r.Awaits n ∨ r.nextSource ≤ n ∧ n < s.nextSource

/-- Nothing is built where nothing happens to the sources. -/
theorem Tally.idles {built : List Nat} (h : Tally r built s)
    (hidles : s.Idles t) : Tally r built t := by
  have hawaits : ∀ n, t.Awaits n ↔ s.Awaits n := fun n => by
    rw [Awaits, Awaits, hidles.pending]
  refine ⟨hidles.next ▸ h.next, h.once, fun n hn => ?_, fun n => ?_⟩
  · rw [hawaits]
    exact h.apart n hn
  · rw [hawaits, hidles.next]
    exact h.all n

/-- Announcing makes one more source awaited. -/
theorem Tally.addSource {built : List Nat} (h : Tally r built s)
    (hr : r.Numbered) (path : String) (declares : List QualifiedName)
    (draft : Draft) : Tally r built (s.addSource path declares draft) := by
  have hissued : ∀ n, r.Awaits n → n < s.nextSource := fun n hn =>
    Nat.lt_of_lt_of_le (hr.issued n hn) h.next
  refine ⟨?_, h.once, fun n hn => ?_, fun n => ?_⟩
  · rw [nextSource_addSource]
    exact Nat.le_succ_of_le h.next
  · -- what was built has an old number
    have hlt : n < s.nextSource :=
      ((h.all n).mp (Or.inl hn)).elim (hissued n) And.right
    rw [awaits_addSource]
    rintro (rfl | hawaits)
    · exact Nat.lt_irrefl _ hlt
    · exact h.apart n hn hawaits
  · rw [awaits_addSource, nextSource_addSource, or_left_comm, h.all]
    constructor
    · rintro (rfl | hn | ⟨hle, hlt⟩)
      · exact Or.inr ⟨h.next, Nat.lt_succ_self _⟩
      · exact Or.inl hn
      · exact Or.inr ⟨hle, Nat.lt_succ_of_lt hlt⟩
    · rintro (hn | ⟨hle, hlt⟩)
      · exact Or.inr (Or.inl hn)
      · rcases Nat.lt_succ_iff_lt_or_eq.mp hlt with hlt | heq
        · exact Or.inr (Or.inr ⟨hle, hlt⟩)
        · exact Or.inl heq

/-- A look-up moves the source that it builds from those that are awaited to
those that were built. -/
theorem Tally.lookUp {built : List Nat} (h : Tally r built s) (k : NameKey) :
    Tally r (built ++ (s.builds? k).toList) (s.classifier k).registry := by
  obtain ⟨hawaits, hbuilds, hnext⟩ := s.awaits_classifier k
  refine ⟨hnext ▸ h.next, ?_, fun n hn => ?_, fun n => ?_⟩
  · refine List.nodup_append.mpr ⟨h.once, ?_, ?_⟩
    · cases s.builds? k with
      | none => exact List.nodup_nil
      | some n => exact List.pairwise_singleton _ n
    · rintro n hn m hm rfl
      exact h.apart n hn (hbuilds n hm)
  · rw [hawaits]
    rcases List.mem_append.mp hn with hn | hn
    · exact fun ha => h.apart n hn ha.1
    · exact fun ha => ha.2 hn
  · rw [hnext, ← h.all, List.mem_append, hawaits]
    constructor
    · rintro ((hn | hn) | hn)
      · exact Or.inl hn
      · exact Or.inr (hbuilds n hn)
      · exact Or.inr hn.1
    · rintro (hn | hn)
      · exact Or.inl (Or.inl hn)
      · by_cases hbuilt : n ∈ (s.builds? k).toList
        · exact Or.inl (Or.inr hbuilt)
        · exact Or.inr ⟨hn, hbuilt⟩

/-- On every way from a numbered registry each source is built once at
most. -/
theorem Builds.tally (hr : r.Numbered) {built : List Nat}
    (h : r.Builds built s) : Tally r built s := by
  induction h with
  | refl =>
      refine ⟨Nat.le_refl _, List.nodup_nil, (fun n hn => nomatch hn),
        fun n => ?_⟩
      have hnone : ¬ (r.nextSource ≤ n ∧ n < r.nextSource) := fun h =>
        absurd h.2 (Nat.not_lt_of_le h.1)
      simp only [List.not_mem_nil, false_or, hnone, or_false]
  | @addUnit built s _ draft ih => exact ih.idles (s.idles_addUnit draft)
  | @replaceUnit built s _ old draft ih =>
      exact ih.idles (s.idles_replaceUnit old draft)
  | addSource _ path declares draft ih =>
      exact ih.addSource hr path declares draft
  | lookUp _ k ih => exact ih.lookUp k

end Registry

-- ============================================================ over histories

section histories

variable {setup : Setup} {w : World}

/-- Sources are numbered in every registry that is reached. -/
theorem Reaches.numbered {allowed : World → Call → Prop}
    (hquiet : setup.Quiet) (h : Reaches setup allowed w) :
    w.registry.Numbered :=
  (h.cataloged hquiet Registry.numbered_empty
    fun _ _ _ hr hs => hr.alters hs).2.2

/-- A call does to the registry what operations do to it. -/
theorem Call.builds (hquiet : setup.Quiet) (hw : w.Coherent) (call : Call) :
    ∃ built, w.registry.Builds built (call.run setup w).registry := by
  by_cases hreg : call.Registers
  · have halters := Call.alters setup w hreg
    generalize (call.run setup w).registry = s at halters ⊢
    cases halters with
    | same => exact ⟨_, .refl⟩
    | addUnit spec d => exact ⟨_, .addUnit .refl d⟩
    | replaceUnit old spec d => exact ⟨_, .replaceUnit .refl old d⟩
    | addSource path declares spec d =>
        exact ⟨_, .addSource .refl path declares d⟩
    | lookUp k => exact ⟨_, .lookUp .refl k⟩
  · refine Call.keeps (P := fun r => ∃ built, w.registry.Builds built r) hquiet
      (fun r k _ h => ?_) hw ⟨_, .refl⟩ hreg
    obtain ⟨built, h⟩ := h
    exact ⟨_, h.lookUp k⟩

/-- So do several calls. -/
theorem Reaches.through_builds (hquiet : setup.Quiet)
    (h : Reaches setup anyCall w) (calls : List Call) :
    ∃ built, w.registry.Builds built (w.through setup calls).registry := by
  induction calls generalizing w with
  | nil => exact ⟨_, .refl⟩
  | cons call rest ih =>
      obtain ⟨first, hfirst⟩ := Call.builds hquiet (h.coherent hquiet) call
      obtain ⟨second, hsecond⟩ := ih (.step w call h trivial)
      exact ⟨_, hfirst.trans hsecond⟩

/-- Whether the call puts another unit in the place of the one with an id. -/
def Call.retires (id : UnitId) (w : World) : Call → Bool
  | replaceUnit old spec => decide (old = id) &&
    (Action.replaceUnit old spec w).1.toOption.any fun r => r.toOption.isSome
  | _ => false

/-- Whether no call of a history does. -/
def World.retains (setup : Setup) (id : UnitId) : List Call → World → Bool
  | [], _ => true
  | call :: rest, w =>
    !call.retires id w && retains setup id rest (call.run setup w)

/-- Replacing a unit by a described one. -/
theorem Action.replaceUnit_run {old : UnitId} {spec : UnitSpec} {d : Draft}
    (hd : spec.draft = .ok d) (w : World) : Action.replaceUnit old spec w =
      (.ok (w.registry.replaceUnit old d).1,
        { w with registry := (w.registry.replaceUnit old d).2 }) := by
  simp only [Action.replaceUnit, Action.draft, hd]
  rfl

/-- A unit stays until a call puts another one in its place. -/
theorem Call.unit?_kept (hquiet : setup.Quiet) (hw : w.Coherent) {id : UnitId}
    {u : CompilationUnit} (hu : w.registry.unit? id = some u) {call : Call}
    (hretires : call.retires id w = false) :
    (call.run setup w).registry.unit? id = some u := by
  have hr := hw.registry
  cases call with
  | addUnit spec =>
      simp only [run, Action.addUnit, Action.draft]
      cases hd : spec.draft with
      | error f => exact hu
      | ok d =>
          exact (hr.addUnit (UnitSpec.draft_wellFormed hd)).2.kept id u hu
  | replaceUnit old spec =>
      cases hd : spec.draft with
      | error f =>
          simp only [run, Action.replaceUnit, Action.draft, hd]
          exact hu
      | ok d =>
          rw [retires, Action.replaceUnit_run hd] at hretires
          rw [run, Action.replaceUnit_run hd]
          rcases w.registry.replaceUnit_cases old d with ⟨-, hrun⟩ |
            ⟨previous, v, hprevious, rfl, ⟨-, hrun⟩ | ⟨-, e, hrun⟩⟩
          · rw [hrun]
            exact hu
          · -- the new unit was accepted, so another one was taken out
            have hne : old ≠ id := by
              rintro rfl
              rw [hrun] at hretires
              simp [Except.toOption] at hretires
            have hid : (d.finish ⟨w.registry.nextUnit⟩).id ≠ id := by
              rintro rfl
              exact Nat.lt_irrefl _ (hr.issued _ u hu)
            rw [hrun]
            show ((w.registry.remove previous).skip.enter _).unit? id = some u
            rw [Registry.unit?_enter, if_neg hid]
            show (w.registry.remove previous).unit? id = some u
            rw [Registry.unit?_remove, hr.named old previous hprevious,
              if_neg hne]
            exact hu
          · rw [hrun]
            exact (hr.unit?_restored hprevious id).trans hu
  | addSource path declares spec =>
      simp only [run, Action.addSource, Action.draft]
      cases hd : spec.draft with
      | error f => exact hu
      | ok d =>
          exact (hr.addSource (UnitSpec.draft_wellFormed hd)).2.kept id u hu
  | lookUp k => exact (hr.classifier k).2.1.kept id u hu
  | resolve | resolveFile | otherTakes | otherReleases | setToken =>
      exact Call.keeps (P := fun r => r.unit? id = some u) hquiet
        (fun r k hr hv => (hr.classifier k).2.1.kept id u hv) hw hu fun h => h

/-- It stays over histories that do not put another one in its place. -/
theorem Reaches.unit?_kept (hquiet : setup.Quiet)
    (hw : Reaches setup anyCall w) {id : UnitId} {u : CompilationUnit}
    (hu : w.registry.unit? id = some u) (calls : List Call)
    (hretains : w.retains setup id calls = true) :
    (w.through setup calls).registry.unit? id = some u := by
  induction calls generalizing w with
  | nil => exact hu
  | cons call rest ih =>
      rw [World.retains, Bool.and_eq_true, Bool.not_eq_true'] at hretains
      exact ih (.step w call hw trivial)
        (Call.unit?_kept hquiet (hw.coherent hquiet) hu hretains.1) hretains.2

/-- A look-up that leaves the registry alone and builds nothing leaves
everything alone. -/
theorem Action.classifier_of_idle {k : NameKey} {answer : Option Symbol}
    (h : w.registry.classifier k = ⟨answer, w.registry, none⟩) :
    Action.classifier k w = (.ok answer, w) := by
  unfold Action.classifier
  rw [h]
  simp

/-- A look-up is done once. Looking the classifier up again answers the same,
changes nothing, the log included, and builds nothing. What was found is
found after any calls that do not put another unit in the place of its own.
And however a history goes on from here, the sources that are built on the
way are built once each. -/
theorem classifier_stable (hquiet : setup.Quiet)
    (hw : Reaches setup anyCall w) (k : NameKey) :
    ∃ answer v, Action.classifier k w = (.ok answer, v) ∧
      (Action.classifier k v = (.ok answer, v) ∧
        v.registry.classifier k = ⟨answer, v.registry, none⟩) ∧
      (∀ c, answer = some c → ∀ calls,
        v.retains setup c.unit calls = true →
        Action.classifier k (v.through setup calls) =
          (.ok (some c), v.through setup calls)) ∧
      ∀ calls, (∃ built,
          w.registry.Builds built (w.through setup calls).registry) ∧
        ∀ built, w.registry.Builds built (w.through setup calls).registry →
          w.registry.Tally built (w.through setup calls).registry := by
  have hnumbered := hw.numbered hquiet
  have hv : Reaches setup anyCall ((Call.lookUp k).run setup w) :=
    .step w _ hw trivial
  have hagain := hnumbered.classifier_again k
  refine ⟨_, _, rfl, ⟨Action.classifier_of_idle hagain, hagain⟩,
    fun c hc calls hretains => ?_, fun calls =>
      ⟨hw.through_builds hquiet calls, fun built h => h.tally hnumbered⟩⟩
  have hfound := (hnumbered.settles k).1.trans hc
  refine Action.classifier_of_idle ((hv.indexed hquiet).classifier_kept
    ((hv.through calls).indexed hquiet) hfound fun u hu => ?_)
  exact hv.unit?_kept hquiet hu calls hretains

/-- A source that promises two classifiers and declares one of them. Later
the other unit is replaced, the classifier is announced again and the broken
promise is looked up. -/
theorem classifier_stable_source :
    let setup := Setup.plain .default
    let w := World.after setup [.addUnit .plainClass,
      .addSource "b.kt" [.topLevel "p" "D", .topLevel "p" "Lost"] .nestedClass]
    let k := (QualifiedName.topLevel "p" "D").key
    let later : List Call := [.replaceUnit ⟨0⟩ .plainClass,
      .addSource "c.kt" [.topLevel "p" "D"] .plainClass,
      .lookUp (QualifiedName.topLevel "p" "Lost").key]
    w.registry.builds? k = some 0 ∧ ∃ v, Action.classifier k w =
        (.ok (some ⟨⟨1⟩, ⟨1⟩⟩), v) ∧
      Action.classifier k v = (.ok (some ⟨⟨1⟩, ⟨1⟩⟩), v) ∧
      v.retains setup ⟨1⟩ later = true ∧
      (Action.classifier k (v.through setup later)).1 =
        .ok (some ⟨⟨1⟩, ⟨1⟩⟩) ∧
      ∃ built, w.registry.Builds built
          (w.through setup (.lookUp k :: later)).registry ∧
        built.Nodup ∧ 0 ∈ built := by
  intro setup w k later
  obtain ⟨answer, v, hrun, hagain, hlater, hways⟩ := classifier_stable
    (Setup.quiet_plain .default) (Reaches.after setup _) k (w := w)
  have hv : v = (Action.classifier k w).2 := by rw [hrun]
  have hanswer : (Action.classifier k w).1 = .ok (some ⟨⟨1⟩, ⟨1⟩⟩) := by
    decide +kernel
  rw [hrun] at hanswer
  obtain rfl := Except.ok.inj hanswer
  have hretains : v.retains setup ⟨1⟩ later = true := by
    rw [hv]
    decide +kernel
  obtain ⟨⟨built, hbuilt⟩, hall⟩ := hways (.lookUp k :: later)
  have htally := hall built hbuilt
  have hgone : w.registry.Awaits 0 ∧
      ¬ (w.through setup (.lookUp k :: later)).registry.Awaits 0 := by
    unfold Registry.Awaits
    decide +kernel
  refine ⟨by decide +kernel, v, hrun, hagain.1, hretains, ?_, built, hbuilt,
    htally.once, ?_⟩
  · rw [hlater _ rfl later hretains]
  · exact ((htally.all 0).mpr (Or.inl hgone.1)).resolve_right hgone.2

end histories

end StagedResolve
