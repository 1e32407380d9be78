/-
Meanings: what clauses say when nothing is remembered.

# Plain recursion

A session computes a class once and remembers the result, and it shows no
supertypes of a class that it is still computing. Without memory there is
a simpler way: whenever a look-up passes a class, its clause is resolved
afresh, by the same look-ups (`Recursion.source`). That need not come to
an end, so a recursion has a depth; and it may be forbidden to ask for
certain classes at all. Where it ends without asking for these, what it
finds is the meaning of the clause (`Recursion.meaning?`). It depends on
the units that are registered and on nothing that was resolved before.

# References

The meanings of clauses make a graph (`Recursion.Refers`). A reference
that lies on a cycle of it is replaced by the top type when it is written
back (`Recursion.Cut`). The supertypes that such a class shows depend on
whether that has happened already, so a recursion that is `Sound` asks
for no class that is on a cycle.
-/
import StagedResolve.Proofs.Clauses
import StagedResolve.Proofs.Echoes

namespace StagedResolve

open StagedResolve.Action World Relation

-- ================================================================ recursion

/-- What an action answers with a session that has computed nothing. It
leaves no trace. -/
def Action.afresh {α : Type} (x : Action α) : Action α := fun w =>
  ((x { w with session := .start }).1, w)

/-- How clauses are resolved by plain recursion. -/
structure Recursion where
  registry : Registry
  /-- Packages that every file imports. -/
  defaults : List String
  /-- The classes whose supertypes are not asked for. -/
  barred : Symbol → Bool
  /-- How deep the recursion may go. -/
  depth : Nat

namespace Recursion

/-- The world in which nothing was resolved yet. -/
def world (p : Recursion) : World := .start p.registry

/-- The supertypes of a class, resolved afresh whenever they are asked
for. -/
def source (p : Recursion) : (depth : Nat) → SupertypeSource
  | 0, _ => fault .exhausted
  | depth + 1, c =>
    if p.barred c then fault .exhausted
    else afresh do return (← evaluate p.defaults (p.source depth) c).classes

/-- What is found for a class by a recursion of some depth. -/
def result? (p : Recursion) (depth : Nat) (c : Symbol) : Option Computed :=
  match (evaluate p.defaults (p.source depth) c p.world).1 with
  | .ok r => some r
  | .error _ => none

/-- What the clause of a class means. -/
def meaning? (p : Recursion) (c : Symbol) : Option Computed :=
  p.result? p.depth c

/-- The classes that the clause of a class refers to. -/
def edges (p : Recursion) (c : Symbol) : List Symbol :=
  match p.meaning? c with
  | some m => m.classes
  | none => []

/-- A clause refers to a class. -/
def Refers (p : Recursion) (a b : Symbol) : Prop := b ∈ p.edges a

/-- What is found for a class is what a run of it answers. -/
theorem result?_eq_some_iff {p : Recursion} {n : Nat} {c : Symbol}
    {r : Computed} : p.result? n c = some r ↔
      ∃ w, evaluate p.defaults (p.source n) c p.world = (.ok r, w) := by
  unfold result?
  rcases h : evaluate p.defaults (p.source n) c p.world with ⟨e | q, w⟩
  · simp
  · simp

-- ================================================================== deeper

/-- An action echoes itself from one world. -/
theorem echoes_self {α : Type} (x : Action α) :
    Echoes (· = ·) (fun _ => False) x x := by
  rintro v w a v' rfl hx
  rw [hx]
  exact ⟨rfl, rfl⟩

/-- What an action echoes in a new session is echoed. -/
theorem echoes_afresh {α : Type} {x y : Action α}
    (h : Echoes (· = ·) (fun _ => False) x y) :
    Echoes (· = ·) (fun _ => False) (afresh x) (afresh y) := by
  rintro v w a v' rfl hx
  have hx' : x { v with session := .start } =
      (.ok a, (x { v with session := .start }).2) :=
    run_of_fst (congrArg Prod.fst hx)
  have hrun := h _ _ a _ rfl hx'
  unfold afresh
  rcases hy : y { v with session := .start } with ⟨e | b, w'⟩
  · rw [hy] at hrun
    exact hrun.elim
  · rw [hy] at hrun
    exact ⟨hrun.1, (congrArg Prod.snd hx).symm⟩

/-- A clause that is resolved with a source echoes what it is with one that
echoes the source. -/
theorem echoes_evaluate {source source' : SupertypeSource}
    (h : ∀ b, Echoes (· = ·) (fun _ => False) (source b) (source' b))
    (defaults : List String) (c : Symbol) :
    Echoes (· = ·) (fun _ => False) (evaluate defaults source c)
      (evaluate defaults source' c) := by
  have hlookups : (SideBySide.echoing (· = ·) fun _ => False).Lookups := by
    refine ⟨fun v w h => congrArg _ h, fun k => ⟨fun _ h => h, ?_⟩⟩
    rintro v w rfl
    exact Or.inr ⟨rfl, rfl⟩
  unfold evaluate
  refine .bind (echoes_self _) fun found => ?_
  cases found with
  | none => exact echoes_self _
  | some u =>
      dsimp only
      split
      · exact echoes_self _
      · split
        · exact echoes_self _
        · refine .bind (echoes_self _) fun clause => ?_
          refine .bind (echoes_self _) fun own => ?_
          split
          · exact echoes_self _
          · refine .bind (echoes_self _) fun table => ?_
            exact .bind (.resolveClause hlookups h _ c.decl _) fun _ => .pure

/-- A recursion that may go deeper answers what the other one answered. -/
theorem echoes_source (p : Recursion) (n : Nat) (c : Symbol) :
    Echoes (· = ·) (fun _ => False) (p.source n c) (p.source (n + 1) c) := by
  induction n generalizing c with
  | zero => exact .of_stop
  | succ n ih =>
      unfold source
      split
      · exact .of_stop
      · exact echoes_afresh (.bind (echoes_evaluate ih p.defaults c)
          fun _ => .pure)

/-- What was found is found by a deeper recursion. -/
theorem result?_mono {p : Recursion} {n k : Nat} (hnk : n ≤ k) {c : Symbol}
    {r : Computed} (h : p.result? n c = some r) : p.result? k c = some r := by
  induction hnk with
  | refl => exact h
  | step _ ih =>
      obtain ⟨w, hw⟩ := result?_eq_some_iff.mp ih
      have hrun := echoes_evaluate (p.echoes_source _) p.defaults c _ _ _ _
        rfl hw
      rcases hy : evaluate p.defaults (p.source _) c p.world with ⟨e | q, w'⟩
      · rw [hy] at hrun
        exact hrun.elim
      · rw [hy] at hrun
        exact result?_eq_some_iff.mpr ⟨w', by rw [hy, hrun.1]⟩

/-- What is found depends on the class alone. -/
theorem result?_unique {p : Recursion} {n k : Nat} {c : Symbol}
    {q r : Computed} (hq : p.result? n c = some q)
    (hr : p.result? k c = some r) : q = r := by
  have hq' := result?_mono (Nat.le_max_left n k) hq
  have hr' := result?_mono (Nat.le_max_right n k) hr
  exact Option.some.inj (hq'.symm.trans hr')

end Recursion

-- ====================================================== settled registries

/-- No source is left to be built. -/
def Registry.Settled (r : Registry) : Prop := r.pendingIndex = .empty

instance (r : Registry) : Decidable r.Settled :=
  inferInstanceAs (Decidable (_ = _))

/-- Then looking a classifier up changes nothing. -/
theorem Action.classifier_of_settled {w : World} (h : w.registry.Settled)
    (k : NameKey) :
    Action.classifier k w = (.ok (w.registry.classifiers.find? k), w) := by
  have hfound : w.registry.classifier k =
      ⟨w.registry.classifiers.find? k, w.registry, none⟩ := by
    unfold Registry.classifier Registry.materialize
    rw [h]
    cases w.registry.classifiers.find? k <;> rfl
  unfold Action.classifier
  rw [hfound]
  simp

/-- Two runs that leave their worlds as they are. -/
def SideBySide.still (v₀ w₀ : World) : SideBySide :=
  { along := fun v w => v = v₀ ∧ w = w₀
    failed := fun v w => v = v₀ ∧ w = w₀
    away := fun _ => False }

/-- Looking names up in a settled registry leaves worlds as they are. -/
theorem SideBySide.still_lookups {v w : World} (h : v.registry = w.registry)
    (hw : w.registry.Settled) : (SideBySide.still v w).Lookups := by
  refine ⟨fun _ _ h' => by rw [h'.1, h'.2, h], fun k => ⟨fun _ h => h, ?_⟩⟩
  rintro _ _ ⟨rfl, rfl⟩
  rw [classifier_of_settled hw, classifier_of_settled (h ▸ hw), h]
  exact Or.inr ⟨rfl, rfl, rfl⟩

/-- Such a run answers what it answers in the other world. -/
theorem Action.Keeps.run_still {α : Type} {v w : World} {x : Action α}
    (h : Keeps (.still v w) x) : x w = ((x v).1, w) := by
  have hrun := (h.run v w ⟨rfl, rfl⟩).resolve_left id
  rcases hv : x v with ⟨e | a, v'⟩ <;> rcases hw : x w with ⟨f | b, w'⟩ <;>
    rw [hv, hw] at hrun
  · obtain ⟨rfl, -, rfl⟩ := hrun.resolve_left id
    rfl
  · exact hrun.elim
  · exact hrun.elim
  · rw [hrun.1, hrun.2.2]

namespace Recursion

variable {p : Recursion}

/-- The import table of a unit is what its import directives come to. -/
def Tabulates (p : Recursion) (u : CompilationUnit) (t : ImportTable) : Prop :=
  ∃ errors, (importTable u p.world).1 = .ok (t, errors)

/-- A unit has one import table. -/
theorem Tabulates.unique {u : CompilationUnit} {s t : ImportTable}
    (hs : p.Tabulates u s) (ht : p.Tabulates u t) : s = t := by
  obtain ⟨_, hs⟩ := hs
  obtain ⟨_, ht⟩ := ht
  cases hs.symm.trans ht
  rfl

/-- Import directives come to the same wherever the units are those of the
recursion. -/
theorem importTable_run (hp : p.registry.Settled) {w : World}
    (hw : w.registry = p.registry) (u : CompilationUnit) :
    importTable u w = ((importTable u p.world).1, w) := by
  have hl := SideBySide.still_lookups (v := p.world) (w := w) hw.symm (hw ▸ hp)
  exact (hl.importDirectives _ _).run_still

end Recursion

-- ===================================================== resolving one clause

namespace Recursion

variable {p : Recursion}

/-- The world in which plain recursion resolves a clause: the session has
noted the import table of the unit. -/
def noting (p : Recursion) (u : CompilationUnit) (t : ImportTable) : World :=
  { p.world with session := { Session.start with
      imports := Session.start.imports.insert u.id t } }

/-- Nothing was resolved yet. -/
theorem slots_world (hp : p.registry.Coherent) {u : CompilationUnit}
    (hu : p.registry.unit? u.id = some u) (d : DeclId) :
    (p.world.slots u d).Unresolved :=
  unresolved_of_fresh (hp.wellFormed u.id u hu) rfl

/-- The session of plain recursion begins with the unit and its import
table. -/
theorem sessionUnit?_world (hcoherent : p.registry.Coherent)
    (hsettled : p.registry.Settled) {id : UnitId}
    {found : Option CompilationUnit} {v : World}
    (h : sessionUnit? id p.world = (.ok found, v)) :
    found = p.registry.unit? id ∧
      ∀ u, found = some u → ∃ t, p.Tabulates u t ∧ v = p.noting u t := by
  obtain ⟨found', v', hread, h⟩ := bind_run_eq_ok_iff.mp h
  cases hread
  have hunit : p.world.registry.unit? id = p.registry.unit? id := rfl
  dsimp only at h
  rw [hunit] at h
  cases hu : p.registry.unit? id with
  | none =>
      rw [hu] at h
      cases h
      exact ⟨rfl, nofun⟩
  | some u =>
      have hid : u.id = id := hcoherent.named id u hu
      rw [hu] at h
      obtain ⟨known, v', hread, h⟩ := bind_run_eq_ok_iff.mp h
      cases hread
      obtain ⟨t, v', hstored, h⟩ := bind_run_eq_ok_iff.mp h
      obtain ⟨_, v'', hupdate, h⟩ := bind_run_eq_ok_iff.mp h
      cases hupdate
      cases h
      -- nothing was stored, so the table is made of the import directives
      obtain ⟨stored, v', hread, hstored⟩ := bind_run_eq_ok_iff.mp hstored
      cases hread
      dsimp only at hstored
      rw [(slots_world hcoherent (by rw [hid]; exact hu) .root).imports]
        at hstored
      obtain ⟨⟨t', errors⟩, v', htable, hstored⟩ :=
        bind_run_eq_ok_iff.mp hstored
      cases hstored
      rw [importTable_run hsettled rfl, Prod.mk.injEq] at htable
      obtain ⟨htable, rfl⟩ := htable
      refine ⟨rfl, fun u' hu' => ?_⟩
      cases hu'
      refine ⟨t', ⟨errors, htable⟩, ?_⟩
      unfold noting
      rw [hid]
      rfl

/-- What is found for a class that goes through the phases is its clause as
it was written, resolved. -/
theorem result?_cases (hcoherent : p.registry.Coherent)
    (hsettled : p.registry.Settled) {u : CompilationUnit} {x : Declaration}
    {c : Symbol} {n : Nat} {m : Computed} (hu : p.registry.unit? c.unit = some u)
    (hx : u.decl? c.decl = some x) (hk : x.kind.isClassLike = true)
    (he : x.isEligible = true) (h : p.result? n c = some m) :
    ∃ t r v, p.Tabulates u t ∧
      resolveClause ⟨u, t, p.defaults⟩ (p.source n) c.decl
        (p.world.clause u c.decl) (p.noting u t) = (.ok r, v) ∧
      m = .ofClause x r := by
  have hid : u.id = c.unit := hcoherent.named c.unit u hu
  obtain ⟨w, hw⟩ := result?_eq_some_iff.mp h
  obtain ⟨found, v, hfound, hrest⟩ := bind_run_eq_ok_iff.mp hw
  obtain ⟨rfl, htable⟩ := sessionUnit?_world hcoherent hsettled hfound
  obtain ⟨t, ht, rfl⟩ := htable u hu
  rw [hu] at hrest
  dsimp only at hrest
  rw [hx] at hrest
  dsimp only at hrest
  rw [hk, Bool.not_true, if_neg Bool.false_ne_true] at hrest
  obtain ⟨clause, v, hread, hrest⟩ := bind_run_eq_ok_iff.mp hrest
  cases hread
  obtain ⟨own, v, hread, hrest⟩ := bind_run_eq_ok_iff.mp hrest
  cases hread
  have hraw : (p.noting u t).own u c.decl = .raw :=
    (raw_of_fresh (w := p.noting u t) rfl (by
      rw [CompilationUnit.isEligible, hx]; exact he)).1
  have hopen : ¬ (decide (.supertypes ≤ (p.noting u t).own u c.decl) ||
      !x.isEligible) = true := by
    rw [hraw, he]
    decide
  rw [if_neg hopen] at hrest
  obtain ⟨table, v, hread, hrest⟩ := bind_run_eq_ok_iff.mp hrest
  cases hread
  dsimp only at hrest
  have hnoted : ((p.noting u t).session.imports.find? c.unit).getD .empty =
      t := by
    unfold noting
    rw [hid]
    simp
  rw [hnoted] at hrest
  obtain ⟨r, v, hclause, hrest⟩ := bind_run_eq_ok_iff.mp hrest
  cases hrest
  exact ⟨t, r, _, ht, hclause, rfl⟩

-- ============================================================== references

/-- A class or an alias of a registered unit that goes through the
phases. -/
def IsClass (p : Recursion) (c : Symbol) : Prop :=
  ∃ u x, p.registry.unit? c.unit = some u ∧ u.decl? c.decl = some x ∧
    x.kind.isClassLike = true ∧ x.isEligible = true

/-- Anything else refers to nothing. -/
theorem classes_result? (hcoherent : p.registry.Coherent)
    (hsettled : p.registry.Settled) {c : Symbol} {n : Nat} {m : Computed}
    (h : p.result? n c = some m) : m.classes = [] ∨ p.IsClass c := by
  obtain ⟨w, hw⟩ := result?_eq_some_iff.mp h
  obtain ⟨found, v, hfound, hrest⟩ := bind_run_eq_ok_iff.mp hw
  obtain ⟨rfl, htable⟩ := sessionUnit?_world hcoherent hsettled hfound
  cases hu : p.registry.unit? c.unit with
  | none =>
      rw [hu] at hrest
      cases hrest
      exact Or.inl rfl
  | some u =>
      have hid : u.id = c.unit := hcoherent.named c.unit u hu
      obtain ⟨t, -, rfl⟩ := htable u hu
      rw [hu] at hrest
      dsimp only at hrest
      cases hx : u.decl? c.decl with
      | none =>
          rw [hx] at hrest
          cases hrest
          exact Or.inl rfl
      | some x =>
          rw [hx] at hrest
          dsimp only at hrest
          by_cases hk : x.kind.isClassLike = true
          · by_cases he : x.isEligible = true
            · exact Or.inr ⟨u, x, hu, hx, hk, he⟩
            · rw [hk, Bool.not_true, if_neg Bool.false_ne_true] at hrest
              obtain ⟨clause, v', hread, hrest⟩ := bind_run_eq_ok_iff.mp hrest
              cases hread
              obtain ⟨own, v', hread, hrest⟩ := bind_run_eq_ok_iff.mp hrest
              cases hread
              rw [if_pos (by simp [he])] at hrest
              cases hrest
              refine Or.inl ?_
              have htypes : Slot.types (p.world.clause u c.decl) = [] :=
                types_clause_of_unresolved
                  (slots_world hcoherent (by rw [hid]; exact hu) c.decl)
              show (Computed.ofCommitted
                (Slot.types (p.world.clause u c.decl))).classes = []
              rw [htypes]
              rfl
          · rw [if_pos (by simpa using hk)] at hrest
            cases hrest
            exact Or.inl rfl

/-- What refers to something is a class that goes through the phases. -/
theorem Refers.isClass (hcoherent : p.registry.Coherent)
    (hsettled : p.registry.Settled) {a b : Symbol} (h : p.Refers a b) :
    (∃ m, p.meaning? a = some m ∧ b ∈ m.classes) ∧ p.IsClass a := by
  unfold Refers edges at h
  split at h
  · next m hm =>
    refine ⟨⟨m, hm, h⟩, ?_⟩
    refine (classes_result? hcoherent hsettled hm).resolve_left fun hnone => ?_
    rw [hnone] at h
    cases h
  · cases h

/-- The classes that a clause of known meaning refers to. -/
theorem edges_eq {c : Symbol} {m : Computed} (h : p.meaning? c = some m) :
    p.edges c = m.classes := by
  unfold edges
  rw [h]

-- ================================================================= cutting

/-- A reference of a class lies on a cycle. -/
def Closes (p : Recursion) (c : Symbol) (r : Reference) : Prop :=
  ∃ b, r.type.class? = some b ∧ ReflTransGen p.Refers b c

/-- The result says what another one says, with the top type for every
reference that lies on a cycle. -/
structure Cut (p : Recursion) (c : Symbol) (m q : Computed) : Prop where
  isAlias : q.isAlias = m.isAlias
  types : ∃ cuts : Reference → Bool,
    (∀ r ∈ m.references, cuts r = true ↔ p.Closes c r) ∧
      q.types = m.references.map fun r => if cuts r then .any else r.type

namespace Cut

variable {c b : Symbol} {m q q' : Computed}

/-- There is one way to cut. -/
theorem types_eq (h : p.Cut c m q) (h' : p.Cut c m q') :
    q.types = q'.types := by
  obtain ⟨cuts, hcuts, htypes⟩ := h.types
  obtain ⟨cuts', hcuts', htypes'⟩ := h'.types
  rw [htypes, htypes']
  refine List.map_congr_left fun r hr => ?_
  rw [Bool.eq_iff_iff.mpr ((hcuts r hr).trans (hcuts' r hr).symm)]

/-- What is left after cutting was there before. -/
theorem mem_classes (h : p.Cut c m q) (hb : b ∈ q.classes) :
    b ∈ m.classes := by
  obtain ⟨cuts, -, htypes⟩ := h.types
  rw [Computed.classes, htypes] at hb
  obtain ⟨t, ht, hb⟩ := List.mem_filterMap.mp hb
  obtain ⟨r, hr, rfl⟩ := List.mem_map.mp ht
  refine Computed.mem_classes_iff.mpr ⟨r, hr, ?_⟩
  split at hb
  · cases hb
  · exact hb

/-- Nothing is cut off a class that is on no cycle. -/
theorem classes_eq (h : p.Cut c m q) (hm : p.meaning? c = some m)
    (hc : ¬ TransGen p.Refers c c) : q.classes = m.classes := by
  obtain ⟨cuts, hcuts, htypes⟩ := h.types
  rw [Computed.classes, Computed.classes, htypes]
  refine congrArg _ (List.map_congr_left fun r hr => if_neg fun hcut => ?_)
  obtain ⟨b, hb, hbc⟩ := (hcuts r hr).mp hcut
  refine hc (.head' ?_ hbc)
  unfold Refers
  rw [edges_eq hm]
  exact Computed.mem_classes_iff.mpr ⟨r, hr, hb⟩

/-- What is filled in with a result depends on how it cuts alone. -/
theorem fill_eq (h : p.Cut c m q) (h' : p.Cut c m q') (s : Slots) :
    (q.fill s).supertypes = (q'.fill s).supertypes ∧
      (q.fill s).expansion = (q'.fill s).expansion := by
  have halias : q.isAlias = q'.isAlias := h.isAlias.trans h'.isAlias.symm
  rw [Computed.supertypes_fill, Computed.supertypes_fill,
    Computed.expansion_fill, Computed.expansion_fill, halias, h.types_eq h']
  exact ⟨rfl, rfl⟩

end Cut

-- =================================================================== sound

/-- The recursion gives every clause a meaning, although it asks for no
class that is on a cycle, and classes are where they belong. -/
structure Sound (p : Recursion) : Prop where
  coherent : p.registry.Coherent
  settled : p.registry.Settled
  place : ∀ u d, p.registry.unit? u.id = some u → u.isClassLike d = true →
    u.isEligible d = true → u.InClasses d
  ends : ∀ u d, p.registry.unit? u.id = some u → u.HasClause d →
    (p.meaning? (u.symbol d)).isSome
  circular : ∀ c, TransGen p.Refers c c → p.barred c = true

namespace Sound

/-- Every class that goes through the phases is in its place. -/
theorem hasClause (hp : p.Sound) {c : Symbol} (hc : p.IsClass c) :
    ∃ u d, p.registry.unit? u.id = some u ∧ c = u.symbol d ∧
      u.HasClause d := by
  obtain ⟨u, x, hu, hx, hk, he⟩ := hc
  have hid := hp.coherent.named c.unit u hu
  have hreg : p.registry.unit? u.id = some u := by rw [hid]; exact hu
  have hclass : u.isClassLike c.decl = true := by
    rw [CompilationUnit.isClassLike, CompilationUnit.kind?, hx]
    exact hk
  have heligible : u.isEligible c.decl = true := by
    rw [CompilationUnit.isEligible, hx]
    exact he
  exact ⟨u, c.decl, hreg, by rw [CompilationUnit.symbol, hid], hclass,
    heligible, hp.place u c.decl hreg hclass heligible⟩

/-- So its clause has a meaning. -/
theorem meaning (hp : p.Sound) {c : Symbol} (hc : p.IsClass c) :
    ∃ m, p.meaning? c = some m := by
  obtain ⟨u, d, hu, rfl, hd⟩ := hp.hasClause hc
  exact Option.isSome_iff_exists.mp (hp.ends u d hu hd)

/-- It is enough to look at what is registered, where every class ranks
above those that its clause refers to. -/
theorem of_rank (hcoherent : p.registry.Coherent)
    (hsettled : p.registry.Settled) (rank : Symbol → Nat)
    (h : ∀ e ∈ p.registry.units.entries, ∀ d ∈ e.2.declIds,
      e.2.isClassLike d = true → e.2.isEligible d = true →
      e.2.InClasses d ∧ (p.meaning? (e.2.symbol d)).isSome ∧
        ∀ b ∈ p.edges (e.2.symbol d), rank b < rank (e.2.symbol d)) :
    p.Sound := by
  have hclass : ∀ u d, p.registry.unit? u.id = some u →
      u.isClassLike d = true → u.isEligible d = true → u.InClasses d ∧
        (p.meaning? (u.symbol d)).isSome ∧
        ∀ b ∈ p.edges (u.symbol d), rank b < rank (u.symbol d) := by
    intro u d hu hk he
    obtain ⟨x, hx, -⟩ := Option.any_eq_true _ _ |>.mp he
    exact h _ (Table.mem_entries_of_find? hu) d (CompilationUnit.mem_declIds hx) hk he
  have hstep : ∀ a b, p.Refers a b → rank b < rank a := by
    intro a b hab
    obtain ⟨-, u, x, hu, hx, hk, he⟩ := hab.isClass hcoherent hsettled
    have hid := hcoherent.named a.unit u hu
    have hsymbol : u.symbol a.decl = a := by rw [CompilationUnit.symbol, hid]
    rw [← hsymbol]
    refine (hclass u a.decl (by rw [hid]; exact hu) ?_ ?_).2.2 b
      (by rw [hsymbol]; exact hab)
    · rw [CompilationUnit.isClassLike, CompilationUnit.kind?, hx]
      exact hk
    · rw [CompilationUnit.isEligible, hx]
      exact he
  have hpath : ∀ a b, TransGen p.Refers a b → rank b < rank a := by
    intro a b hab
    induction hab with
    | single hab => exact hstep _ _ hab
    | tail _ hbc ih => exact Nat.lt_trans (hstep _ _ hbc) ih
  exact
    { coherent := hcoherent
      settled := hsettled
      place := fun u d hu hk he => (hclass u d hu hk he).1
      ends := fun u d hu hd => (hclass u d hu hd.classLike hd.eligible).2.1
      circular := fun c hc => absurd (hpath c c hc) (Nat.lt_irrefl _) }

end Sound

end Recursion

end StagedResolve
