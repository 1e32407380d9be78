/-
Learning: a session finds out what clauses mean.

# Memory against recursion

Where a session computes a class, plain recursion resolves its clause
afresh. The two ask for the same classes in the same order, so it comes
down to what they are told (`Learns.source_echoes`). A class that the
session has met shows what it found for it; that is what its clause
means, with something cut off if it was written back, which makes no
difference for a class that is on no cycle (`Recursion.Shows`). A class
whose computation is under way shows nothing, but the recursion does not
ask for one: it would ask for the class again on the way to it, and again
below that, and would not come to an end. In terms of depth, everything
that is under way needs more of it than the class at hand.

# Cycles

The references that a session follows make up the graph of meanings, as
far as it has met it, up to the classes that are final already. Nothing
final leads to a class that is not. So a reference closes a cycle for the
session exactly if it lies on one (`Learns.cut`).
-/
import StagedResolve.Proofs.Meanings
import StagedResolve.Proofs.Reachability

namespace StagedResolve

open StagedResolve.Action World Relation

namespace Slots

variable {s t : Slots}

/-- Filling in a result makes them say the same again. -/
theorem SaysSame.fill (h : s.SaysSame t) (q : Computed) :
    (q.fill s).SaysSame (q.fill t) := by
  unfold SaysSame
  rw [Computed.supertypes_fill, Computed.supertypes_fill,
    Computed.expansion_fill, Computed.expansion_fill, h.1, h.2]
  exact ⟨rfl, rfl⟩

end Slots

namespace World

variable {v w : World}

/-- A state is the same where all states are. -/
theorem state_eq (h : w.states = v.states) (u : CompilationUnit)
    (d : DeclId) : w.state u d = v.state u d := by
  rw [state, state, h]

end World

namespace Recursion

variable {p : Recursion} {v w : World}

-- =============================================================== what is known

/-- The units of a world are those of the recursion, and the import tables
that were stored are what their directives come to. -/
structure Underlies (p : Recursion) (w : World) : Prop where
  grounded : w.Grounded
  registry : w.registry = p.registry
  imports : ∀ u t, w.Registered u → (w.slots u .root).imports = some t →
    p.Tabulates u t

/-- The clause of a class is what it means, with cycles cut. -/
def Told (p : Recursion) (w : World) (u : CompilationUnit) (d : DeclId) :
    Prop :=
  ∃ m q, p.meaning? (u.symbol d) = some m ∧ p.Cut (u.symbol d) m q ∧
    (w.slots u d).SaysSame (q.fill (p.world.slots u d))

/-- Clauses of marked classes are what they mean, and all others are as
they were written. -/
structure Spells (p : Recursion) (w : World) : Prop where
  unmarked : ∀ u d, w.Registered u →
    ¬ (u.HasClause d ∧ .supertypes ≤ w.own u d) →
    (w.slots u d).SaysSame (p.world.slots u d)
  marked : ∀ u d, w.Registered u → u.HasClause d →
    .supertypes ≤ w.own u d → p.Told w u d

/-- Besides, what is final refers to nothing that is not. -/
structure Completes (p : Recursion) (w : World) : Prop
    extends p.Spells w where
  closed : ∀ a b, p.Refers a b → w.Done a → w.Done b

/-- What a session has found for a class. -/
structure Shows (p : Recursion) (c : Symbol) (r : Computed) : Prop where
  pending : r.isPending = true → p.meaning? c = some r
  classes : ∀ b ∈ r.classes, p.Refers c b
  whole : ¬ TransGen p.Refers c c → r.classes = p.edges c

/-- What is not a class shows nothing. -/
theorem Shows.of_not_isClass (hp : p.Sound) {c : Symbol}
    (hc : ¬ p.IsClass c) {types : List ResolvedType}
    (h : ResolvedType.classes types = []) :
    p.Shows c (.ofCommitted types) := by
  have hclasses : (Computed.ofCommitted types).classes = [] := by
    rw [Computed.classes, Computed.types_ofCommitted, h]
  refine ⟨fun hn => ?_, fun b hb => ?_, fun _ => ?_⟩
  · cases hn
  · rw [hclasses] at hb
    cases hb
  · rw [hclasses]
    unfold edges
    split
    · next m hm =>
      exact ((classes_result? hp.coherent hp.settled hm).resolve_right hc).symm
    · rfl

/-- A clause that was told consists of what is left after cutting. -/
theorem Told.types (hp : p.Sound) {u : CompilationUnit} {d : DeclId}
    (hu : p.registry.unit? u.id = some u) (hd : u.HasClause d)
    {m q : Computed} (hm : p.meaning? (u.symbol d) = some m)
    (hcut : p.Cut (u.symbol d) m q)
    (hmeans : (w.slots u d).SaysSame (q.fill (p.world.slots u d))) :
    Slot.types (w.clause u d) = q.types := by
  have he := hd.eligible
  rw [CompilationUnit.isEligible, Option.any_eq_true] at he
  obtain ⟨x, hx, he⟩ := he
  have hkind : u.kind? d = some x.kind := by
    rw [CompilationUnit.kind?, hx]
    rfl
  have hk := hd.classLike
  rw [CompilationUnit.isClassLike, hkind] at hk
  obtain ⟨t, r, v, -, hclause, rfl⟩ := result?_cases (c := u.symbol d)
    hp.coherent hp.settled hu hx hk he hm
  have halias : q.isAlias = (x.kind == .typeAlias) := hcut.isAlias
  unfold World.clause
  dsimp only
  rw [hmeans.1, hmeans.2, hkind, Computed.supertypes_fill,
    Computed.expansion_fill, halias]
  by_cases hal : x.kind = .typeAlias
  · rw [if_pos (by rw [hal]), if_pos (beq_iff_eq.mpr hal)]
    -- an alias has been written with one type at most
    have hlen : q.types.length ≤ 1 := by
      obtain ⟨cuts, -, htypes⟩ := hcut.types
      have hone : (p.world.clause u d).length ≤ 1 :=
        length_clause_of_alias (by rw [hkind, hal]) p.world
      rw [htypes, List.length_map, Computed.ofClause,
        beq_iff_eq.mpr hal, Bool.not_true, Bool.false_and,
        if_neg Bool.false_ne_true]
      exact Nat.le_trans (resolveClause_length _ _ _ _ _ _ _ hclause) hone
    cases htypes : q.types with
    | nil => rfl
    | cons t rest =>
        rw [htypes] at hlen
        cases rest with
        | nil => rfl
        | cons t' rest => simp at hlen
  · rw [if_neg fun h => hal (Option.some.inj h),
      if_neg fun h => hal (beq_iff_eq.mp h), Slot.types_map_resolved]

/-- Such a clause shows what it should. -/
theorem Told.shows (hp : p.Sound) {u : CompilationUnit} {d : DeclId}
    (hu : p.registry.unit? u.id = some u) (hd : u.HasClause d)
    (h : p.Told w u d) :
    p.Shows (u.symbol d) (.ofCommitted (Slot.types (w.clause u d))) := by
  obtain ⟨m, q, hm, hcut, hmeans⟩ := h
  rw [Told.types hp hu hd hm hcut hmeans]
  have hclasses : (Computed.ofCommitted q.types).classes = q.classes := by
    rw [Computed.classes, Computed.types_ofCommitted, Computed.classes]
  refine ⟨fun hn => ?_, fun b hb => ?_, fun hc => ?_⟩
  · cases hn
  · rw [hclasses] at hb
    rw [Refers, edges_eq hm]
    exact hcut.mem_classes hb
  · rw [hclasses, edges_eq hm]
    exact hcut.classes_eq hm hc

-- ============================================================ import tables

/-- The import tables that were stored, and those that the session keeps,
are right. -/
structure Tables (p : Recursion) (w : World) : Prop where
  registry : w.registry = p.registry
  stored : ∀ u t, w.Registered u → (w.slots u .root).imports = some t →
    p.Tabulates u t
  session : ∀ u t, w.Registered u → w.session.imports.find? u.id = some t →
    p.Tabulates u t

/-- They do not depend on anything else. -/
theorem Tables.of_eq (h : p.Tables v) (hr : w.registry = v.registry)
    (hs : w.states = v.states) (hi : w.session.imports = v.session.imports) :
    p.Tables w where
  registry := hr.trans h.registry
  stored := fun u t hu ht => by
    rw [World.Registered, hr] at hu
    rw [slots, state_eq hs] at ht
    exact h.stored u t hu ht
  session := fun u t hu ht => by
    rw [World.Registered, hr] at hu
    rw [hi] at ht
    exact h.session u t hu ht

/-- The import table of a unit that a session needs. -/
theorem Tables.storedOrFreshImports (hp : p.Sound) (hw : p.Tables w)
    {u : CompilationUnit} (hu : w.Registered u) {t : ImportTable} {w' : World}
    (h : Action.storedOrFreshImports u w = (.ok t, w')) :
    w' = w ∧ p.Tabulates u t := by
  obtain ⟨stored, v', hread, h⟩ := bind_run_eq_ok_iff.mp h
  cases hread
  cases hs : (w.slots u .root).imports with
  | some t' =>
      dsimp only at h
      rw [hs] at h
      cases h
      exact ⟨rfl, hw.stored u t hu hs⟩
  | none =>
      dsimp only at h
      rw [hs] at h
      obtain ⟨⟨t', errors⟩, v', htable, h⟩ := bind_run_eq_ok_iff.mp h
      cases h
      rw [importTable_run hp.settled hw.registry, Prod.mk.injEq] at htable
      exact ⟨htable.2.symm, errors, htable.1⟩

/-- A unit that the session needs. Afterwards the session keeps its table,
and nothing else has changed. -/
theorem Tables.sessionUnit? (hp : p.Sound) (hw : p.Tables w) {id : UnitId}
    {found : Option CompilationUnit} {w' : World}
    (h : Action.sessionUnit? id w = (.ok found, w')) :
    found = p.registry.unit? id ∧ p.Tables w' ∧
      (∃ imports, w' = { w with session :=
        { w.session with imports := imports } }) ∧
      ∀ u, found = some u → ∃ t, w'.session.imports.find? id = some t ∧
        p.Tabulates u t := by
  obtain ⟨found', v', hread, h⟩ := bind_run_eq_ok_iff.mp h
  cases hread
  rw [← hw.registry]
  dsimp only at h
  cases hfound : w.registry.unit? id with
  | none =>
      rw [hfound] at h
      cases h
      exact ⟨rfl, hw, ⟨_, rfl⟩, nofun⟩
  | some u =>
      rw [hfound] at h
      have hid : u.id = id :=
        hp.coherent.named id u (by rw [← hw.registry]; exact hfound)
      have hu : w.Registered u := by rw [World.Registered, hid]; exact hfound
      obtain ⟨known, v', hread, h⟩ := bind_run_eq_ok_iff.mp h
      cases hread
      split at h
      · next hknown =>
        cases h
        obtain ⟨t, ht⟩ := Option.isSome_iff_exists.mp
          (show (w.session.imports.find? id).isSome from hknown)
        refine ⟨rfl, hw, ⟨_, rfl⟩, fun u' hu' => ?_⟩
        cases hu'
        exact ⟨t, ht, hw.session u t hu (by rw [hid]; exact ht)⟩
      · obtain ⟨t, v', hstored, hrest⟩ := bind_run_eq_ok_iff.mp h
        obtain ⟨rfl, ht⟩ := hw.storedOrFreshImports hp hu hstored
        cases hrest
        refine ⟨rfl, ⟨hw.registry, hw.stored, fun u' t' hu' h => ?_⟩,
          ⟨_, rfl⟩, fun u' hu' => ?_⟩
        · change (v'.session.imports.insert id t).find? u'.id = some t' at h
          rw [Table.find?_insert] at h
          split at h
          · next heq =>
            cases h
            obtain rfl : u = u' := hu.eq hu' (hid.trans heq)
            exact ht
          · exact hw.session u' t' hu' h
        · cases hu'
          exact ⟨t, by simp, ht⟩

-- ================================================================== learning

/-- What a session has learned that began in some world. Nothing but the
session has changed since, and what it found for a class is what it
should be. A class is pending only if it was not final. -/
structure Learns (p : Recursion) (v : World) (U : Symbol → Prop)
    (w : World) : Prop where
  registry : w.registry = v.registry
  states : w.states = v.states
  deferred : w.counters.deferred = v.counters.deferred
  tables : p.Tables w
  result : ∀ c r, w.session.result? c = some r →
    p.Shows c r ∧ (r.isPending = true → ¬ v.Done c)
  underWay : ∀ c, w.session.progress.find? c = some .underWay → U c

variable {U : Symbol → Prop}

/-- A unit that the session needs, with the right import table. -/
theorem sessionUnit?_learns (hp : p.Sound) (id : UnitId) :
    Triple (p.Learns v U) (sessionUnit? id) (fun found w =>
      (p.Learns v U w ∧ ∀ u, found = some u →
        ∃ t, w.session.imports.find? id = some t ∧ p.Tabulates u t) ∧
      found = p.registry.unit? id) fun _ => True := by
  refine .of_runs (fun w found w' hw hrun => ?_) fun _ _ _ _ _ => trivial
  obtain ⟨hfound, htables, ⟨_, rfl⟩, hkept⟩ := hw.tables.sessionUnit? hp hrun
  exact ⟨⟨⟨hw.registry, hw.states, hw.deferred, htables, hw.result,
    hw.underWay⟩, hkept⟩, hfound⟩

/-- A run of plain recursion beside a session that goes on. -/
def Beside (p : Recursion) (v : World) (U : Symbol → Prop) (a w : World) :
    Prop :=
  (∃ u t, a = p.noting u t) ∧ p.Learns v U w

/-- Looking names up leaves both. -/
theorem beside_lookups (hp : p.Sound) (hv : p.Underlies v) :
    (SideBySide.echoing (p.Beside v U) fun _ => True).Lookups := by
  have hsame : ∀ a w, p.Beside v U a w → a.registry = w.registry := by
    rintro a w ⟨⟨u, t, rfl⟩, hw⟩
    exact (hw.registry.trans hv.registry).symm
  refine ⟨hsame, fun k => ⟨fun _ h => h, fun a w h => Or.inr ?_⟩⟩
  have hregistry := hsame a w h
  have ha : a.registry.Settled := by
    obtain ⟨⟨u, t, rfl⟩, -⟩ := h
    exact hp.settled
  rw [classifier_of_settled ha, classifier_of_settled (hregistry ▸ ha),
    hregistry]
  exact ⟨rfl, h⟩

/-- A clause as it was written comes to what it means, if the session tells
no less than the recursion is told. -/
theorem resolveClause_learns (hp : p.Sound) (hv : p.Underlies v) {c : Symbol}
    {n : Nat} {source : SupertypeSource}
    (hsource : ∀ b, Echoes (p.Beside v U) (fun _ => True) (p.source n b)
      (source b)) {u : CompilationUnit} {x : Declaration} {t : ImportTable}
    {m : Computed} (hu : p.registry.unit? c.unit = some u)
    (hx : u.decl? c.decl = some x) (hk : x.kind.isClassLike = true)
    (he : x.isEligible = true) (ht : p.Tabulates u t)
    (hm : p.result? n c = some m) :
    Triple (p.Learns v U) (resolveClause ⟨u, t, p.defaults⟩ source c.decl
        (p.world.clause u c.decl))
      (fun r w => p.Learns v U w ∧ .ofClause x r = m) fun _ => True := by
  intro w hw
  obtain ⟨t', r, a, ht', hclause, rfl⟩ := result?_cases hp.coherent hp.settled
    hu hx hk he hm
  obtain rfl := ht.unique ht'
  have hecho := Echoes.resolveClause (beside_lookups hp hv) hsource
    ⟨u, t, p.defaults⟩ c.decl (p.world.clause u c.decl) _ w r a
    ⟨⟨u, t, rfl⟩, hw⟩ hclause
  rcases hrun : resolveClause ⟨u, t, p.defaults⟩ source c.decl
      (p.world.clause u c.decl) w with ⟨e | r', w'⟩
  · trivial
  · rw [hrun] at hecho
    obtain ⟨rfl, -, hw'⟩ := hecho
    exact ⟨hw', rfl⟩

/-- A class whose clause is still open comes to what it means. -/
theorem openClause_learns (hp : p.Sound) (hv : p.Underlies v) {c : Symbol}
    {n : Nat} {source : SupertypeSource}
    (hsource : ∀ b, Echoes (p.Beside v U) (fun _ => True) (p.source n b)
      (source b)) {u : CompilationUnit} {x : Declaration} {t : ImportTable}
    {m : Computed} (hu : p.registry.unit? c.unit = some u)
    (hx : u.decl? c.decl = some x) (hk : x.kind.isClassLike = true)
    (he : x.isEligible = true) (ht : p.Tabulates u t)
    (hm : p.result? n c = some m) (hmeaning : p.meaning? c = some m)
    (hclause : v.clause u c.decl = p.world.clause u c.decl)
    (hopen : ¬ v.Done c) :
    Triple (p.Learns v U) (do
        let (references, errors) ← resolveClause ⟨u, t, p.defaults⟩ source
          c.decl (v.clause u c.decl)
        return .ofClause x (references, errors))
      (fun r w => p.Learns v U w ∧ p.Shows c r ∧
        (r.isPending = true → ¬ v.Done c)) fun _ => True := by
  rw [hclause]
  refine .bind (resolveClause_learns hp hv hsource hu hx hk he ht hm)
    fun r => .pure ?_
  rintro w ⟨hw, rfl⟩
  refine ⟨hw, ⟨fun _ => hmeaning, fun b hb => ?_, fun _ => ?_⟩, fun _ => hopen⟩
  · rw [Refers, edges_eq hmeaning]
    exact hb
  · rw [edges_eq hmeaning]

/-- What a class-like declaration comes to: what its clause was told, or
what its clause means. -/
theorem classLike_learns (hp : p.Sound) (hv : p.Underlies v) (hs : p.Spells v)
    {c : Symbol} {n : Nat} {source : SupertypeSource}
    (hsource : ∀ b, Echoes (p.Beside v U) (fun _ => True) (p.source n b)
      (source b))
    (hc : p.IsClass c → ∃ m, p.result? n c = some m ∧ p.meaning? c = some m)
    {u : CompilationUnit} {x : Declaration}
    (hu : p.registry.unit? c.unit = some u) (hx : u.decl? c.decl = some x)
    (hk : x.kind.isClassLike = true) :
    Triple (fun w => p.Learns v U w ∧
        ∃ t, w.session.imports.find? c.unit = some t ∧ p.Tabulates u t) (do
        let clause ← read fun w => w.clause u c.decl
        let own ← read fun w => w.own u c.decl
        if .supertypes ≤ own || !x.isEligible then
          return .ofCommitted (Slot.types clause)
        else
          let table ← session fun s => (s.imports.find? c.unit).getD .empty
          let (references, errors) ← resolveClause ⟨u, table, p.defaults⟩ source
            c.decl clause
          return .ofClause x (references, errors))
      (fun r w => p.Learns v U w ∧ p.Shows c r ∧
        (r.isPending = true → ¬ v.Done c)) fun _ => True := by
  have hid : u.id = c.unit := hp.coherent.named c.unit u hu
  have hreg : p.registry.unit? u.id = some u := by
    rw [hid]
    exact hu
  have hu' : v.Registered u := by
    rw [World.Registered, hv.registry]
    exact hreg
  have hsymbol : u.symbol c.decl = c := by
    rw [CompilationUnit.symbol, hid]
  -- nothing but the session has changed
  refine .read_bind fun clause => .read_bind fun own => ?_
  refine Triple.pre (P := fun w => (p.Learns v U w ∧
    ∃ t, w.session.imports.find? c.unit = some t ∧ p.Tabulates u t) ∧
      (v.clause u c.decl = clause ∧ v.own u c.decl = own)) ?_ fun w hw => ?_
  case refine_2 =>
    obtain ⟨⟨hw, hclause⟩, hown⟩ := hw
    refine ⟨hw, ?_, ?_⟩
    · rw [← hclause]
      refine (clause_eq ?_).symm
      rw [slots, slots, state_eq hw.1.states]
      exact ⟨rfl, rfl⟩
    · rw [← hown, World.own, World.own, state_eq hw.1.states]
  refine .assume ?_
  rintro ⟨rfl, rfl⟩
  by_cases he : x.isEligible = true
  case neg =>
    rw [if_pos (by simp [he])]
    have hclass : ¬ p.IsClass c := by
      rintro ⟨u', x', hu', hx', -, he'⟩
      obtain rfl := Option.some.inj (hu.symm.trans hu')
      obtain rfl := Option.some.inj (hx.symm.trans hx')
      exact he he'
    refine .pure fun w hw => ⟨hw.1, .of_not_isClass hp hclass ?_,
      fun hn => by cases hn⟩
    have hmeans := hs.unmarked u c.decl hu' fun h => he (by
      have := h.1.eligible
      rw [CompilationUnit.isEligible, hx] at this
      exact this)
    rw [clause_eq hmeans, types_clause_of_unresolved
      (slots_world hp.coherent hreg c.decl)]
    rfl
  have hisClass : p.IsClass c := ⟨u, x, hu, hx, hk, he⟩
  obtain ⟨m, hresult, hmeaning⟩ := hc hisClass
  by_cases hle : .supertypes ≤ v.own u c.decl
  · -- the clause was told
    have hclass : u.HasClause c.decl := by
      obtain ⟨u', d, hu', rfl, hd⟩ := hp.hasClause hisClass
      cases hu'.symm.trans hu
      exact hd
    rw [if_pos (by simp [hle])]
    refine .pure fun w hw => ⟨hw.1, ?_, fun hn => by cases hn⟩
    have hshows := (hs.marked u c.decl hu' hclass hle).shows hp hreg hclass
    rwa [hsymbol] at hshows
  · have hopen : ¬ (decide (.supertypes ≤ v.own u c.decl) ||
        !x.isEligible) = true := by simp [hle, he]
    rw [if_neg hopen]
    refine .read_bind fun table => ?_
    refine Triple.pre (P := fun w => p.Learns v U w ∧ p.Tabulates u table)
      (.assume fun htab => ?_) fun w hw => ?_
    · exact openClause_learns hp hv hsource hu hx hk he htab hresult hmeaning
        (clause_eq (hs.unmarked u c.decl hu' fun h => hle h.2))
        fun hdone => hle (hdone.marked u x hu' hid hx hk he)
    · obtain ⟨⟨hw, t, ht, htab⟩, hread⟩ := hw
      dsimp only at hread
      rw [ht, Option.getD_some] at hread
      exact ⟨hw, hread ▸ htab⟩

/-- The result for a class is what it should be, if the session tells no
less than the recursion is told. -/
theorem evaluate_learns (hp : p.Sound) (hv : p.Underlies v) (hs : p.Spells v)
    {c : Symbol} {n : Nat} {source : SupertypeSource}
    (hsource : ∀ b, Echoes (p.Beside v U) (fun _ => True) (p.source n b)
      (source b))
    (hc : p.IsClass c → ∃ m, p.result? n c = some m ∧ p.meaning? c = some m) :
    Triple (p.Learns v U) (evaluate p.defaults source c)
      (fun r w => p.Learns v U w ∧ p.Shows c r ∧
        (r.isPending = true → ¬ v.Done c)) fun _ => True := by
  -- what is no class has no supertypes
  have hnone : ¬ p.IsClass c → ∀ w, p.Learns v U w → p.Learns v U w ∧
      p.Shows c (.ofCommitted []) ∧
        ((Computed.ofCommitted []).isPending = true → ¬ v.Done c) :=
    fun h w hw => ⟨hw, .of_not_isClass hp h rfl, fun hn => by cases hn⟩
  refine .bind (sessionUnit?_learns hp c.unit) fun found =>
    .assume fun hfound => ?_
  cases found with
  | none =>
      refine .pure fun w hw => hnone ?_ w hw.1
      rintro ⟨u, -, hu, -⟩
      cases hfound.trans hu
  | some u =>
      dsimp only
      split
      · next hx =>
        refine .pure fun w hw => hnone ?_ w hw.1
        rintro ⟨u', x, hu', hx', -⟩
        obtain rfl := Option.some.inj (hfound.trans hu')
        cases hx.symm.trans hx'
      · next x hx =>
        split
        · next hk =>
          refine .pure fun w hw => hnone ?_ w hw.1
          rintro ⟨u', x', hu', hx', hk', -⟩
          obtain rfl := Option.some.inj (hfound.trans hu')
          obtain rfl := Option.some.inj (hx.symm.trans hx')
          rw [hk'] at hk
          cases hk
        · next hk =>
          exact (classLike_learns hp hv hs hsource hc hfound.symm hx
            (by simpa using hk)).pre fun w hw => ⟨hw.1, hw.2 u rfl⟩

-- ================================================================ computing

/-- A source that a recursion asks answers what the class it is asked for
means. It is not asked for a class that is on a cycle. -/
theorem source_run (hp : p.Sound) {n : Nat} {b : Symbol} {bs : List Symbol}
    {u : CompilationUnit} {t : ImportTable} {a : World}
    (h : p.source n b (p.noting u t) = (.ok bs, a)) :
    a = p.noting u t ∧ ¬ TransGen p.Refers b b ∧
      ∃ k m, k < n ∧ p.result? k b = some m ∧ m.classes = bs := by
  cases n with
  | zero => cases h
  | succ k =>
      unfold source at h
      split at h
      · cases h
      · next hbarred =>
        unfold afresh at h
        rw [Prod.mk.injEq] at h
        obtain ⟨h, rfl⟩ := h
        have hrun : (do return (← evaluate p.defaults (p.source k) b).classes :
            Action (List Symbol)) p.world = (.ok bs, _) := run_of_fst h
        obtain ⟨m, w', hm, hpure⟩ := bind_run_eq_ok_iff.mp hrun
        cases hpure
        exact ⟨rfl, fun hcycle => hbarred (hp.circular b hcycle), k, m,
          Nat.lt_succ_self k, result?_eq_some_iff.mpr ⟨_, hm⟩, rfl⟩

/-- What is found is found at some least depth. -/
theorem exists_least {k : Nat} {b : Symbol} {m : Computed}
    (h : p.result? k b = some m) : ∃ n ≤ k, p.result? n b = some m ∧
      ∀ j < n, p.result? j b = none := by
  induction k using Nat.strongRecOn with
  | ind k ih =>
      by_cases hleast : ∀ j < k, p.result? j b = none
      · exact ⟨k, Nat.le_refl k, h, hleast⟩
      · simp only [not_forall] at hleast
        obtain ⟨j, hj, hne⟩ := hleast
        obtain ⟨q, hq⟩ := Option.ne_none_iff_exists'.mp hne
        obtain ⟨n, hn, hrest⟩ := ih j hj (by rw [hq, result?_unique hq h])
        exact ⟨n, by omega, hrest⟩

namespace Learns

variable {b c : Symbol} {r : Computed}

/-- What was learned does not depend on anything else. -/
theorem of_eq {w' : World} (h : p.Learns v U w)
    (hr : w'.registry = w.registry) (hs : w'.states = w.states)
    (hd : w'.counters.deferred = w.counters.deferred)
    (hp : w'.session.progress = w.session.progress)
    (hi : w'.session.imports = w.session.imports) : p.Learns v U w' where
  registry := hr.trans h.registry
  states := hs.trans h.states
  deferred := hd.trans h.deferred
  tables := h.tables.of_eq hr hs hi
  result := fun c r hc => h.result c r (by
    rwa [Session.result?, hp] at hc)
  underWay := fun c hc => h.underWay c (hp ▸ hc)

/-- The computation of a class begins. -/
theorem enter (h : p.Learns v U w) (c : Symbol) :
    p.Learns v (fun b => U b ∨ c = b)
      { w with session := w.session.enter c } := by
  refine ⟨h.registry, h.states, h.deferred, h.tables.of_eq rfl rfl rfl,
    fun b r hr => ?_, fun b hb => ?_⟩
  · rw [Session.result?_enter] at hr
    split at hr
    · cases hr
    · exact h.result b r hr
  · change (w.session.progress.insert c .underWay).find? b = _ at hb
    rw [Table.find?_insert] at hb
    split at hb
    · next hcb => exact Or.inr hcb
    · exact Or.inl (h.underWay b hb)

/-- It ends. -/
theorem finish (h : p.Learns v (fun b => U b ∨ c = b) w)
    (hr : p.Shows c r ∧ (r.isPending = true → ¬ v.Done c)) :
    p.Learns v U { w with session := w.session.finish c r } := by
  refine ⟨h.registry, h.states, h.deferred, h.tables.of_eq rfl rfl rfl,
    fun b q hq => ?_, fun b hb => ?_⟩
  · rw [Session.result?_finish] at hq
    split at hq
    · next hcb =>
      cases hq
      exact hcb ▸ hr
    · exact h.result b q hq
  · change (w.session.progress.insert c (.done r)).find? b = _ at hb
    rw [Table.find?_insert] at hb
    split at hb
    · cases hb
    · next hcb => exact (h.underWay b hb).resolve_right hcb

/-- A class that is on no cycle shows all that it refers to. -/
theorem classes (h : p.Learns v U w) (hp : p.Sound)
    (hr : w.session.result? b = some r) (hcycle : ¬ TransGen p.Refers b b)
    {k : Nat} {m : Computed} (hm : p.result? k b = some m) :
    w.session.classes b = m.classes := by
  rw [Session.classes, hr]
  refine ((h.result b r hr).1.whole hcycle).trans ?_
  rcases classes_result? hp.coherent hp.settled hm with hnone | hclass
  · unfold edges
    split
    · next q hq => rw [result?_unique hq hm]
    · exact hnone.symm
  · obtain ⟨q, hq⟩ := hp.meaning hclass
    rw [edges_eq hq, result?_unique hq hm]

/-- The session tells what the recursion is told, if it does not come back
to what is under way, and finds what it should. -/
theorem source_echoes (hp : p.Sound) {n fuel : Nat}
    (hU : ∀ k < n, ∀ m, p.result? k b = some m → ¬ U b)
    (hcompute : ∀ k < n, ∀ m, p.result? k b = some m →
      Triple (p.Learns v U) (compute p.defaults fuel b)
        (fun _ w => p.Learns v U w ∧ ∃ r, w.session.result? b = some r)
        fun _ => True) :
    Echoes (p.Beside v U) (fun _ => True) (p.source n b) (do
      if !(← session fun s => s.hasMet b) then compute p.defaults fuel b
      session fun s => s.classes b) := by
  rintro _ w bs a ⟨⟨u, t, rfl⟩, hw⟩ hrun
  obtain ⟨rfl, hcycle, k, m, hk, hm, rfl⟩ := source_run hp hrun
  have hanswer : Triple (fun w => p.Learns v U w ∧
      ∃ r, w.session.result? b = some r) (session fun s => s.classes b)
      (fun bs w => bs = m.classes ∧ p.Beside v U (p.noting u t) w)
      fun _ => True :=
    .read fun w ⟨hw, r, hr⟩ => ⟨hw.classes hp hr hcycle hm, ⟨u, t, rfl⟩, hw⟩
  refine (Triple.read_bind (P := p.Learns v U) fun met => ?_) w hw
  cases met with
  | true =>
      refine hanswer.pre fun w hw => ⟨hw.1, ?_⟩
      exact (Session.hasMet_iff.mp hw.2).resolve_left fun hunder =>
        hU k hk m hm (hw.1.underWay b hunder)
  | false =>
      exact .bind ((hcompute k hk m hm).pre fun _ hw => hw.1) fun _ => hanswer

end Learns

/-- Computing a class finds what it should, where all that is under way
needs a deeper recursion. -/
theorem compute_learns (hp : p.Sound) (hv : p.Underlies v) (hs : p.Spells v)
    (n : Nat) (U : Symbol → Prop) (c : Symbol) (fuel : Nat)
    (hU : ∀ b, U b → p.result? n b = none)
    (hleast : ∀ k < n, p.result? k c = none)
    (hc : p.IsClass c → ∃ m, p.result? n c = some m) :
    Triple (p.Learns v U) (compute p.defaults fuel c)
      (fun _ w => p.Learns v U w ∧ ∃ r, w.session.result? c = some r)
      fun _ => True := by
  induction n using Nat.strongRecOn generalizing U c fuel with
  | _ n ih =>
  cases fuel with
  | zero => exact .stop fun _ _ => trivial
  | succ fuel =>
      -- what is under way now needs more than any depth below
      have hdeeper : ∀ k < n, ∀ b, U b ∨ c = b → p.result? k b = none := by
        rintro k hk b (hb | rfl)
        · cases hq : p.result? k b with
          | none => rfl
          | some q =>
              have hn := result?_mono (Nat.le_of_lt hk) hq
              rw [hU b hb] at hn
              cases hn
        · exact hleast k hk
      have hsource : ∀ b, Echoes (p.Beside v fun b => U b ∨ c = b)
          (fun _ => True) (p.source n b) (do
            if !(← session fun s => s.hasMet b) then compute p.defaults fuel b
            session fun s => s.classes b) := by
        refine fun b => Learns.source_echoes hp (fun k hk m hm hb => ?_)
          fun k hk m hm => ?_
        · rw [hdeeper k hk b hb] at hm
          cases hm
        · obtain ⟨j, hj, hmj, hleastj⟩ := exists_least hm
          have hjn : j < n := Nat.lt_of_le_of_lt hj hk
          exact ih j hjn _ b fuel (hdeeper j hjn) hleastj fun _ => ⟨m, hmj⟩
      refine .bind (.update fun w hw => hw.enter c) fun _ =>
        .bind (evaluate_learns hp hv hs hsource fun hclass => ?_)
          fun r => .update fun w hw => ⟨hw.1.finish hw.2, r, ?_⟩
      · obtain ⟨m, hm⟩ := hc hclass
        obtain ⟨q, hq⟩ := hp.meaning hclass
        exact ⟨m, hm, by rw [hq, result?_unique hq hm]⟩
      · rw [Session.result?_finish, if_pos rfl]

/-- No computation is under way. -/
abbrev LearnsAll (p : Recursion) (v : World) : World → Prop :=
  p.Learns v fun _ => False

/-- All rounds find what they should. -/
theorem computeRounds_learns (hp : p.Sound) (hv : p.Underlies v)
    (hs : p.Spells v) {config : Config}
    (hdefaults : p.defaults = config.defaultImports) (cancellable : Bool)
    (fuel : Nat) (work : List Symbol) :
    Triple (p.LearnsAll v) (computeRounds config cancellable fuel work)
      (fun _ => p.LearnsAll v) fun _ => True := by
  have hround : ∀ c, Triple (p.LearnsAll v) (computeRound config cancellable c)
      (fun _ => p.LearnsAll v) fun _ => True := by
    intro c
    refine .read_bind fun met => ?_
    cases met with
    | true => exact .pure fun _ hw => hw.1
    | false =>
        refine .read_then fun bound => ?_
        have hcompute : Triple (p.LearnsAll v)
            (compute config.defaultImports bound c)
            (fun _ => p.LearnsAll v) fun _ => True := by
          rw [← hdefaults]
          by_cases hc : p.IsClass c
          · obtain ⟨m, hm⟩ := hp.meaning hc
            obtain ⟨n, -, hmn, hleast⟩ := exists_least hm
            exact (compute_learns hp hv hs n _ c bound (fun _ h => h.elim)
              hleast fun _ => ⟨m, hmn⟩).post fun _ _ hw => hw.1
          · exact (compute_learns hp hv hs 0 _ c bound (fun _ h => h.elim)
              (fun k hk => absurd hk (Nat.not_lt_zero k)) fun h =>
                absurd h hc).post fun _ _ hw => hw.1
        refine .bind (hcompute.pre fun _ hw => hw.1) fun _ => ?_
        refine .bind (Q := fun _ => p.LearnsAll v) (.update fun w hw =>
          hw.of_eq rfl rfl rfl rfl rfl) fun _ => .read_then fun processed => ?_
        split
        · exact .checkCancelled fun _ _ => trivial
        · exact .pure fun _ hw => hw
  induction fuel generalizing work with
  | zero =>
      cases work with
      | nil => exact .pure fun _ hw => hw
      | cons c rest => exact .stop fun _ _ => trivial
  | succ fuel ih =>
      cases work with
      | nil => exact .pure fun _ hw => hw
      | cons c rest =>
          refine .bind (Q := fun _ => p.LearnsAll v) (.update fun w hw =>
            hw.of_eq rfl rfl rfl rfl rfl) fun _ => ?_
          refine .bind (Q := fun _ => p.LearnsAll v) (.each fun c _ => hround c)
            fun _ => .read_bind fun next => ?_
          refine .bind (Q := fun _ => p.LearnsAll v) (.update ?_)
            fun _ => ih next.1
          rintro w ⟨hw, rfl⟩
          exact hw.of_eq rfl rfl rfl rfl rfl

-- ================================================================== cutting

end Recursion

namespace Recursion.Learns

variable {p : Recursion} {v w : World} {own : UnitId} {t : Thread}

/-- What is final does not change by computing. -/
theorem done_iff (h : p.LearnsAll v w) {c : Symbol} :
    w.Done c ↔ v.Done c := by
  have hown : ∀ u d, w.own u d = v.own u d := fun u d => by
    rw [World.own, World.own, state_eq h.states]
  constructor
  · rintro ⟨hknown, hmarked⟩
    rw [h.registry] at hknown
    refine ⟨hknown, fun u x hu => ?_⟩
    rw [← hown]
    exact hmarked u x (by rwa [World.Registered, h.registry])
  · rintro ⟨hknown, hmarked⟩
    refine ⟨by rwa [h.registry], fun u x hu => ?_⟩
    rw [hown]
    exact hmarked u x (by rwa [World.Registered, ← h.registry])

/-- When nothing was put off, a class that was met is final or pending. -/
theorem pending_of_not_done (h : p.LearnsAll v w) (hclosed : w.Closed own t)
    (hzero : v.counters.deferred = 0) {c : Symbol}
    (hmet : w.session.hasMet c = true) (hc : ¬ v.Done c) :
    ∃ r, w.session.result? c = some r ∧ r.isPending = true := by
  obtain ⟨r, hr⟩ := hclosed.followed.result? hmet
  refine ⟨r, hr, ?_⟩
  cases hcommitted : r.committed with
  | true =>
      exact absurd (h.done_iff.mp
        ((hclosed.remembers.result c r hr).committed hcommitted)) hc
  | false =>
      cases happlied : r.applied with
      | true =>
          rcases hclosed.kept c r hr hcommitted happlied with
            hdone | ⟨-, -, hpos⟩
          · exact absurd (h.done_iff.mp hdone) hc
          · rw [h.deferred, hzero] at hpos
            exact absurd hpos (Nat.lt_irrefl 0)
      | false => simp [Computed.isPending, hcommitted, happlied]

/-- The classes that a pending class refers to are the edges of the
session. -/
theorem mem_edges_iff (h : p.LearnsAll v w) (hclosed : w.Closed own t)
    {c b : Symbol} {r : Computed} (hr : w.session.result? c = some r)
    (hpending : r.isPending = true) :
    b ∈ w.session.edges c ↔ p.Refers c b := by
  have hm := (h.result c r hr).1.pending hpending
  have hcommitted := Computed.not_committed hpending
  rw [Refers, edges_eq hm, Session.edges, List.mem_filter, Session.classes, hr]
  refine ⟨And.left, fun hb => ⟨hb, List.contains_iff_mem.mpr ?_⟩⟩
  exact (hclosed.remembers.listed b).mpr
    ((hclosed.followed.classes c r hr hcommitted b hb).resolve_right
      List.not_mem_nil)

/-- Along what clauses mean, the session follows all that leads to a class
that is not final. -/
theorem edges_of_refers (h : p.LearnsAll v w) (hs : p.Completes v)
    (hclosed : w.Closed own t) (hzero : v.counters.deferred = 0)
    {a b : Symbol} (ha : ¬ v.Done a) (hmet : w.session.hasMet b = true)
    (hba : ReflTransGen p.Refers b a) :
    ReflTransGen (fun x y => y ∈ w.session.edges x) b a := by
  induction hba using ReflTransGen.head_induction_on with
  | refl => exact .refl
  | @head b c hbc hca ih =>
      -- nothing final leads to a class that is not
      have hopen : ∀ {x}, ReflTransGen p.Refers x a → ¬ v.Done x := by
        intro x hxa hx
        induction hxa using ReflTransGen.head_induction_on with
        | refl => exact ha hx
        | head hxy _ ih => exact ih (hs.closed _ _ hxy hx)
      obtain ⟨r, hr, hp⟩ := h.pending_of_not_done hclosed hzero hmet
        (hopen (.head hbc hca))
      have hc := (h.mem_edges_iff hclosed hr hp).mpr hbc
      refine .head hc (ih ?_)
      rw [← hclosed.remembers.listed]
      exact List.contains_iff_mem.mp (List.mem_filter.mp hc).2

/-- For the session a reference of a pending class closes a cycle exactly
if it lies on one. -/
theorem closesCycle_iff (h : p.LearnsAll v w) (hs : p.Completes v)
    (hclosed : w.Closed own t) (hzero : v.counters.deferred = 0)
    {a : Symbol} {r : Computed} (hr : w.session.result? a = some r)
    (hpending : r.isPending = true) {x : Reference} (hx : x ∈ r.references) :
    w.session.closesCycle a x = true ↔ p.Closes a x := by
  have ha := (h.result a r hr).2 hpending
  have hedges : ∀ b c, c ∈ w.session.edges b → p.Refers b c := by
    intro b c hc
    have hc := (List.mem_filter.mp hc).1
    unfold Session.classes at hc
    split at hc
    · next q hq => exact (h.result b q hq).1.classes c hc
    · cases hc
  unfold Session.closesCycle Closes
  cases hb : x.type.class? with
  | none => simp
  | some b =>
      have hedge := (h.mem_edges_iff hclosed hr hpending).mpr
        ((h.result a r hr).1.classes b (Computed.mem_classes_iff.mpr ⟨x, hx, hb⟩))
      have hlisted := (List.mem_filter.mp hedge).2
      have horder := List.contains_iff_mem.mp hlisted
      dsimp only
      rw [hlisted, Bool.true_and, List.contains_iff_mem,
        Graph.mem_reach_iff horder]
      constructor
      · exact fun hba => ⟨b, rfl, ReflTransGen.mono hedges _ _ hba⟩
      · rintro ⟨_, heq, hba⟩
        cases heq
        exact h.edges_of_refers hs hclosed hzero ha
          ((hclosed.remembers.listed b).mp horder) hba

/-- The session cuts a pending class where it should. -/
theorem cut (h : p.LearnsAll v w) (hs : p.Completes v)
    (hclosed : w.Closed own t) (hzero : v.counters.deferred = 0)
    {a : Symbol} {r : Computed} (hr : w.session.result? a = some r)
    (hpending : r.isPending = true) :
    p.Cut a r (w.session.cutResult a r) where
  isAlias := (Session.faithful_cutResult w.session).isAlias a r
  types := by
    refine ⟨w.session.closesCycle a, fun x hx =>
      h.closesCycle_iff hs hclosed hzero hr hpending hx, ?_⟩
    rw [Session.cutResult_of_pending a hpending, Computed.types, List.map_map]
    refine List.map_congr_left fun x _ => ?_
    rw [Function.comp_apply]
    split <;> rfl

end Recursion.Learns

end StagedResolve
