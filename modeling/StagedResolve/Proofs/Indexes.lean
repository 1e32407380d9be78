/-
Indexes: what the tables of a registry say, and about which units.

# The invariant

A registry keeps its units and, beside them, what can be looked up
without opening one. `Indexed` says that the tables hold what the
registered units put there and nothing else: a path stands under the id
of the unit that has it, and a key under the last declaration with such
a name, in whichever unit has one. It is the only statement about the
tables that is strong enough to be kept: taking a unit out filters the
classifiers by unit, and what is left is right because no two registered
units share a path or a key.

Each operation is split once into what it can come to (`addUnit_cases`
and its siblings), and everything else is read off these cases.

# What a reader of the tables may rely on

Two names with one key are told apart nowhere. Where the names of the
registered units have none (`CollisionFree`), a key stands for a name,
and `Accurate` says what the tables mean in terms of names alone.
-/
import StagedResolve.Proofs.Histories

namespace StagedResolve

-- ===================================================== keys that occur once

namespace Table

variable {κ ν : Type} {t : Table κ ν}

/-- No key occurs twice. -/
def KeysOnce (t : Table κ ν) : Prop := t.keys.Nodup

/-- Nothing occurs in an empty table. -/
theorem keysOnce_empty : (empty : Table κ ν).KeysOnce := List.nodup_nil

/-- What is left of a table has no key twice. -/
theorem KeysOnce.filter (h : t.KeysOnce) (keep : κ → ν → Bool) :
    (t.filter keep).KeysOnce :=
  List.Nodup.sublist (List.filter_sublist.map _) h

variable [DecidableEq κ]

/-- A new key is appended, and one that is there stays where it was. -/
theorem keys_put (k : κ) (v : ν) (es : List (κ × ν)) :
    (put k v es).map Prod.fst = if k ∈ es.map Prod.fst then es.map Prod.fst
      else es.map Prod.fst ++ [k] := by
  induction es with
  | nil => simp [put]
  | cons e rest ih =>
      obtain ⟨k', v'⟩ := e
      by_cases hk : k' = k
      · simp [put, hk]
      · have hne : ¬ k = k' := fun h => hk h.symm
        simp only [put, if_neg hk, List.map_cons, ih, List.mem_cons, hne,
          false_or]
        split <;> rfl

/-- Inserting makes no key occur twice. -/
theorem KeysOnce.insert (h : t.KeysOnce) (k : κ) (v : ν) :
    (t.insert k v).KeysOnce := by
  have hkeys := keys_put k v t.entries
  unfold KeysOnce keys Table.insert
  rw [hkeys]
  split
  · exact h
  · next hk =>
    refine List.nodup_append.mpr ⟨h, List.pairwise_singleton _ k, ?_⟩
    rintro a ha b hb rfl
    rw [List.mem_singleton] at hb
    exact hk (hb ▸ ha)

/-- Where no key occurs twice, what is found is what is there. -/
theorem mem_entries_iff (h : t.KeysOnce) {k : κ} {v : ν} :
    (k, v) ∈ t.entries ↔ t.find? k = some v := by
  refine ⟨fun hkv => ?_, mem_entries_of_find?⟩
  obtain ⟨es⟩ := t
  simp only [KeysOnce, keys, find?] at h hkv ⊢
  induction es with
  | nil => cases hkv
  | cons e rest ih =>
      obtain ⟨k', v'⟩ := e
      obtain ⟨hk', hrest⟩ := List.nodup_cons.mp h
      rcases List.mem_cons.mp hkv with heq | hkv
      · cases heq
        rw [lookup, if_pos rfl]
      · have hne : k' ≠ k := by
          rintro rfl
          exact hk' (List.mem_map.mpr ⟨(k', v), hkv, rfl⟩)
        rw [lookup, if_neg hne]
        exact ih hrest hkv

/-- What is found in what is left of a table was found there before and
passes the test. -/
theorem find?_filter (h : t.KeysOnce) (keep : κ → ν → Bool) {k : κ} {v : ν} :
    (t.filter keep).find? k = some v ↔
      t.find? k = some v ∧ keep k v = true := by
  rw [← mem_entries_iff (h.filter keep), ← mem_entries_iff h]
  exact List.mem_filter

end Table

namespace Registry

-- ========================================================= entering units

/-- The symbol that is left under a key when a list of classifiers is
entered: the last one with that key. -/
def lastUnder (k : NameKey) : List (QualifiedName × Symbol) → Option Symbol
  | [] => none
  | (n, s) :: rest =>
    (lastUnder k rest).or (if n.key = k then some s else none)

/-- Entering classifiers puts the last one of each key into the table. -/
theorem find?_enterClassifiers (k : NameKey)
    (found : List (QualifiedName × Symbol)) (t : Table NameKey Symbol) :
    (enterClassifiers found t).find? k = (lastUnder k found).or (t.find? k) := by
  induction found generalizing t with
  | nil => simp only [enterClassifiers, lastUnder, Option.none_or]
  | cons entry rest ih =>
      obtain ⟨n, s⟩ := entry
      simp only [enterClassifiers, ih, lastUnder, Table.find?_insert]
      cases lastUnder k rest with
      | some c => simp only [Option.some_or]
      | none =>
          by_cases hk : n.key = k
          · rw [if_pos hk, if_pos hk]
            simp only [Option.none_or, Option.some_or]
          · rw [if_neg hk, if_neg hk]
            simp only [Option.none_or]

/-- What is left under a key is one of the classifiers with that key. -/
theorem mem_of_lastUnder {k : NameKey}
    {found : List (QualifiedName × Symbol)} {s : Symbol}
    (h : lastUnder k found = some s) : ∃ n, (n, s) ∈ found ∧ n.key = k := by
  induction found with
  | nil => cases h
  | cons entry rest ih =>
      obtain ⟨n, c⟩ := entry
      rcases Option.or_eq_some_iff.mp h with h | ⟨-, h⟩
      · obtain ⟨m, hm, hk⟩ := ih h
        exact ⟨m, List.mem_cons_of_mem _ hm, hk⟩
      · split at h
        · next hk =>
          cases h
          exact ⟨n, List.mem_cons_self .., hk⟩
        · cases h

/-- Something is left under the key of every classifier. -/
theorem exists_lastUnder {k : NameKey}
    {found : List (QualifiedName × Symbol)} {n : QualifiedName} {s : Symbol}
    (h : (n, s) ∈ found) (hk : n.key = k) :
    ∃ c, lastUnder k found = some c := by
  induction found with
  | nil => cases h
  | cons entry rest ih =>
      rw [lastUnder]
      rcases List.mem_cons.mp h with rfl | h
      · cases lastUnder k rest with
        | some c => exact ⟨c, rfl⟩
        | none => exact ⟨s, by simp [hk]⟩
      · obtain ⟨c, hc⟩ := ih h
        exact ⟨c, by rw [hc]; rfl⟩

/-- Entering classifiers makes no key occur twice. -/
theorem keysOnce_enterClassifiers {found : List (QualifiedName × Symbol)}
    {t : Table NameKey Symbol} (h : t.KeysOnce) :
    (enterClassifiers found t).KeysOnce := by
  induction found generalizing t with
  | nil => exact h
  | cons entry rest ih => exact ih (h.insert _ _)

/-- Dropping promises enters none. -/
theorem mem_dropPromises {found : List (QualifiedName × Symbol)}
    {t : Table NameKey Nat} {e : NameKey × Nat}
    (h : e ∈ (dropPromises found t).entries) : e ∈ t.entries := by
  induction found generalizing t with
  | nil => exact h
  | cons entry rest ih => exact (List.mem_filter.mp (ih h)).1

-- ========================================================== the invariant

variable {r s : Registry} {u : CompilationUnit}

/-- The tables hold what the registered units put there, and promises are
those of sources that were not built. -/
structure Indexed (r : Registry) : Prop where
  unitsOnce : r.units.KeysOnce
  pathsOnce : r.paths.KeysOnce
  classifiersOnce : r.classifiers.KeysOnce
  path : ∀ p id, r.paths.find? p = some id ↔
    ∃ u, r.unit? id = some u ∧ u.path = p
  entry : ∀ k c, r.classifiers.find? k = some c ↔
    ∃ u, r.unit? c.unit = some u ∧ lastUnder k u.classifiers = some c
  promised : ∀ e ∈ r.pendingIndex.entries, (r.pending.find? e.2).isSome

/-- A registry without units has nothing in its tables. -/
theorem indexed_empty : empty.Indexed where
  unitsOnce := Table.keysOnce_empty
  pathsOnce := Table.keysOnce_empty
  classifiersOnce := Table.keysOnce_empty
  path := fun p id => ⟨fun h => (by cases h), fun ⟨_, h, _⟩ => (by cases h)⟩
  entry := fun k c => ⟨fun h => (by cases h), fun ⟨_, h, _⟩ => (by cases h)⟩
  promised := fun e he => by cases he

/-- The invariant does not depend on packages and on the next ids, and may
lose promises. -/
theorem Indexed.congr (hr : r.Indexed) (hunits : s.units = r.units)
    (hpaths : s.paths = r.paths) (hindex : s.classifiers = r.classifiers)
    (hpromised : ∀ e ∈ s.pendingIndex.entries, (s.pending.find? e.2).isSome) :
    s.Indexed where
  unitsOnce := hunits ▸ hr.unitsOnce
  pathsOnce := hpaths ▸ hr.pathsOnce
  classifiersOnce := hindex ▸ hr.classifiersOnce
  path := by
    simp only [unit?, hunits, hpaths]
    exact hr.path
  entry := by
    simp only [unit?, hunits, hindex]
    exact hr.entry
  promised := hpromised

/-- What is found under a key belongs to the unit that put it there. -/
theorem unit_of_lastUnder {k : NameKey} {c : Symbol}
    (h : lastUnder k u.classifiers = some c) : c.unit = u.id := by
  obtain ⟨n, hn, -⟩ := mem_of_lastUnder h
  exact unit_of_mem_classifiers hn

/-- A unit that the registry admits puts nothing under a key that is
taken. -/
theorem Admits.lastUnder_eq_none (h : r.Admits u) {k : NameKey} {c : Symbol}
    (hk : r.classifiers.find? k = some c) :
    lastUnder k u.classifiers = none := by
  cases hlast : lastUnder k u.classifiers with
  | none => rfl
  | some d =>
      obtain ⟨n, hn, rfl⟩ := mem_of_lastUnder hlast
      rw [h.keys _ hn] at hk
      cases hk

/-- A unit that the registry admits may be entered under a free id. -/
theorem Indexed.enter (hr : r.Indexed) (hid : r.unit? u.id = none)
    (h : r.Admits u) : (r.enter u).Indexed where
  unitsOnce := hr.unitsOnce.insert _ _
  pathsOnce := hr.pathsOnce.insert _ _
  classifiersOnce := keysOnce_enterClassifiers hr.classifiersOnce
  path := by
    intro p id
    have hfind : (r.enter u).paths.find? p =
        if u.path = p then some u.id else r.paths.find? p :=
      Table.find?_insert ..
    rw [hfind, unit?_enter]
    constructor
    · intro hp
      split at hp
      · next hpath =>
        cases hp
        exact ⟨u, if_pos rfl, hpath⟩
      · obtain ⟨v, hv, hpath⟩ := (hr.path p id).mp hp
        have hne : u.id ≠ id := by
          rintro rfl
          rw [hid] at hv
          cases hv
        exact ⟨v, by rw [if_neg hne]; exact hv, hpath⟩
    · rintro ⟨v, hv, hpath⟩
      split at hv
      · next heq =>
        cases hv
        rw [if_pos hpath, heq]
      · have hp := (hr.path p id).mpr ⟨v, hv, hpath⟩
        have hne : u.path ≠ p := by
          rintro rfl
          rw [h.path] at hp
          cases hp
        rw [if_neg hne]
        exact hp
  entry := by
    intro k c
    have hfind : (r.enter u).classifiers.find? k =
        (lastUnder k u.classifiers).or (r.classifiers.find? k) :=
      find?_enterClassifiers ..
    rw [hfind, unit?_enter]
    constructor
    · intro hk
      rcases Option.or_eq_some_iff.mp hk with hlast | ⟨-, hold⟩
      · exact ⟨u, if_pos (unit_of_lastUnder hlast).symm, hlast⟩
      · obtain ⟨v, hv, hlast⟩ := (hr.entry k c).mp hold
        have hne : u.id ≠ c.unit := by
          intro heq
          rw [← heq, hid] at hv
          cases hv
        exact ⟨v, by rw [if_neg hne]; exact hv, hlast⟩
    · rintro ⟨v, hv, hlast⟩
      split at hv
      · cases hv
        rw [hlast, Option.some_or]
      · have hold := (hr.entry k c).mpr ⟨v, hv, hlast⟩
        rw [h.lastUnder_eq_none hold, Option.none_or]
        exact hold
  promised := hr.promised

/-- A registered unit may be taken out. -/
theorem Indexed.remove (hr : r.Indexed) (hu : r.unit? u.id = some u) :
    (r.remove u).Indexed where
  unitsOnce := hr.unitsOnce.filter _
  pathsOnce := hr.pathsOnce.filter _
  classifiersOnce := hr.classifiersOnce.filter _
  path := by
    intro p id
    have hfind : (r.remove u).paths.find? p =
        if u.path = p then none else r.paths.find? p :=
      Table.find?_erase ..
    have hown := (hr.path u.path u.id).mpr ⟨u, hu, rfl⟩
    rw [hfind, unit?_remove]
    constructor
    · intro hp
      split at hp
      · cases hp
      · next hne =>
        obtain ⟨v, hv, hpath⟩ := (hr.path p id).mp hp
        have hid : u.id ≠ id := by
          rintro rfl
          rw [hu] at hv
          cases hv
          exact hne hpath
        exact ⟨v, by rw [if_neg hid]; exact hv, hpath⟩
    · rintro ⟨v, hv, hpath⟩
      split at hv
      · cases hv
      · next hne =>
        have hp := (hr.path p id).mpr ⟨v, hv, hpath⟩
        have hpath : u.path ≠ p := by
          rintro rfl
          rw [hown] at hp
          exact hne (Option.some.inj hp)
        rw [if_neg hpath]
        exact hp
  entry := by
    intro k c
    have hfind : (r.remove u).classifiers.find? k = some c ↔
        r.classifiers.find? k = some c ∧ decide (c.unit ≠ u.id) = true :=
      Table.find?_filter hr.classifiersOnce _
    rw [hfind, hr.entry, unit?_remove, decide_eq_true_iff]
    constructor
    · rintro ⟨⟨v, hv, hlast⟩, hne⟩
      exact ⟨v, by rw [if_neg (Ne.symm hne)]; exact hv, hlast⟩
    · rintro ⟨v, hv, hlast⟩
      split at hv
      · cases hv
      · next hne => exact ⟨⟨v, hv, hlast⟩, Ne.symm hne⟩
  promised := hr.promised

/-- A unit that was taken out may come back. -/
theorem Indexed.admits_removed (hr : r.Indexed) (hu : r.unit? u.id = some u) :
    (r.remove u).Admits u where
  path := by
    have hfind : (r.remove u).paths.find? u.path =
        if u.path = u.path then none else r.paths.find? u.path :=
      Table.find?_erase ..
    rw [hfind, if_pos rfl]
  keys := by
    rintro ⟨n, c⟩ hn
    cases hfind : (r.remove u).classifiers.find? n.key with
    | none => rfl
    | some d =>
        -- the key is the unit's own, and what is left is another unit's
        obtain ⟨hd, hne⟩ :=
          (Table.find?_filter hr.classifiersOnce _).mp hfind
        obtain ⟨e, he⟩ := exists_lastUnder hn rfl
        have hunit := unit_of_lastUnder he
        have hkey := (hr.entry n.key e).mpr ⟨u, by rw [hunit]; exact hu, he⟩
        rw [hkey] at hd
        cases hd
        exact absurd hunit (of_decide_eq_true hne)

/-- A registry may accept a unit that it admits. -/
theorem Indexed.accept (hr : r.Indexed) (hid : r.unit? u.id = none)
    (h : r.Admits u) : (r.accept u).Indexed :=
  (hr.enter hid h).congr rfl rfl rfl fun e he =>
    hr.promised e (mem_dropPromises he)

/-- Building a unit keeps the tables right. -/
theorem Indexed.addUnit (hr : r.Indexed) (hc : r.Coherent) (draft : Draft) :
    (r.addUnit draft).2.Indexed := by
  rcases r.addUnit_cases draft with ⟨hadmits, h⟩ | ⟨-, e, h⟩
  · rw [h]
    exact hr.accept hc.unit?_next hadmits
  · rw [h]
    exact hr.congr rfl rfl rfl hr.promised

/-- Replacing a unit keeps the tables right. -/
theorem Indexed.replaceUnit (hr : r.Indexed) (hc : r.Coherent) (old : UnitId)
    (draft : Draft) : (r.replaceUnit old draft).2.Indexed := by
  rcases r.replaceUnit_cases old draft with
    ⟨-, h⟩ | ⟨previous, u, hprevious, rfl, h⟩
  · rw [h]
    exact hr
  · have hid := hc.named old previous hprevious
    have hown : r.unit? previous.id = some previous := by
      rw [hid]
      exact hprevious
    have hremoved := hr.remove hown
    rcases h with ⟨hadmits, h⟩ | ⟨-, e, h⟩
    · rw [h]
      refine hremoved.accept ?_ hadmits
      rw [unit?_remove]
      split
      · rfl
      · exact hc.unit?_next
    · rw [h]
      have hskip : (r.remove previous).skip.Indexed :=
        hremoved.congr rfl rfl rfl hremoved.promised
      refine hskip.enter ?_ ⟨(hr.admits_removed hown).path,
        (hr.admits_removed hown).keys⟩
      show (r.remove previous).unit? previous.id = none
      rw [unit?_remove, if_pos rfl]

/-- New promises are those of the source that makes them. -/
theorem mem_promise {key : Nat} {names : List QualifiedName}
    {e : NameKey × Nat}
    (h : e ∈ (promise key names r).pendingIndex.entries) :
    e ∈ r.pendingIndex.entries ∨ e.2 = key := by
  induction names generalizing r with
  | nil => exact Or.inl h
  | cons n rest ih =>
      rcases ih h with h | h
      · rcases Table.mem_entries_insert h with rfl | h
        · exact Or.inr rfl
        · exact Or.inl h
      · exact Or.inr h

/-- Announcing a unit keeps the tables right. -/
theorem Indexed.addSource (hr : r.Indexed) (path : String)
    (declares : List QualifiedName) (draft : Draft) :
    (r.addSource path declares draft).Indexed := by
  have hmem : ∀ e ∈ (r.addSource path declares draft).pendingIndex.entries,
      e ∈ r.pendingIndex.entries ∨ e.2 = r.nextSource := fun e he =>
    mem_promise (r := { r with nextSource := r.nextSource + 1 }) he
  obtain ⟨packages, index, h⟩ := r.addSource_eq path declares draft
  rw [h] at hmem ⊢
  refine hr.congr rfl rfl rfl fun e he => ?_
  rw [Table.find?_insert]
  split
  · rfl
  · next hne =>
    exact hr.promised e ((hmem e he).resolve_right fun h => hne h.symm)

/-- A source may be withdrawn. -/
theorem Indexed.withdraw (hr : r.Indexed) (key : Nat) :
    (r.withdraw key).Indexed := by
  refine hr.congr rfl rfl rfl fun e he => ?_
  obtain ⟨he, hne⟩ := List.mem_filter.mp he
  show ((r.pending.erase key).find? e.2).isSome
  rw [Table.find?_erase, if_neg (Ne.symm (of_decide_eq_true hne))]
  exact hr.promised e he

/-- Looking a classifier up keeps the tables right. -/
theorem Indexed.classifier (hr : r.Indexed) (hc : r.Coherent) (k : NameKey) :
    (r.classifier k).registry.Indexed := by
  rcases r.classifier_cases k with hs | ⟨key, hs⟩ | ⟨key, source, -, hs⟩
  · rw [hs]
    exact hr
  · rw [hs]
    exact hr.congr rfl rfl rfl fun e he =>
      hr.promised e (List.mem_filter.mp he).1
  · rw [hs]
    exact (hr.withdraw key).addUnit (hc.withdraw key) _

-- ==================================================== what readers rely on

/-- The names that the registered units declare. -/
def names (r : Registry) : List QualifiedName :=
  r.units.values.flatMap fun u => u.classifiers.map Prod.fst

/-- Names that are written differently have different keys. -/
def CollisionFree (r : Registry) : Prop :=
  ∀ n ∈ r.names, ∀ m ∈ r.names, n.key = m.key → n.text = m.text

instance (r : Registry) : Decidable r.CollisionFree :=
  inferInstanceAs (Decidable (∀ n ∈ r.names, ∀ m ∈ r.names,
    n.key = m.key → n.text = m.text))

/-- The tables say what the units say, and nothing is missing. -/
structure Accurate (r : Registry) : Prop where
  /-- A unit stands under its own id, which was given out. -/
  stored : ∀ id u, r.unit? id = some u → u.id = id ∧ id.index < r.nextUnit
  /-- The paths are those of the registered units, one each. -/
  paths : ∀ p id, r.paths.find? p = some id ↔
    ∃ u, r.unit? id = some u ∧ u.path = p
  /-- A declared name leads to a declaration of the same unit that is called
  so. -/
  found : ∀ id u d x n, r.unit? id = some u → u.decl? d = some x →
    x.qualifiedName = some n → ∃ e y m, u.decl? e = some y ∧
      y.qualifiedName = some m ∧ m.text = n.text ∧
      r.classifiers.find? n.key = some (u.symbol e)
  /-- What is in the index was declared under that name. -/
  declared : ∀ k c, r.classifiers.find? k = some c → ∃ u y m,
    r.unit? c.unit = some u ∧ u.decl? c.decl = some y ∧
      y.qualifiedName = some m ∧ m.key = k
  /-- A promise is that of a source that was not built. -/
  promised : ∀ k key, r.pendingIndex.find? k = some key →
    ∃ source, r.pending.find? key = some source

/-- A declared name is one of the names of the registry. -/
theorem mem_names (hu : r.unit? u.id = some u) {n : QualifiedName} {c : Symbol}
    (h : (n, c) ∈ u.classifiers) : n ∈ r.names := by
  refine List.mem_flatMap.mpr ⟨u, ?_, List.mem_map.mpr ⟨(n, c), h, rfl⟩⟩
  exact List.mem_map.mpr ⟨(u.id, u), Table.mem_entries_of_find? hu, rfl⟩

/-- Where no two names have one key, the tables say what the units say. -/
theorem Indexed.accurate (hr : r.Indexed) (hc : r.Coherent)
    (hfree : r.CollisionFree) : r.Accurate where
  stored := fun id u hu => ⟨hc.named id u hu, hc.issued id u hu⟩
  paths := hr.path
  found := by
    intro id u d x n hu hx hn
    have hwf := hc.wellFormed id u hu
    have hid := hc.named id u hu
    rw [← hid] at hu
    have hmem : (n, u.symbol d) ∈ u.classifiers :=
      (mem_classifiers_iff hwf).mpr ⟨rfl, x, hx, hn⟩
    obtain ⟨c, hlast⟩ := exists_lastUnder hmem rfl
    obtain ⟨m, hm, hkey⟩ := mem_of_lastUnder hlast
    obtain ⟨hunit, y, hy, hym⟩ := (mem_classifiers_iff hwf).mp hm
    have htext := hfree m (mem_names hu hm) n (mem_names hu hmem) hkey
    have hc : u.symbol c.decl = c := by rw [CompilationUnit.symbol, ← hunit]
    refine ⟨c.decl, y, m, hy, hym, htext, ?_⟩
    rw [hc]
    exact (hr.entry n.key c).mpr ⟨u, by rw [hunit]; exact hu, hlast⟩
  declared := by
    intro k c hk
    obtain ⟨u, hu, hlast⟩ := (hr.entry k c).mp hk
    obtain ⟨m, hm, hkey⟩ := mem_of_lastUnder hlast
    obtain ⟨-, y, hy, hym⟩ :=
      (mem_classifiers_iff (hc.wellFormed _ u hu)).mp hm
    exact ⟨u, y, m, hu, hy, hym, hkey⟩
  promised := fun k key h =>
    Option.isSome_iff_exists.mp (hr.promised _ (Table.mem_entries_of_find? h))

/-- Every operation keeps the tables right. -/
theorem Indexed.alters {s : Registry} (hr : r.Indexed) (hc : r.Coherent)
    (hs : r.Alters s) : s.Indexed := by
  cases hs with
  | same => exact hr
  | addUnit spec d => exact hr.addUnit hc d
  | replaceUnit old spec d => exact hr.replaceUnit hc old d
  | addSource path declares spec d => exact hr.addSource path declares d
  | lookUp k => exact hr.classifier hc k

end Registry

-- ============================================================ over histories

section histories

variable {setup : Setup} {allowed : World → Call → Prop} {w : World}

/-- The tables of every registry that is reached are right. -/
theorem Reaches.indexed (hquiet : setup.Quiet) (h : Reaches setup allowed w) :
    w.registry.Indexed :=
  (h.cataloged hquiet Registry.indexed_empty
    fun _ _ hc hr hs => hr.alters hc hs).2.2

/-- The world after some more calls. -/
def World.through (setup : Setup) (calls : List Call) (w : World) : World :=
  calls.foldl (fun w call => call.run setup w) w

/-- More calls lead to worlds that are reached. -/
theorem Reaches.through (h : Reaches setup anyCall w) (calls : List Call) :
    Reaches setup anyCall (w.through setup calls) := by
  induction calls generalizing w with
  | nil => exact h
  | cons call rest ih => exact ih (.step w call h trivial)

/-- What survives look-ups survives every call that does not register. -/
theorem Call.keeps {P : Registry → Prop} (hquiet : setup.Quiet)
    (hlookUp : ∀ r k, r.Coherent → P r → P (r.classifier k).registry)
    (hw : w.Coherent) (hP : P w.registry) {call : Call}
    (hreg : ¬ call.Registers) : P (call.run setup w).registry := by
  have hsteady := Steady.registry .bodies hlookUp
  have hstart := And.intro hw hP
  cases call with
  | addUnit | replaceUnit | addSource | lookUp => exact absurd trivial hreg
  | resolve allowLocal s phase cancellable =>
      exact ((hsteady.request hquiet).world hstart).2
  | resolveFile id => exact ((hsteady.resolveFile id).world hstart).2
  | otherTakes l | otherReleases l | setToken token => exact hP

/-- No call brings a unit back. -/
theorem Call.evolves (hquiet : setup.Quiet) (hw : w.Coherent) (call : Call) :
    w.registry.Evolves (call.run setup w).registry := by
  by_cases hreg : call.Registers
  · exact (hw.registry.alters (Call.alters _ w hreg)).2
  · refine Call.keeps hquiet (fun r k hr hv => ?_) hw
      (Registry.Grows.refl _).toEvolves hreg
    exact hv.trans (hr.classifier k).2.1.toEvolves

/-- Nor do several. -/
theorem Reaches.through_evolves (hquiet : setup.Quiet)
    (h : Reaches setup anyCall w) (calls : List Call) :
    w.registry.Evolves (w.through setup calls).registry := by
  induction calls generalizing w with
  | nil => exact (Registry.Grows.refl _).toEvolves
  | cons call rest ih =>
      exact (Call.evolves hquiet (h.coherent hquiet) call).trans
        (ih (.step w call h trivial))

/-- An id that was given out and is free stays free. -/
theorem Registry.Evolves.unit?_eq_none {r s : Registry} (h : r.Evolves s)
    {id : UnitId} (hid : id.index < r.nextUnit) (hfree : r.unit? id = none) :
    s.unit? id = none := by
  cases hu : s.unit? id with
  | none => rfl
  | some u =>
      rcases h.known id u hu with hold | hnew
      · rw [hfree] at hold
        cases hold
      · exact absurd hid (Nat.not_lt_of_le hnew)

/-- A unit that was replaced is gone, and its id was given out. -/
theorem Registry.Coherent.retired {r : Registry} (hr : r.Coherent)
    {old : UnitId} {draft : Draft} {u : CompilationUnit}
    (h : (r.replaceUnit old draft).1 = .ok u) :
    old.index < (r.replaceUnit old draft).2.nextUnit ∧
      (r.replaceUnit old draft).2.unit? old = none := by
  rcases r.replaceUnit_cases old draft with
    ⟨-, hrun⟩ | ⟨previous, v, hprevious, rfl, ⟨-, hrun⟩ | ⟨-, e, hrun⟩⟩
  · rw [hrun] at h
    cases h
  · have hid := hr.named old previous hprevious
    have hlt := hr.issued old previous hprevious
    rw [hrun]
    refine ⟨Nat.lt_succ_of_lt hlt, ?_⟩
    have hne : (draft.finish ⟨r.nextUnit⟩).id ≠ old := by
      rintro rfl
      exact Nat.lt_irrefl _ hlt
    show ((r.remove previous).skip.enter _).unit? old = none
    rw [Registry.unit?_enter, if_neg hne]
    show (r.remove previous).unit? old = none
    rw [Registry.unit?_remove, if_pos hid]
  · rw [hrun] at h
    cases h

/-- In every registry that is reached the tables say what the units say,
and the id of a unit that was replaced is never used again. -/
theorem accurate_of_reaches (hquiet : setup.Quiet)
    (hw : Reaches setup anyCall w) (hfree : w.registry.CollisionFree) :
    w.registry.Accurate ∧ ∀ old spec u v,
      Action.replaceUnit old spec w = (.ok (.ok u), v) →
      ∀ calls, (v.through setup calls).registry.unit? old = none := by
  have hc := hw.coherent hquiet
  refine ⟨(hw.indexed hquiet).accurate hc.registry hfree, ?_⟩
  intro old spec u v hrun calls
  have hv : v = (Call.replaceUnit old spec).run setup w := by
    rw [Call.run, hrun]
  have hreached : Reaches setup anyCall v := hv ▸ .step w _ hw trivial
  obtain ⟨hid, hgone⟩ : old.index < v.registry.nextUnit ∧
      v.registry.unit? old = none := by
    simp only [Action.replaceUnit, Action.draft] at hrun
    cases hd : spec.draft with
    | error f =>
        rw [hd] at hrun
        cases hrun
    | ok d =>
        rw [hd] at hrun
        obtain ⟨hanswer, rfl⟩ := Prod.mk.inj hrun
        exact hc.registry.retired (Except.ok.inj hanswer)
  exact (hreached.through_evolves hquiet calls).unit?_eq_none hid hgone

/-- A class with a class in it. -/
def UnitSpec.nestedClass : UnitSpec :=
  .ofEntries "b.kt" [.member 0 (.classNamed "D" []),
    .member 1 (.classNamed "E" [])]

/-- A unit, and one that is built when its class is looked up; the first one
is then replaced. -/
theorem accurate_of_reaches_source :
    let setup := Setup.plain .default
    let w := World.after setup [.addUnit .plainClass,
      .addSource "b.kt" [.topLevel "p" "D"] .nestedClass,
      .lookUp (QualifiedName.topLevel "p" "D").key]
    let v := (Action.replaceUnit ⟨0⟩ .plainClass w).2
    w.registry.CollisionFree ∧ w.registry.Accurate ∧
      w.registry.units.keys = [⟨0⟩, ⟨1⟩] ∧
      v.registry.units.keys = [⟨1⟩, ⟨2⟩] ∧
      (v.through setup [.addUnit .plainClass]).registry.unit? ⟨0⟩ = none := by
  intro setup w v
  have hfree : w.registry.CollisionFree := by decide +kernel
  have hreplaced : ((Action.replaceUnit ⟨0⟩ .plainClass
      w).1.toOption.bind Except.toOption).isSome = true := by
    decide +kernel
  obtain ⟨u, hu⟩ := Option.isSome_iff_exists.mp hreplaced
  have hrun : (Action.replaceUnit ⟨0⟩ .plainClass w).1 = .ok (.ok u) := by
    cases hanswer : (Action.replaceUnit ⟨0⟩ .plainClass w).1 with
    | error f =>
        rw [hanswer] at hu
        cases hu
    | ok answer =>
        rw [hanswer] at hu
        cases answer with
        | error e => cases hu
        | ok u' =>
            cases hu
            rfl
  obtain ⟨haccurate, hgone⟩ := accurate_of_reaches (Setup.quiet_plain .default)
    (Reaches.after setup _) hfree
  exact ⟨hfree, haccurate, by decide +kernel, by decide +kernel,
    hgone ⟨0⟩ .plainClass u v (Action.run_of_fst hrun) _⟩

end histories

end StagedResolve
