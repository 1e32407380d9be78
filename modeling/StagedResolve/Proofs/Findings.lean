/-
What look-ups find: classes of units that were registered.

# Known, live, genuine

A symbol is known if the id of its unit was given out. Ids are given out
once, so nothing that is registered later can be what a known symbol
stands for. A class is live if its unit is registered and declares it. A
registry answers with live classes, and a class that was live once is
known for good and will not be taken for anything else: it is genuine,
which is all that can be said of the classes in an import table that was
stored a while ago.

# Where answers come from

What a look-up answers with stands in the tables of the registry or in
the file's import table, or is a classifier of a registered unit. So
whatever holds of what the registry answers with and of live classes
holds of every answer that is not an entry of the import table, as long
as it holds of inherited classifiers (`Action.Yields`). Those are found
by asking for the supertypes of one class after another; it is enough
that whatever a source answers with may be asked for next
(`Action.Searches`). Where a source answers with known classes only
(`Action.Finds`), a written type means a genuine class, if it means a
class at all (`Yields.resolve`).
-/
import StagedResolve.Proofs.Worlds

namespace StagedResolve

open StagedResolve.Action World

-- ========================================================== known symbols

namespace World

/-- Known symbols stay known. -/
theorem lasting_known (c : Symbol) : Lasting fun w => w.registry.Known c :=
  fun _ _ h hc => hc.evolves h.registry.toEvolves

/-- The members of a list stay known. -/
theorem lasting_known_all (cs : List Symbol) :
    Lasting fun w => ∀ c ∈ cs, w.registry.Known c :=
  .all fun c => .all fun _ => lasting_known c

/-- Genuine classes stay genuine. -/
theorem lasting_genuine (c : Symbol) : Lasting fun w => w.registry.Genuine c :=
  fun _ _ h hc => hc.evolves h.registry.toEvolves h.upright

/-- The members of a list stay genuine. -/
theorem lasting_genuine_all (cs : List Symbol) :
    Lasting fun w => ∀ c ∈ cs, w.registry.Genuine c :=
  .all fun c => .all fun _ => lasting_genuine c

/-- Live classes stay live. -/
theorem lasting_liveClass (c : Symbol) :
    Lasting fun w => w.registry.LiveClass c :=
  fun _ _ h hc => hc.grows h.registry h.upright

/-- The declarations of a registered unit are known. -/
theorem Coherent.known {w : World} {u : CompilationUnit} (hw : w.Coherent)
    (hu : w.Registered u) (d : DeclId) : w.registry.Known (u.symbol d) :=
  hw.registry.issued u.id u hu

/-- A classifier of a registered unit is live. -/
theorem Coherent.liveClass_nested {w : World} {u : CompilationUnit}
    {owner d : DeclId} {name : String} (hu : w.Registered u)
    (h : u.nested? owner name = some d) : w.registry.LiveClass (u.symbol d) := by
  obtain ⟨x, hx, hk⟩ := CompilationUnit.exists_of_nested? h
  exact ⟨u, x, hu, hx, fun _ => hk⟩

/-- A classifier inside a declaration of a registered unit is live. -/
theorem Coherent.liveClass_inside {w : World} (hw : w.Coherent) {id : UnitId}
    {owner : DeclId} {name : String} {c : Symbol}
    (h : (w.registry.unit? id).bind (fun u =>
      (u.nested? owner name).map u.symbol) = some c) :
    w.registry.LiveClass c := by
  obtain ⟨u, hu, hc⟩ := Option.bind_eq_some_iff.mp h
  obtain ⟨d, hd, rfl⟩ := Option.map_eq_some_iff.mp hc
  exact liveClass_nested (hw.registered hu).1 hd

end World

namespace Action

/-- A search finds what its first success finds. -/
theorem AdvancesBy.firstSome {α β : Type} {S : World → World → Prop}
    {I E : World → Prop} {f : α → Action (Option β)} {as : List α}
    {T : β → World → Prop}
    (h : ∀ a ∈ as, AdvancesBy S I (f a)
      (fun r w => ∀ b, r = some b → T b w) E)
    (hT : ∀ b, KeptBy S (T b)) :
    AdvancesBy S I (Action.firstSome f as)
      (fun r w => ∀ b, r = some b → T b w) E := by
  induction as with
  | nil => exact .pure fun w _ b hb => by cases hb
  | cons a rest ih =>
      refine .bind (h a (List.mem_cons_self ..)) fun r => ?_
      cases r with
      | some b => exact .pure fun w hw => hw.2
      | none =>
          have hrest := ih fun b hb => h b (List.mem_cons_of_mem _ hb)
          exact hrest.and_lasting (.all fun b => .all fun _ => hT b)

/-- Looking a classifier up finds a live class. -/
theorem classifier_advances {I E : World → Prop} (hI : Static I)
    (k : NameKey) : Advances I (Action.classifier k)
      (fun r w => ∀ c, r = some c → w.registry.LiveClass c) E := by
  intro R hR w hw
  have hc := hI.coherent w hw.1
  exact ⟨⟨hI.classifier w k hw.1, hR _ _ (later_classifier hc k) hw.2⟩,
    (hc.registry.classifier k).2.2⟩

/-- So it finds a genuine class. -/
theorem classifier_genuine {I E : World → Prop} (hI : Static I)
    (k : NameKey) : Advances I (Action.classifier k)
      (fun r w => ∀ c, r = some c → w.registry.Genuine c) E :=
  (classifier_advances hI k).post fun _ w hw hr c hc =>
    (hI.coherent w hw).registry.genuine_of_liveClass (hr c hc)

-- ================================================ inherited classifiers

/-- Searching keeps a condition. Live classes are fine, and a source answers
with what may be asked for next. -/
structure Searches (fine asked : Symbol → World → Prop) (I E : World → Prop)
    (source : SupertypeSource) : Prop where
  coherent : ∀ w, I w → w.Coherent
  stop : ∀ w, I w → E w
  lasting_fine : ∀ c, Lasting (fine c)
  lasting_asked : ∀ c, Lasting (asked c)
  live : ∀ w c, I w → w.registry.LiveClass c → fine c w
  source : ∀ c, Advances (fun w => I w ∧ asked c w) (source c)
    (fun bs w => ∀ b ∈ bs, asked b w) E

namespace Searches

variable {fine asked : Symbol → World → Prop} {I E : World → Prop}
  {source : SupertypeSource}

/-- What lasts may be assumed. -/
theorem and_lasting (h : Searches fine asked I E source) {T : World → Prop}
    (hT : Lasting T) : Searches fine asked (fun w => I w ∧ T w) E source where
  coherent := fun w hw => h.coherent w hw.1
  stop := fun w hw => h.stop w hw.1
  lasting_fine := h.lasting_fine
  lasting_asked := h.lasting_asked
  live := fun w c hw => h.live w c hw.1
  source := fun c => ((h.source c).and_lasting hT).congr fun _ =>
    ⟨fun hw => ⟨⟨hw.1.1, hw.2⟩, hw.1.2⟩, fun hw => ⟨⟨hw.1.1, hw.2⟩, hw.1.2⟩⟩

/-- What was found stays fine. -/
theorem lasting_found (h : Searches fine asked I E source)
    (r : Option Symbol) : Lasting fun w => ∀ c, r = some c → fine c w :=
  .all fun c => .all fun _ => h.lasting_fine c

/-- What may be asked for may be asked for later. -/
theorem lasting_above (h : Searches fine asked I E source)
    (bs : List Symbol) : Lasting fun w => ∀ b ∈ bs, asked b w :=
  .all fun b => .all fun _ => h.lasting_asked b

/-- The supertypes of a class that may be asked for. -/
theorem ask (h : Searches fine asked I E source) {c : Symbol}
    (hc : ∀ w, I w → asked c w) :
    Advances I (source c) (fun bs w => ∀ b ∈ bs, asked b w) E :=
  (h.source c).congr fun _ => ⟨And.left, fun hw => ⟨hw, hc _ hw⟩⟩

/-- The search for an inherited classifier. -/
theorem searchInherited (h : Searches fine asked I E source) (name : String)
    (fuel : Nat) (seen stack : List Symbol)
    (hstack : ∀ w, I w → ∀ c ∈ stack, asked c w) :
    Advances I (Scope.searchInherited source name fuel seen stack)
      (fun r w => ∀ c, r = some c → fine c w) E := by
  induction fuel generalizing I seen stack with
  | zero => exact .stop h.stop
  | succ fuel ih =>
      cases stack with
      | nil => exact .pure fun w _ c hc => by cases hc
      | cons next stack =>
          unfold Scope.searchInherited
          split
          · exact ih h seen stack fun w hw c hc =>
              hstack w hw c (List.mem_cons_of_mem _ hc)
          · refine .bind (.read (Q := fun r w => ∀ c, r = some c → fine c w)
              fun w hw c hc => h.live w c hw
                ((h.coherent w hw).liveClass_inside hc)) fun found => ?_
            have h' := h.and_lasting (h.lasting_found found)
            cases found with
            | some s => exact .pure fun w hw => hw.2
            | none =>
                refine .bind (h'.ask fun w hw => hstack w hw.1 next
                  (List.mem_cons_self ..)) fun above => ?_
                refine ih (h'.and_lasting (h.lasting_above above)) _ _
                  fun w hw c hc => ?_
                rcases List.mem_append.mp hc with hc | hc
                · exact hw.2 c (List.mem_reverse.mp hc)
                · exact hstack w hw.1.1 c (List.mem_cons_of_mem _ hc)

/-- A classifier that a class inherits. -/
theorem inherited? (h : Searches fine asked I E source) (owner : Symbol)
    (name : String) :
    Advances (fun w => I w ∧ asked owner w)
      (Scope.inherited? source owner name)
      (fun r w => ∀ c, r = some c → fine c w) E := by
  have h' := h.and_lasting (h.lasting_asked owner)
  refine .bind (h'.ask fun w hw => hw.2) fun above => ?_
  have h'' := h'.and_lasting (h.lasting_above above)
  refine .andThen (.read (Q := fun _ _ => True) fun _ _ => trivial)
    fun bound => ?_
  exact h''.searchInherited name bound _ _ fun w hw c hc =>
    hw.2 c (List.mem_reverse.mp hc)

end Searches

-- ===================================================== what look-ups yield

/-- Looking up keeps a condition. What the registry answers with, live
classes and what classes that may be asked for inherit are fine. -/
structure Yields (fine asked : Symbol → World → Prop) (I E : World → Prop)
    (source : SupertypeSource) : Prop where
  coherent : ∀ w, I w → w.Coherent
  lasting_fine : ∀ c, Lasting (fine c)
  live : ∀ w c, I w → w.registry.LiveClass c → fine c w
  classifier : ∀ k, Advances I (Action.classifier k)
    (fun r w => ∀ c, r = some c → fine c w) E
  inherited : ∀ owner name, Advances (fun w => I w ∧ asked owner w)
    (Scope.inherited? source owner name)
    (fun r w => ∀ c, r = some c → fine c w) E

/-- It is enough that searches do. -/
theorem Searches.yields {fine asked : Symbol → World → Prop}
    {I E : World → Prop} {source : SupertypeSource}
    (h : Searches fine asked I E source)
    (hclassifier : ∀ k, Advances I (Action.classifier k)
      (fun r w => ∀ c, r = some c → fine c w) E) :
    Yields fine asked I E source :=
  { h with
    classifier := hclassifier
    inherited := h.inherited? }

namespace Yields

variable {fine asked : Symbol → World → Prop} {I E : World → Prop}
  {source : SupertypeSource}

/-- What lasts may be assumed. -/
theorem and_lasting (h : Yields fine asked I E source) {T : World → Prop}
    (hT : Lasting T) : Yields fine asked (fun w => I w ∧ T w) E source where
  coherent := fun w hw => h.coherent w hw.1
  lasting_fine := h.lasting_fine
  live := fun w c hw => h.live w c hw.1
  classifier := fun k => (h.classifier k).and_lasting hT
  inherited := fun c name => ((h.inherited c name).and_lasting hT).congr
    fun _ => ⟨fun hw => ⟨⟨hw.1.1, hw.2⟩, hw.1.2⟩,
      fun hw => ⟨⟨hw.1.1, hw.2⟩, hw.1.2⟩⟩

/-- What was found stays fine. -/
theorem lasting_found (h : Yields fine asked I E source)
    (r : Option Symbol) : Lasting fun w => ∀ c, r = some c → fine c w :=
  .all fun c => .all fun _ => h.lasting_fine c

/-- What a class inherits that may be asked for. -/
theorem inherit (h : Yields fine asked I E source) {owner : Symbol}
    (howner : ∀ w, I w → asked owner w) (name : String) :
    Advances I (Scope.inherited? source owner name)
      (fun r w => ∀ c, r = some c → fine c w) E :=
  (h.inherited owner name).congr fun _ =>
    ⟨And.left, fun hw => ⟨hw, howner _ hw⟩⟩

-- =============================================================== look-ups

variable {sc : Scope}

/-- A classifier that a declaration declares or inherits. -/
theorem declaredOrInherited? (h : Yields fine asked I E source)
    (hu : ∀ w, I w → w.Registered sc.unit)
    (hasked : ∀ w, I w → ∀ d, asked (sc.unit.symbol d) w) (name : String)
    (owner : DeclId) : Advances I (sc.declaredOrInherited? source name owner)
      (fun r w => ∀ c, r = some c → fine c w) E := by
  unfold Scope.declaredOrInherited?
  split
  · next found hfound =>
    refine .pure fun w hw c hc => ?_
    cases hc
    exact h.live w _ hw (Coherent.liveClass_nested (hu w hw) hfound)
  · split
    · exact h.inherit (fun w hw => hasked w hw owner) name
    · exact .pure fun w _ c hc => by cases hc

/-- What a name may mean: a class that is fine, or the entry of the import
table for it. -/
def Allows (fine : Symbol → World → Prop) (sc : Scope) (name : String)
    (c : Symbol) (w : World) : Prop :=
  fine c w ∨ sc.imports.explicit.find? name = some c

/-- A classifier outside the declarations around a place. -/
theorem outside? (h : Yields fine asked I E source) (sc : Scope)
    (name : String) : Advances I (sc.outside? name)
      (fun r w => ∀ c, r = some c → Allows fine sc name c w) E := by
  unfold Scope.outside?
  split
  · next c hc =>
    refine .pure fun w hw c' hc' => ?_
    cases hc'
    exact Or.inr hc
  · exact (AdvancesBy.firstSome (fun package _ => h.classifier _)
      h.lasting_fine).post fun r w _ hr c hc => Or.inl (hr c hc)

/-- What a name without dots means. -/
theorem lookupSimple (h : Yields fine asked I E source)
    (hu : ∀ w, I w → w.Registered sc.unit)
    (hasked : ∀ w, I w → ∀ d, asked (sc.unit.symbol d) w) (place : DeclId)
    (name : String) (position : Position) :
    Advances I (sc.lookupSimple source place name position)
      (fun m w => ∀ c, m = some (.classLike c) → Allows fine sc name c w)
      E := by
  unfold Scope.lookupSimple
  split
  · exact .pure fun w _ c hc => by cases hc
  · refine .bind (.firstSome (T := fine)
      (fun owner _ => h.declaredOrInherited? hu hasked name owner)
      h.lasting_fine) fun found => ?_
    have h' := h.and_lasting (h.lasting_found found)
    cases found with
    | some s =>
        refine .pure fun w hw c hc => ?_
        cases hc
        exact Or.inl (hw.2 s rfl)
    | none =>
        refine .bind (h'.outside? sc name) fun r => .pure fun w hw c hc => ?_
        cases r with
        | none => cases hc
        | some s =>
            cases hc
            exact hw.2 _ rfl

/-- Nested classifiers, followed at least one step down from anything. -/
theorem descend (h : Yields fine asked I E source) (current : Symbol)
    (name : String) (rest : List String) :
    Advances I (Scope.descend current (name :: rest))
      (fun r w => ∀ c, r = some c → fine c w) E := by
  induction rest generalizing I current name with
  | nil =>
      refine .bind (.read (Q := fun r w => ∀ c, r = some c → fine c w)
        fun w hw c hc => h.live w c hw
          ((h.coherent w hw).liveClass_inside hc)) fun next => ?_
      cases next with
      | some s => exact .pure fun w hw => hw.2
      | none => exact .pure fun w _ c hc => by cases hc
  | cons second rest ih =>
      refine .andThen (.read (Q := fun _ _ => True) fun _ _ => trivial)
        fun next => ?_
      cases next with
      | some s => exact ih h s second
      | none => exact .pure fun w _ c hc => by cases hc

/-- What a name means. The import table can only have an entry for a name
without dots. -/
theorem lookup (h : Yields fine asked I E source)
    (hu : ∀ w, I w → w.Registered sc.unit)
    (hasked : ∀ w, I w → ∀ d, asked (sc.unit.symbol d) w) (place : DeclId)
    (name : String) (position : Position) :
    Advances I (sc.lookup source place name position)
      (fun m w => ∀ c, m = some (.classLike c) → fine c w ∨
        (segments name).length ≤ 1 ∧
          sc.imports.explicit.find? name = some c) E := by
  unfold Scope.lookup
  split
  · next first second rest _ =>
    refine .bind (h.classifier _) fun whole => ?_
    have h' := h.and_lasting (h.lasting_found whole)
    cases whole with
    | some s =>
        refine .pure fun w hw c hc => ?_
        cases hc
        exact Or.inl (hw.2 s rfl)
    | none =>
        refine .andThen (h'.lookupSimple (fun w hw => hu w hw.1)
          (fun w hw => hasked w hw.1) place first position) fun meaning => ?_
        split
        · next s =>
          refine .bind (h'.descend s second rest) fun r => ?_
          refine .pure fun w hw c hc => ?_
          cases r with
          | none => cases hc
          | some s' =>
              cases hc
              exact Or.inl (hw.2 _ rfl)
        · exact .pure fun w _ c hc => by cases hc
  · next hsimple =>
    refine (h.lookupSimple hu hasked place name position).post
      fun m w _ hm c hc => (hm c hc).imp_right fun hfound => ⟨?_, hfound⟩
    rcases hs : segments name with _ | ⟨first, _ | ⟨second, rest⟩⟩
    · exact Nat.zero_le _
    · exact Nat.le_refl _
    · exact absurd hs (hsimple first second rest)

-- ========================================================= resolving types

/-- The class that a type refers to is fine. -/
def Refers (fine : Symbol → World → Prop) (t : ResolvedType) (w : World) :
    Prop :=
  ∀ c, t.class? = some c → fine c w

/-- It stays fine. -/
theorem lasting_refers (h : Yields fine asked I E source) (t : ResolvedType) :
    Lasting (Refers fine t) :=
  .all fun c => .all fun _ => h.lasting_fine c

mutual

/-- A written type, where the entries of the import table are fine as
well. -/
theorem resolve (h : Yields fine asked I E source)
    (hu : ∀ w, I w → w.Registered sc.unit)
    (hasked : ∀ w, I w → ∀ d, asked (sc.unit.symbol d) w)
    (himports : ∀ w, I w → ∀ name c, sc.imports.explicit.find? name = some c →
      fine c w) (place : DeclId) (position : Position) :
    ∀ t, Advances I (sc.resolve source place position t)
      (fun r => Refers fine r.1) E
  | ⟨name, args, nullable, span⟩ => by
      unfold Scope.resolve
      refine .andThen (resolveArgs h hu hasked himports place args)
        fun r => ?_
      refine .bind (h.lookup hu hasked place name position) fun m => ?_
      split
      · next s =>
        refine .pure fun w hw c hc => ?_
        cases hc
        exact (hw.2 s rfl).elim id fun hfound =>
          himports w hw.1 name s hfound.2
      · exact .pure fun w _ c hc => by cases hc
      · exact .pure fun w _ c hc => by cases hc

/-- A list of type arguments. -/
theorem resolveArgs (h : Yields fine asked I E source)
    (hu : ∀ w, I w → w.Registered sc.unit)
    (hasked : ∀ w, I w → ∀ d, asked (sc.unit.symbol d) w)
    (himports : ∀ w, I w → ∀ name c, sc.imports.explicit.find? name = some c →
      fine c w) (place : DeclId) :
    ∀ ts, Advances I (sc.resolveArgs source place ts) (fun _ _ => True) E
  | [] => by
      unfold Scope.resolveArgs
      exact .pure fun _ _ => trivial
  | t :: rest => by
      unfold Scope.resolveArgs
      refine .andThen (resolve h hu hasked himports place .body t)
        fun r => ?_
      refine .andThen (resolveArgs h hu hasked himports place rest)
        fun r' => ?_
      exact .pure fun _ _ => trivial

end

end Yields

-- ========================================================= genuine answers

/-- Looking up finds genuine classes, where known ones may be asked for. -/
abbrev Finds (I E : World → Prop) (source : SupertypeSource) : Prop :=
  Yields (fun c w => w.registry.Genuine c) (fun c w => w.registry.Known c)
    I E source

/-- It does so with a source that is given a known class and answers with
known classes. -/
theorem Finds.of_source {I E : World → Prop} {source : SupertypeSource}
    (hI : Static I) (hstop : ∀ w, I w → E w)
    (hsource : ∀ c, Advances (fun w => I w ∧ w.registry.Known c) (source c)
      (fun bs w => ∀ b ∈ bs, w.registry.Known b) E) : Finds I E source :=
  Searches.yields
    { coherent := hI.coherent
      stop := hstop
      lasting_fine := lasting_genuine
      lasting_asked := lasting_known
      live := fun w _ hw hc =>
        (hI.coherent w hw).registry.genuine_of_liveClass hc
      source := hsource } (classifier_genuine hI)

end Action

-- ================================================================ imports

/-- The classes that an import table names are live. -/
def ImportTable.Live (t : ImportTable) (w : World) : Prop :=
  ∀ name c, t.explicit.find? name = some c → w.registry.LiveClass c

/-- They stay live. -/
theorem ImportTable.lasting_live (t : ImportTable) : Lasting t.Live :=
  .all fun _ => .all fun c => .all fun _ => World.lasting_liveClass c

/-- The classes that an import table names are genuine. -/
def ImportTable.Genuine (t : ImportTable) (w : World) : Prop :=
  ∀ name c, t.explicit.find? name = some c → w.registry.Genuine c

/-- They are so as long as they are live. -/
theorem ImportTable.Live.genuine {t : ImportTable} {w : World}
    (ht : t.Live w) (hw : w.Coherent) : t.Genuine w :=
  fun name c hc => hw.registry.genuine_of_liveClass (ht name c hc)

/-- They stay so whatever becomes of their units. -/
theorem ImportTable.Genuine.evolves {t : ImportTable} {v w : World}
    (ht : t.Genuine v) (h : v.registry.Evolves w.registry)
    (hup : w.registry.Upright → v.registry.Upright) : t.Genuine w :=
  fun name c hc => (ht name c hc).evolves h hup

/-- So they stay so in later worlds. -/
theorem ImportTable.lasting_genuine (t : ImportTable) : Lasting t.Genuine :=
  fun _ _ h ht => ht.evolves h.registry.toEvolves h.upright

/-- An import table that names no class. -/
theorem ImportTable.genuine_empty (w : World) :
    ImportTable.empty.Genuine w := by
  intro name c h
  cases h

namespace Action

variable {I E : World → Prop}

/-- Treating an import directive enters a live class, if any. -/
theorem importDirective_advances (hI : Static I) (d : ImportDirective)
    {table : ImportTable} (ht : ∀ w, I w → table.Live w) :
    Advances I (importDirective d table) (fun r => r.1.Live) E := by
  unfold importDirective
  split
  · refine .andThen (.read (Q := fun _ _ => True) fun _ _ => trivial)
      fun found => ?_
    split
    · exact .pure fun w hw => ht w hw
    · exact .pure fun w hw => ht w hw
  · refine .bind (classifier_advances hI _) fun found => ?_
    split
    · next s name _ =>
      refine .pure fun w hw name' c hc => ?_
      rw [Table.find?_insert] at hc
      split at hc
      · cases hc
        exact hw.2 _ rfl
      · exact ht w hw.1 name' c hc
    · exact .pure fun w hw => ht w hw.1

/-- Treating import directives enters live classes. -/
theorem importDirectives_advances (hI : Static I) (ds : List ImportDirective)
    {table : ImportTable} (ht : ∀ w, I w → table.Live w) :
    Advances I (importDirectives ds table) (fun r => r.1.Live) E := by
  induction ds generalizing I table with
  | nil => exact .pure fun w hw => ht w hw
  | cons d rest ih =>
      refine .bind (importDirective_advances hI d ht) fun r => ?_
      have hI' := hI.and_lasting r.1.lasting_live
      refine .bind (ih hI' fun w hw => hw.2) fun r' => ?_
      exact .pure fun w hw => hw.2

/-- The import table of a unit from scratch names live classes. -/
theorem importTable_advances (hI : Static I) (u : CompilationUnit) :
    Advances I (importTable u) (fun r => r.1.Live) E :=
  importDirectives_advances hI u.imports fun _ _ _ _ h => nomatch h

/-- The import table of a unit is one that was stored, or a fresh one. -/
theorem storedOrFreshImports_advances {T : ImportTable → World → Prop}
    (hI : Static I) {u : CompilationUnit} (hT : ∀ t, Lasting (T t))
    (hstored : ∀ w t, I w → (w.slots u .root).imports = some t → T t w)
    (hfresh : ∀ w t, I w → t.Live w → T t w) :
    Advances I (storedOrFreshImports u) T E := by
  refine .bind (.read (Q := fun found w => ∀ t, found = some t → T t w)
    fun w hw t ht => hstored w t hw ht) fun found => ?_
  have hI' := hI.and_lasting (Q := fun w => ∀ t, found = some t → T t w)
    (.all fun t => .all fun _ => hT t)
  cases found with
  | some t => exact .pure fun w hw => hw.2 t rfl
  | none =>
      refine .bind (importTable_advances hI' u) fun r => ?_
      exact .pure fun w hw => hfresh w r.1 hw.1.1 hw.2

end Action

end StagedResolve
