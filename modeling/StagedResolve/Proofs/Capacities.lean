/-
Capacities: how many steps are left to a search.

# What is left

A search over supertypes takes every class once, and a class puts no more
than its references on the stack. So what the declarations weigh that
were not seen yet, registered or still to be built, is what the search
can still put there (`Registry.left`). Seeing a class takes its weight
away (`left_see`).

# Building on the way

Looking a name up may build a unit. Then its declarations are registered
and no longer pending, and weigh as before: whatever was seen, nothing
becomes more (`Registry.Drains`). So a bound that was enough when a
search began is enough all the way.
-/
import StagedResolve.Bound
import StagedResolve.Proofs.Catalogs

namespace StagedResolve

-- ======================================================= weighing in parts

section totals

variable {α : Type} {f g : α → Nat}

/-- What weighs less one by one weighs less together. -/
theorem totalOf_le_totalOf {as : List α} (h : ∀ a ∈ as, f a ≤ g a) :
    totalOf f as ≤ totalOf g as := by
  induction as with
  | nil => exact Nat.le_refl 0
  | cons a rest ih =>
      exact Nat.add_le_add (h a (List.mem_cons_self ..))
        (ih fun b hb => h b (List.mem_cons_of_mem _ hb))

/-- What a member weighs less all weigh less. -/
theorem totalOf_add_le_totalOf {as : List α} (h : ∀ a ∈ as, f a ≤ g a) {a : α}
    (ha : a ∈ as) {n : Nat} (hn : f a + n ≤ g a) :
    totalOf f as + n ≤ totalOf g as := by
  induction as with
  | nil => cases ha
  | cons b rest ih =>
      have hb := h b (List.mem_cons_self ..)
      have hrest : ∀ a ∈ rest, f a ≤ g a := fun a ha =>
        h a (List.mem_cons_of_mem _ ha)
      unfold totalOf
      rcases List.mem_cons.mp ha with rfl | ha
      · have := totalOf_le_totalOf hrest
        omega
      · have := ih hrest ha
        omega

/-- Some members weigh less than all. -/
theorem totalOf_filter_le (p : α → Bool) (as : List α) :
    totalOf f (as.filter p) ≤ totalOf f as := by
  induction as with
  | nil => exact Nat.le_refl 0
  | cons a rest ih =>
      rw [List.filter_cons]
      split
      · exact Nat.add_le_add_left ih _
      · exact Nat.le_trans ih (Nat.le_add_left _ _)

/-- What is left out is missing. -/
theorem totalOf_filter_add_le {p : α → Bool} {as : List α} {a : α}
    (ha : a ∈ as) (hp : p a = false) :
    totalOf f (as.filter p) + f a ≤ totalOf f as := by
  induction as with
  | nil => cases ha
  | cons b rest ih =>
      rw [List.filter_cons]
      rcases List.mem_cons.mp ha with rfl | ha
      · rw [hp, if_neg Bool.false_ne_true, totalOf]
        have := totalOf_filter_le (f := f) p rest
        omega
      · have := ih ha
        split
        · rw [totalOf, totalOf]
          omega
        · rw [totalOf]
          omega

end totals

-- ============================================================= what is left

namespace Registry

/-- What the declarations of a unit weigh that were not seen. -/
def unseen (seen : Symbol → Bool) (u : CompilationUnit) : Nat :=
  totalOf (fun x => if seen (u.symbol x.id) then 0 else x.searchWeight) u.decls

/-- What all declarations weigh that were not seen or are not built. -/
def left (r : Registry) (seen : Symbol → Bool) : Nat :=
  totalOf (unseen seen) r.units.values +
    totalOf (fun s => totalOf Declaration.searchWeight s.draft.decls)
      r.pending.values

variable {r s t : Registry} {seen more : Symbol → Bool}

/-- At first everything is left. -/
theorem searchBound_eq (r : Registry) :
    r.searchBound = 2 + r.left fun _ => false := by
  unfold searchBound left unseen
  simp only [Bool.false_eq_true, if_false]
  exact Nat.add_assoc ..

/-- What was seen weighs nothing. -/
theorem unseen_mono (h : ∀ c, seen c = true → more c = true)
    (u : CompilationUnit) : unseen more u ≤ unseen seen u := by
  refine totalOf_le_totalOf fun x _ => ?_
  cases hseen : seen (u.symbol x.id) with
  | true => simp [h _ hseen]
  | false =>
      simp only [Bool.false_eq_true, if_false]
      split
      · exact Nat.zero_le _
      · exact Nat.le_refl _

/-- The more was seen the less is left. -/
theorem left_mono (h : ∀ c, seen c = true → more c = true) :
    r.left more ≤ r.left seen :=
  Nat.add_le_add_right (totalOf_le_totalOf fun u _ => unseen_mono h u) _

/-- No more is left than at first. -/
theorem left_lt_searchBound (r : Registry) (seen : Symbol → Bool) :
    r.left seen + 1 < r.searchBound := by
  have : r.left seen ≤ r.left fun _ => false := r.left_mono nofun
  rw [searchBound_eq]
  omega

/-- Seeing a declaration of a registered unit takes its weight away. -/
theorem left_see (seen more : Symbol → Bool) (hr : r.Coherent)
    (h : ∀ c, seen c = true → more c = true)
    {u : CompilationUnit} {c : Symbol} {x : Declaration}
    (hu : r.unit? u.id = some u) (hid : u.id = c.unit)
    (hx : u.decl? c.decl = some x) (hnew : seen c = false)
    (hseen : more c = true) : r.left more + x.searchWeight ≤ r.left seen := by
  have hmem : u ∈ r.units.values :=
    List.mem_map.mpr ⟨(u.id, u), Table.mem_entries_of_find? hu, rfl⟩
  have hsymbol : u.symbol x.id = c := by
    rw [(hr.wellFormed _ u hu).numbered _ x hx, CompilationUnit.symbol, hid]
  have hunit : unseen more u + x.searchWeight ≤ unseen seen u := by
    refine totalOf_add_le_totalOf (fun y _ => ?_) (List.mem_of_getElem? hx) ?_
    · cases hy : seen (u.symbol y.id) with
      | true => simp [h _ hy]
      | false =>
          simp only [Bool.false_eq_true, if_false]
          split
          · exact Nat.zero_le _
          · exact Nat.le_refl _
    · simp [hsymbol, hnew, hseen]
  have := totalOf_add_le_totalOf (fun v _ => unseen_mono h v) hmem hunit
  unfold left
  omega

-- ========================================================= building on the way

/-- Whatever was seen, no more is left. -/
def Drains (r s : Registry) : Prop := ∀ seen, s.left seen ≤ r.left seen

/-- Nothing is more than itself. -/
theorem Drains.refl (r : Registry) : r.Drains r := fun _ => Nat.le_refl _

/-- One change after another. -/
theorem Drains.trans (h : r.Drains s) (h' : s.Drains t) : r.Drains t :=
  fun seen => Nat.le_trans (h' seen) (h seen)

/-- A unit under the next id weighs what it weighs. -/
theorem left_accept (hr : r.Coherent) {u : CompilationUnit}
    (hid : u.id = ⟨r.nextUnit⟩) :
    (r.accept u).left seen ≤
      r.left seen + totalOf Declaration.searchWeight u.decls := by
  have hvalues : (r.accept u).units.values = r.units.values ++ [u] := by
    refine Table.values_insert ?_
    rw [hid]
    exact hr.unit?_next
  have hunit : unseen seen u ≤ totalOf Declaration.searchWeight u.decls :=
    totalOf_le_totalOf fun x _ => by
      split
      · exact Nat.zero_le _
      · exact Nat.le_refl _
  have hpending : (r.accept u).pending = r.pending := rfl
  unfold left
  rw [hvalues, hpending, totalOf_append]
  simp only [totalOf]
  omega

/-- Building a unit leaves at most what it weighs. -/
theorem left_addUnit (hr : r.Coherent) (draft : Draft) :
    (r.addUnit draft).2.left seen ≤
      r.left seen + totalOf Declaration.searchWeight draft.decls := by
  rcases r.addUnit_cases draft with ⟨-, hrun⟩ | ⟨-, e, hrun⟩
  · rw [hrun]
    exact left_accept hr rfl
  · rw [hrun]
    exact Nat.le_add_right _ _

/-- A source that is withdrawn weighs nothing. -/
theorem left_withdraw {key : Nat} {source : PendingSource}
    (h : r.pending.find? key = some source) :
    (r.withdraw key).left seen +
      totalOf Declaration.searchWeight source.draft.decls ≤ r.left seen := by
  have hmem := Table.mem_entries_of_find? h
  have hless := totalOf_filter_add_le (p := fun e => decide (e.1 ≠ key))
    (f := fun e : Nat × PendingSource =>
      totalOf Declaration.searchWeight e.2.draft.decls) hmem (by simp)
  dsimp only at hless
  have hvalues : ∀ es : List (Nat × PendingSource),
      totalOf (fun s => totalOf Declaration.searchWeight s.draft.decls)
        (es.map Prod.snd) = totalOf (fun e =>
          totalOf Declaration.searchWeight e.2.draft.decls) es := by
    intro es
    induction es with
    | nil => rfl
    | cons e rest ih => rw [List.map_cons, totalOf, totalOf, ih]
  unfold left Table.values
  rw [hvalues, hvalues]
  show _ + totalOf _ (r.pending.entries.filter fun e => decide (e.1 ≠ key)) + _
    ≤ _
  have hunits : (r.withdraw key).units = r.units := rfl
  rw [hunits]
  omega

/-- Looking a classifier up leaves no more. -/
theorem drains_classifier (hr : r.Coherent) (k : NameKey) :
    r.Drains (r.classifier k).registry := by
  rcases r.classifier_cases k with hs | ⟨key, hs⟩ | ⟨key, source, hsource, hs⟩
  · rw [hs]
    exact .refl r
  · rw [hs]
    exact .refl r
  · rw [hs]
    intro seen
    exact Nat.le_trans (left_addUnit (hr.withdraw key) source.draft)
      (left_withdraw hsource)

end Registry

end StagedResolve
