/-
Components: the nodes of a graph that reach each other.

# The search

The search along the edges of a graph takes one node off its stack per
step, and puts what the edges of a node lead to there only the first time
it sees it. So the edges of the nodes that it has not seen, together with
what is on the stack, bound the steps that are left; with that many the
search comes to its end, and then it has seen everything that can be
reached (`closure_complete`).

# The components

What matters of a list of components is that it splits the nodes into
those that reach each other, each node once (`Graph.Splits`), whatever
the order and however they were found. The components that the search
finds do (`Graph.splits_components`): two nodes that reach each other
have the same component, and it is listed only with its first node.
-/
import Mathlib.Data.List.Nodup
import Mathlib.Logic.Relation
import StagedResolve.Graph

namespace StagedResolve

open Relation

-- ============================================================== the search

section Search

variable {α : Type} [DecidableEq α] {next : α → List α} {dom : List α}

/-- Seeing one more member leaves less to be seen. -/
theorem totalOf_filter_cons (weight : α → Nat) {a : α} {seen : List α}
    (ha : a ∈ dom) (hnew : a ∉ seen) :
    totalOf weight (dom.filter fun b => !(a :: seen).contains b) + weight a ≤
      totalOf weight (dom.filter fun b => !seen.contains b) := by
  have hle : ∀ l : List α,
      totalOf weight (l.filter fun b => !(a :: seen).contains b) ≤
        totalOf weight (l.filter fun b => !seen.contains b) := by
    intro l
    induction l with
    | nil => exact Nat.le_refl _
    | cons b rest ih =>
        by_cases hb : b ∈ seen
        · simpa [hb] using ih
        · by_cases hba : b = a
          · subst hba
            simp only [List.filter_cons, List.contains_cons, beq_self_eq_true,
              Bool.true_or, Bool.not_true, Bool.false_eq_true, if_false]
            rw [if_pos (by simpa using hb), totalOf]
            exact Nat.le_add_left_of_le ih
          · simpa [hb, hba, totalOf] using ih
  induction dom with
  | nil => cases ha
  | cons b rest ih =>
      by_cases hba : b = a
      · subst hba
        have := hle rest
        simp only [List.filter_cons, List.contains_cons, beq_self_eq_true,
          Bool.true_or, Bool.not_true, Bool.false_eq_true, if_false]
        rw [if_pos (by simpa using hnew), totalOf]
        simp only [List.contains_cons] at this
        omega
      · have ha : a ∈ rest := (List.mem_cons.mp ha).resolve_left (Ne.symm hba)
        have := ih ha
        by_cases hb : b ∈ seen
        · simpa [hb] using this
        · simp only [List.filter_cons, List.contains_cons] at this ⊢
          rw [if_pos (by simp [hba, hb]), if_pos (by simpa using hb), totalOf,
            totalOf]
          omega

/-- A search with enough steps sees what is on its stack, and with each
member everything that it leads to. -/
theorem closure_complete (hnext : ∀ a, ∀ b ∈ next a, b ∈ dom) (fuel : Nat)
    (seen stack : List α) (hstack : ∀ a ∈ stack, a ∈ dom)
    (hseen : ∀ a ∈ seen, ∀ b ∈ next a, b ∈ seen ∨ b ∈ stack)
    (hfuel : stack.length + totalOf (fun a => (next a).length)
      (dom.filter fun a => !seen.contains a) < fuel) :
    (∀ a, a ∈ seen ∨ a ∈ stack → a ∈ closure next fuel seen stack) ∧
      ∀ a ∈ closure next fuel seen stack, ∀ b ∈ next a,
        b ∈ closure next fuel seen stack := by
  induction fuel generalizing seen stack with
  | zero => omega
  | succ fuel ih =>
      cases stack with
      | nil =>
          refine ⟨fun a ha => ha.resolve_right List.not_mem_nil,
            fun a ha b hb => ?_⟩
          exact (hseen a ha b hb).resolve_right List.not_mem_nil
      | cons a stack =>
          have hrest : ∀ b ∈ stack, b ∈ dom := fun b hb =>
            hstack b (List.mem_cons_of_mem _ hb)
          unfold closure
          rw [List.length_cons] at hfuel
          by_cases ha : a ∈ seen
          · rw [if_pos (List.contains_iff_mem.mpr ha)]
            obtain ⟨hall, hclosed⟩ := ih seen stack hrest (fun c hc b hb => by
              rcases hseen c hc b hb with hb | hb
              · exact Or.inl hb
              · rcases List.mem_cons.mp hb with rfl | hb
                · exact Or.inl ha
                · exact Or.inr hb) (by omega)
            refine ⟨fun b hb => hall b ?_, hclosed⟩
            rcases hb with hb | hb
            · exact Or.inl hb
            · rcases List.mem_cons.mp hb with rfl | hb
              · exact Or.inl ha
              · exact Or.inr hb
          · rw [if_neg fun h => ha (List.contains_iff_mem.mp h)]
            have hless := totalOf_filter_cons (fun a => (next a).length)
              (hstack a (List.mem_cons_self ..)) ha
            have hstack' : ∀ b ∈ next a ++ stack, b ∈ dom := by
              intro b hb
              rcases List.mem_append.mp hb with hb | hb
              · exact hnext a b hb
              · exact hrest b hb
            have hseen' : ∀ c ∈ a :: seen, ∀ b ∈ next c,
                b ∈ a :: seen ∨ b ∈ next a ++ stack := by
              intro c hc b hb
              rcases List.mem_cons.mp hc with rfl | hc
              · exact Or.inr (List.mem_append_left _ hb)
              · rcases hseen c hc b hb with hb | hb
                · exact Or.inl (List.mem_cons_of_mem _ hb)
                · rcases List.mem_cons.mp hb with rfl | hb
                  · exact Or.inl (List.mem_cons_self ..)
                  · exact Or.inr (List.mem_append_right _ hb)
            obtain ⟨hall, hclosed⟩ := ih (a :: seen) (next a ++ stack) hstack'
              hseen' (by rw [List.length_append]; omega)
            refine ⟨fun b hb => hall b ?_, hclosed⟩
            rcases hb with hb | hb
            · exact Or.inl (List.mem_cons_of_mem _ hb)
            · rcases List.mem_cons.mp hb with rfl | hb
              · exact Or.inl (List.mem_cons_self ..)
              · exact Or.inr (List.mem_append_right _ hb)

/-- What a search sees it had seen before, or is reached from its
stack. -/
theorem mem_of_closure (fuel : Nat) (seen stack : List α) {a : α}
    (h : a ∈ closure next fuel seen stack) :
    a ∈ seen ∨ ∃ b ∈ stack, ReflTransGen (fun x y => y ∈ next x) b a := by
  induction fuel generalizing seen stack with
  | zero => exact Or.inl h
  | succ fuel ih =>
      cases stack with
      | nil => exact Or.inl h
      | cons c rest =>
          unfold closure at h
          split at h
          · refine (ih seen rest h).imp_right ?_
            rintro ⟨b, hb, hba⟩
            exact ⟨b, List.mem_cons_of_mem _ hb, hba⟩
          · rcases ih (c :: seen) (next c ++ rest) h with hseen | ⟨b, hb, hba⟩
            · rcases List.mem_cons.mp hseen with rfl | hseen
              · exact Or.inr ⟨a, List.mem_cons_self .., .refl⟩
              · exact Or.inl hseen
            · rcases List.mem_append.mp hb with hb | hb
              · exact Or.inr ⟨c, List.mem_cons_self .., .head hb hba⟩
              · exact Or.inr ⟨b, List.mem_cons_of_mem _ hb, hba⟩

end Search

-- ============================================================ components

namespace Graph

variable {α : Type} {g : Graph α} {a b c : α} {part : List α}
  {parts : List (List α)}

/-- There is an edge from one node to another. -/
def Edge (g : Graph α) (a b : α) : Prop := b ∈ g.next a

/-- Each of two nodes is reached from the other. -/
def Linked (g : Graph α) (a b : α) : Prop :=
  ReflTransGen g.Edge a b ∧ ReflTransGen g.Edge b a

/-- Two nodes that are linked to a third one are linked. -/
theorem Linked.trans (h : g.Linked a b) (h' : g.Linked b c) : g.Linked a c :=
  ⟨h.1.trans h'.1, h'.2.trans h.2⟩

/-- Components of a graph: all of its nodes, each once, and together with a
node those that are linked to it. -/
structure Splits (g : Graph α) (parts : List (List α)) : Prop where
  nodup : parts.flatten.Nodup
  covers : ∀ a ∈ g.nodes, ∃ part ∈ parts, a ∈ part
  linked : ∀ part ∈ parts, ∀ a ∈ part, ∀ b,
    b ∈ part ↔ b ∈ g.nodes ∧ g.Linked a b

variable [DecidableEq α]

/-- The search finds what is reached. -/
theorem mem_reach_iff (ha : a ∈ g.nodes) :
    b ∈ g.reach a ↔ ReflTransGen g.Edge a b := by
  constructor
  · intro h
    rcases mem_of_closure _ _ _ h with h | ⟨c, hc, hcb⟩
    · cases h
    · rwa [List.mem_singleton.mp hc] at hcb
  · intro h
    have hnone : g.nodes.filter (fun c => !([] : List α).contains c) =
        g.nodes := by simp
    obtain ⟨hall, hclosed⟩ := closure_complete g.mem_nodes g.bound [] [a]
      (fun c hc => by rwa [List.mem_singleton.mp hc]) nofun (by
        rw [hnone, bound]
        simp only [List.length_singleton]
        omega)
    induction h with
    | refl => exact hall a (Or.inr (List.mem_singleton_self a))
    | tail _ hstep ih => exact hclosed _ ih _ hstep

/-- The component of a node holds what is linked to the node. -/
theorem mem_componentOf_iff (ha : a ∈ g.nodes) :
    b ∈ g.componentOf a ↔ b ∈ g.nodes ∧ g.Linked a b := by
  rw [componentOf, List.mem_filter]
  refine and_congr_right fun hb => ?_
  rw [Bool.and_eq_true, List.contains_iff_mem, List.contains_iff_mem,
    mem_reach_iff ha, mem_reach_iff hb, Linked]

/-- Linked nodes have the same component. -/
theorem componentOf_eq (ha : a ∈ g.nodes) (hb : b ∈ g.nodes)
    (h : g.Linked a b) : g.componentOf b = g.componentOf a := by
  refine List.filter_congr fun c hc => ?_
  rw [Bool.eq_iff_iff, Bool.and_eq_true, Bool.and_eq_true]
  simp only [List.contains_iff_mem, mem_reach_iff ha, mem_reach_iff hb,
    mem_reach_iff hc]
  exact ⟨h.trans, Linked.trans ⟨h.2, h.1⟩⟩

/-- A component is listed with its first node. -/
theorem mem_components_iff : part ∈ g.components ↔
    ∃ a ∈ g.nodes, part.head? = some a ∧ g.componentOf a = part := by
  rw [components, List.mem_filterMap]
  refine exists_congr fun a => and_congr_right fun _ => ?_
  dsimp only
  constructor
  · intro h
    split at h
    · next hhead =>
      cases h
      exact ⟨hhead, rfl⟩
    · cases h
  · rintro ⟨hhead, rfl⟩
    exact if_pos hhead

/-- The components that the search finds split the graph. -/
theorem splits_components (hnodup : g.nodes.Nodup) :
    g.Splits g.components := by
  have hself : ∀ a ∈ g.nodes, a ∈ g.componentOf a := fun a ha =>
    (mem_componentOf_iff ha).mpr ⟨ha, .refl, .refl⟩
  refine ⟨List.nodup_flatten.mpr ⟨fun part hpart => ?_, ?_⟩, fun a ha => ?_,
    fun part hpart a ha b => ?_⟩
  · obtain ⟨a, -, -, rfl⟩ := mem_components_iff.mp hpart
    exact hnodup.filter _
  · -- components that meet have the same first node
    refine List.pairwise_filterMap.mpr (hnodup.imp_of_mem ?_)
    intro a b ha hb hne part hpart part' hpart' c hc hc'
    obtain ⟨hhead, rfl⟩ : (g.componentOf a).head? = some a ∧
        g.componentOf a = part := by simpa using hpart
    obtain ⟨hhead', rfl⟩ : (g.componentOf b).head? = some b ∧
        g.componentOf b = part' := by simpa using hpart'
    obtain ⟨-, hac⟩ := (mem_componentOf_iff ha).mp hc
    obtain ⟨-, hbc⟩ := (mem_componentOf_iff hb).mp hc'
    rw [componentOf_eq ha hb (hac.trans ⟨hbc.2, hbc.1⟩), hhead] at hhead'
    exact hne (Option.some.inj hhead')
  · obtain ⟨b, hb⟩ : ∃ b, (g.componentOf a).head? = some b := by
      cases hlist : g.componentOf a with
      | nil =>
          have hmem := hself a ha
          rw [hlist] at hmem
          cases hmem
      | cons b rest => exact ⟨b, rfl⟩
    obtain ⟨hnode, hlinked⟩ :=
      (mem_componentOf_iff ha).mp (List.mem_of_mem_head? hb)
    exact ⟨g.componentOf a, mem_components_iff.mpr
      ⟨b, hnode, hb, componentOf_eq ha hnode hlinked⟩, hself a ha⟩
  · obtain ⟨c, hc, -, rfl⟩ := mem_components_iff.mp hpart
    obtain ⟨hnode, hlinked⟩ := (mem_componentOf_iff hc).mp ha
    rw [← componentOf_eq hc hnode hlinked, mem_componentOf_iff hnode]

/-- A component that a node shares with another one has a cycle, and so has
one with an edge from a node to itself. -/
theorem isCycle_of_linked (hparts : g.Splits parts) (hpart : part ∈ parts)
    (ha : a ∈ part) (hb : b ∈ part) (hedge : g.Edge a b) :
    g.isCycle part = true := by
  have hnodup := (List.nodup_flatten.mp hparts.nodup).1 part hpart
  match part, ha, hb, hnodup with
  | [c], ha, hb, _ =>
      rw [List.mem_singleton.mp ha, List.mem_singleton.mp hb] at hedge
      rw [isCycle, hasEdge, List.contains_iff_mem.mpr hedge, Bool.or_true]
  | _ :: _ :: _, _, _, _ => rfl

end Graph

end StagedResolve
