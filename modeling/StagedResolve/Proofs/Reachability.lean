/-
Reachability: why breaking cycles leaves none.

A reference closes a cycle if its class leads back. On a cycle of
references that survived the cut, every reference leads back along the
rest, so it should have been cut (`Session.not_circular`).
-/
import StagedResolve.Proofs.Rounds

namespace StagedResolve

open Relation StagedResolve.Action

namespace Session

variable {s : Session} {a b : Symbol}

/-- A reference of a pending class that survives the cut. -/
def Survives (s : Session) (a b : Symbol) : Prop :=
  ∃ r, s.result? a = some r ∧ r.isPending = true ∧
    b ∈ (s.cutResult a r).classes

/-- A reference that survives the cut is one of its class, and does not
close a cycle. -/
theorem Survives.not_leads_back (h : s.Survives a b) :
    b ∈ s.classes a ∧ (b ∈ s.order → ¬ ReflTransGen s.graph.Edge b a) := by
  obtain ⟨r, hr, hp, hb⟩ := h
  unfold cutResult Computed.without at hb
  rw [if_pos hp] at hb
  obtain ⟨x, hx, hxb⟩ := Computed.mem_classes_iff.mp hb
  obtain ⟨hx, hclose⟩ := mem_cut_of_class hx hxb
  constructor
  · rw [classes, hr]
    exact Computed.mem_classes_iff.mpr ⟨x, hx, hxb⟩
  · intro hmem hleads
    rw [closesCycle, hxb] at hclose
    simp [hmem, (Graph.mem_reach_iff hmem).mpr hleads] at hclose

/-- No cycle survives the cut. -/
theorem not_circular (hfollowed : s.Followed [])
    (hlisted : ∀ c, c ∈ s.order ↔ s.hasMet c = true) (a : Symbol) :
    ¬ TransGen s.Survives a a := by
  -- what survives is an edge of the session, since references are followed
  have horder : ∀ {x y}, s.Survives x y → y ∈ s.order := by
    rintro x y ⟨r, hr, hp, hy⟩
    have hcommitted := Computed.not_committed hp
    rw [hlisted]
    refine (hfollowed.classes x r hr hcommitted y ?_).resolve_right
      List.not_mem_nil
    exact ((faithful_cutResult s).classes x r).subset hy
  have hedge : ∀ x y, s.Survives x y → s.graph.Edge x y := fun x y h =>
    List.mem_filter.mpr ⟨h.not_leads_back.1, List.contains_iff_mem.mpr (horder h)⟩
  intro hcycle
  obtain ⟨b, hab, hba⟩ := TransGen.head'_iff.mp hcycle
  exact hab.not_leads_back.2 (horder hab) (ReflTransGen.mono hedge _ _ hba)

end Session

end StagedResolve
