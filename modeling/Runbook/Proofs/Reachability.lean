import Mathlib.Logic.Relation
import Mathlib.Tactic.Common
import Runbook.Validation.Check

/-!
What the search from a start finds. An id leads to another if an edge goes from the one to the
other and the other is a node's; the search reaches the ids at the end of such steps and no others.
Two facts carry it along: whatever it has reached can be reached, and whatever an id leads to has
been reached, unless the id is still in the queue.
-/
namespace Runbook.Graph

variable {g : Graph}

def LeadsTo (g : Graph) (id target : NodeId) : Prop :=
  (∃ e ∈ g.edges, e.source = id ∧ e.target = target) ∧ g.hasNode target = true

theorem mem_successors {id target : NodeId} : target ∈ g.successors id ↔ g.LeadsTo id target := by
  simp [successors, outgoing, LeadsTo, and_assoc]

theorem mem_fresh {reached : List NodeId} {id target : NodeId} :
    target ∈ g.fresh reached id ↔ g.LeadsTo id target ∧ target ∉ reached := by
  simp [fresh, mem_successors]

theorem subset_reachFrom (reached queue : List NodeId) :
    reached ⊆ g.reachFrom reached queue := by
  induction reached, queue using reachFrom.induct g with
  | case1 reached => rw [reachFrom]; exact List.Subset.refl _
  | case2 reached id queue hnone ih =>
    rw [reachFrom, dif_pos hnone]
    exact ih
  | case3 reached id queue hsome ih =>
    rw [reachFrom, dif_neg hsome]
    exact List.Subset.trans (List.subset_append_left _ _) ih

/-- Whatever the search reaches lies at the end of steps from where it began. -/
theorem reflTransGen_of_mem_reachFrom {start : NodeId} (reached queue : List NodeId)
    (hreached : ∀ id ∈ reached, Relation.ReflTransGen g.LeadsTo start id)
    (hqueue : queue ⊆ reached) {id : NodeId} (hid : id ∈ g.reachFrom reached queue) :
    Relation.ReflTransGen g.LeadsTo start id := by
  induction reached, queue using reachFrom.induct g with
  | case1 reached =>
    rw [reachFrom] at hid
    exact hreached id hid
  | case2 reached next queue hnone ih =>
    rw [reachFrom, dif_pos hnone] at hid
    exact ih hreached (List.subset_of_cons_subset hqueue) hid
  | case3 reached next queue hsome ih =>
    rw [reachFrom, dif_neg hsome] at hid
    refine ih (fun other hother => ?_) ?_ hid
    · rcases List.mem_append.mp hother with hother | hother
      · exact hreached other hother
      · exact (hreached next (hqueue List.mem_cons_self)).tail (mem_fresh.mp hother).1
    · refine List.append_subset.mpr ⟨?_, List.subset_append_right _ _⟩
      exact List.Subset.trans (List.subset_of_cons_subset hqueue) (List.subset_append_left _ _)

/-- Only ids in the queue lead to ids that the search has not reached. -/
def IsClosedBut (g : Graph) (reached queue : List NodeId) : Prop :=
  ∀ id ∈ reached, id ∉ queue → ∀ target, g.LeadsTo id target → target ∈ reached

theorem isClosedBut_reachFrom (reached queue : List NodeId) (h : g.IsClosedBut reached queue) :
    g.IsClosedBut (g.reachFrom reached queue) [] := by
  induction reached, queue using reachFrom.induct g with
  | case1 reached => rw [reachFrom]; exact h
  | case2 reached next queue hnone ih =>
    rw [reachFrom, dif_pos hnone]
    refine ih fun id hid hqueue target hleads => ?_
    by_cases hnext : id = next
    · by_contra hnew
      have hfresh := mem_fresh.mpr ⟨hnext ▸ hleads, hnew⟩
      rw [hnone] at hfresh
      cases hfresh
    · exact h id hid (fun hmem => (List.mem_cons.mp hmem).elim hnext hqueue) target hleads
  | case3 reached next queue hsome ih =>
    rw [reachFrom, dif_neg hsome]
    refine ih fun id hid hqueue target hleads => ?_
    simp only [List.mem_append, not_or] at hid hqueue ⊢
    by_cases hnew : target ∈ reached
    · exact .inl hnew
    · refine .inr (mem_fresh.mpr ⟨?_, hnew⟩)
      by_cases hnext : id = next
      · exact hnext ▸ hleads
      · have hid := hid.resolve_right hqueue.2
        have hwaiting : id ∉ next :: queue := fun hmem =>
          (List.mem_cons.mp hmem).elim hnext hqueue.1
        exact absurd (h id hid hwaiting target hleads) hnew

/-- The search from an id reaches what lies at the end of steps from it. -/
theorem mem_reach_iff {start id : NodeId} :
    id ∈ g.reach start ↔ Relation.ReflTransGen g.LeadsTo start id := by
  constructor
  · refine reflTransGen_of_mem_reachFrom [start] [start] (fun other hother => ?_)
      (List.Subset.refl _)
    rw [List.mem_singleton.mp hother]
  · intro hsteps
    induction hsteps with
    | refl => exact subset_reachFrom [start] [start] List.mem_cons_self
    | tail _ hleads ih =>
      have hclosed : g.IsClosedBut [start] [start] := fun id hid hqueue => absurd hid hqueue
      exact isClosedBut_reachFrom _ _ hclosed _ ih List.not_mem_nil _ hleads

end Runbook.Graph
