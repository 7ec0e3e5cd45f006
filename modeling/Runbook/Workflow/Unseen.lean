import Runbook.Workflow.Graph

/-!
How many nodes of a graph a walk has not seen yet. Seeing a node of the graph makes the number
smaller, which is why walks that never see a node twice come to an end.
-/
namespace Runbook

theorem countP_lt_of_mem {α : Type} {p q : α → Bool} {l : List α} {a : α}
    (hqp : ∀ x ∈ l, q x = true → p x = true) (ha : a ∈ l) (hp : p a = true)
    (hq : q a = false) : l.countP q < l.countP p := by
  induction l with
  | nil => simp at ha
  | cons x rest ih =>
    have hrest : rest.countP q ≤ rest.countP p :=
      List.countP_mono_left fun y hy => hqp y (List.mem_cons_of_mem _ hy)
    rw [List.countP_cons, List.countP_cons]
    rcases List.mem_cons.mp ha with rfl | ha
    · simp only [hp, hq, if_true, Bool.false_eq_true, if_false]
      omega
    · have := ih (fun y hy => hqp y (List.mem_cons_of_mem _ hy)) ha
      by_cases hx : q x = true
      · simp only [hx, hqp x List.mem_cons_self hx, if_true]
        omega
      · simp only [hx, Bool.false_eq_true, if_false]
        omega

namespace Graph

def unseen (g : Graph) (seen : List NodeId) : Nat :=
  g.nodes.countP fun n => !seen.contains n.id

theorem unseen_lt {g : Graph} {node : Node} {seen later : List NodeId}
    (hnode : node ∈ g.nodes) (hseen : node.id ∉ seen) (hlater : node.id ∈ later)
    (hsub : ∀ id ∈ seen, id ∈ later) : g.unseen later < g.unseen seen := by
  refine countP_lt_of_mem (fun x _ hx => ?_) hnode ?_ ?_
  · simp only [Bool.not_eq_true', List.contains_eq_mem, decide_eq_false_iff_not] at hx ⊢
    exact fun h => hx (hsub _ h)
  · simpa using hseen
  · simpa using hlater

theorem unseen_cons_lt {g : Graph} {node : Node} {seen : List NodeId}
    (hnode : node ∈ g.nodes) (hseen : node.id ∉ seen) :
    g.unseen (node.id :: seen) < g.unseen seen :=
  unseen_lt hnode hseen List.mem_cons_self fun _ h => List.mem_cons_of_mem _ h

theorem mem_nodes_of_node? {g : Graph} {id : NodeId} {node : Node}
    (h : g.node? id = some node) : node ∈ g.nodes :=
  List.mem_of_find?_eq_some h

theorem id_of_node? {g : Graph} {id : NodeId} {node : Node}
    (h : g.node? id = some node) : node.id = id := by
  simpa using List.find?_some h

end Graph

end Runbook
