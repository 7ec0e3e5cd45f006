import Runbook.Workflow.Unseen

/-!
The nodes a graph leads to from given ones. The search takes up each id once, in the order in
which edges first lead to it.
-/
namespace Runbook.Graph

def successors (g : Graph) (id : NodeId) : List NodeId :=
  ((g.outgoing id).map Edge.target).filter g.hasNode

/-- The ids that edges lead to and that the search has not reached, each once. -/
def fresh (g : Graph) (reached : List NodeId) (id : NodeId) : List NodeId :=
  ((g.successors id).filter fun t => !reached.contains t).eraseDups

theorem exists_node_of_hasNode {g : Graph} {id : NodeId} (h : g.hasNode id = true) :
    ∃ n ∈ g.nodes, n.id = id := by
  simpa [hasNode] using h

theorem unseen_append_fresh_lt {g : Graph} {reached : List NodeId} {id : NodeId}
    (h : g.fresh reached id ≠ []) :
    g.unseen (reached ++ g.fresh reached id) < g.unseen reached := by
  obtain ⟨t, ht⟩ := List.exists_mem_of_ne_nil _ h
  have hmem := ht
  rw [fresh, List.mem_eraseDups, List.mem_filter, successors, List.mem_filter] at hmem
  obtain ⟨⟨_, hnode⟩, hnew⟩ := hmem
  obtain ⟨n, hn, rfl⟩ := exists_node_of_hasNode hnode
  exact unseen_lt hn (by simpa using hnew) (List.mem_append_right _ ht)
    fun _ hx => List.mem_append_left _ hx

def reachFrom (g : Graph) (reached : List NodeId) : List NodeId → List NodeId
  | [] => reached
  | id :: queue =>
    if _h : g.fresh reached id = [] then g.reachFrom reached queue
    else g.reachFrom (reached ++ g.fresh reached id) (queue ++ g.fresh reached id)
termination_by queue => (g.unseen reached, queue.length)
decreasing_by
  · exact Prod.Lex.right _ (by simp)
  · exact Prod.Lex.left _ _ (unseen_append_fresh_lt _h)

def reach (g : Graph) (id : NodeId) : List NodeId := g.reachFrom [id] [id]

end Runbook.Graph
