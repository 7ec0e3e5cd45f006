import Mathlib.Tactic.Common
import Runbook.Proofs.DeadNodes

/-!
The order in which a graph was drawn. Nodes are looked up by their ids and edges by their sources,
so a graph may list its nodes in any order and its edges in any order that leaves those out of one
node as they were: what the walk looks up is the same, and so is all that comes of it. Whether the
graph is well formed takes no order into account at all.
-/
namespace Runbook

namespace Graph

/-- One graph has the nodes and the edges of another in some other order, in which edges out of the
same node stand in the order of their places. -/
structure Reorders (g' g : Graph) : Prop where
  nodes : g'.nodes.Perm g.nodes
  edges : ∃ placed : List PlacedEdge, placed.map Prod.fst = g'.edges ∧
    placed.Perm g.edges.zipIdx ∧
    placed.Pairwise fun a b => a.1.source = b.1.source → a.2 < b.2

/-- Which graphs are well formed is a matter of which nodes and edges they have. -/
theorem WellFormed.of_mem_iff {g g' : Graph} (h : g.WellFormed)
    (hnodes : ∀ n, n ∈ g'.nodes ↔ n ∈ g.nodes) (hedges : ∀ e, e ∈ g'.edges ↔ e ∈ g.edges) :
    g'.WellFormed where
  one_start := by simpa only [hnodes] using h.one_start
  some_end := by simpa only [hnodes] using h.some_end
  ends_exist := by simpa only [hnodes, hedges] using h.ends_exist
  none_into_start := by simpa only [hnodes, hedges] using h.none_into_start
  none_out_of_end := by simpa only [hnodes, hedges] using h.none_out_of_end
  connected := by simpa only [hnodes, hedges] using h.connected
  ports_fit := by simpa only [hnodes, hedges] using h.ports_fit
  condition_branches := by simpa only [hnodes, hedges] using h.condition_branches
  loop_branches := by simpa only [hnodes, hedges] using h.loop_branches

namespace Reorders

variable {g g' : Graph}

/-- The edges out of a node are the same in the same order. -/
theorem outgoing_eq (h : g'.Reorders g) (id : NodeId) : g'.outgoing id = g.outgoing id := by
  obtain ⟨placed, hplaced, hperm, hsorted⟩ := h.edges
  let leaves : PlacedEdge → Bool := fun a => a.1.source = id
  have hleaves : ∀ a, leaves a = true → a.1.source = id := fun a ha => by simpa [leaves] using ha
  have hleft : (placed.filter leaves).Pairwise fun a b => a.2 < b.2 := by
    refine List.pairwise_filter.mpr (hsorted.imp fun {a b} hlt ha hb => ?_)
    exact hlt ((hleaves a ha).trans (hleaves b hb).symm)
  have hright : (g.edges.zipIdx.filter leaves).Pairwise fun a b => a.2 < b.2 :=
    (pairwise_place_lt g.edges).filter _
  have hsame : placed.filter leaves = g.edges.zipIdx.filter leaves := by
    refine List.Perm.eq_of_pairwise (fun a b _ _ hab hba => ?_) hleft hright (hperm.filter _)
    exact absurd hba (Nat.lt_asymm hab)
  calc g'.outgoing id
      = (placed.filter leaves).map Prod.fst := by rw [outgoing, ← hplaced, List.filter_map]; rfl
    _ = (g.edges.zipIdx.filter leaves).map Prod.fst := by rw [hsame]
    _ = g.outgoing id := by
      conv_rhs => rw [outgoing, ← List.zipIdx_map_fst 0 g.edges, List.filter_map]
      rfl

theorem mem_edges_iff (h : g'.Reorders g) (e : Edge) : e ∈ g'.edges ↔ e ∈ g.edges := by
  have hout : ∀ k : Graph, e ∈ k.edges ↔ e ∈ k.outgoing e.source := by simp [outgoing]
  rw [hout g', hout g, h.outgoing_eq]

theorem nodup_ids (h : g'.Reorders g) (hids : (g.nodes.map Node.id).Nodup) :
    (g'.nodes.map Node.id).Nodup :=
  (h.nodes.map Node.id).nodup_iff.mpr hids

/-- Where no id is repeated each id finds the same node. -/
theorem node?_eq (h : g'.Reorders g) (hids : (g.nodes.map Node.id).Nodup) (id : NodeId) :
    g'.node? id = g.node? id := by
  refine Option.ext fun node => ?_
  constructor
  · intro hnode
    rw [← id_of_node? hnode]
    exact node?_of_mem hids (h.nodes.mem_iff.mp (mem_nodes_of_node? hnode))
  · intro hnode
    rw [← id_of_node? hnode]
    exact node?_of_mem (h.nodup_ids hids) (h.nodes.mem_iff.mpr (mem_nodes_of_node? hnode))

theorem isErrorFree (h : g'.Reorders g) (hids : (g.nodes.map Node.id).Nodup)
    (hfree : g.IsErrorFree) : g'.IsErrorFree := by
  rw [isErrorFree_iff_wellFormed (h.nodup_ids hids)]
  exact ((isErrorFree_iff_wellFormed hids).mp hfree).of_mem_iff (fun _ => h.nodes.mem_iff)
    h.mem_edges_iff

end Reorders

end Graph

/-- Of the order in which nodes and edges stand only that of the edges out of one node shows: in any
other order an error-free graph is free of errors, and it compiles to the same script or breaks the
same limit. -/
theorem Compiler.compile_eq_of_reorders {g g' : Graph} (hids : (g.nodes.map Node.id).Nodup)
    (hfree : hasErrors g.findings = false) (h : g'.Reorders g) :
    hasErrors g'.findings = false ∧
      ∀ (c : Compiler) (resolver : Resolver), c.compile g' resolver = c.compile g resolver := by
  have hfree' : g'.IsErrorFree := h.isErrorFree hids hfree
  obtain ⟨start, hstart⟩ := Graph.IsErrorFree.exists_start hfree
  have hstart' : g'.ofKind .start = [start] := by
    have hperm : (g'.ofKind .start).Perm (g.ofKind .start) := h.nodes.filter _
    rw [hstart] at hperm
    exact List.perm_singleton.mp hperm
  have hagree : Graph.AgreeOn (fun _ => True) g g' := .everywhere (h.node?_eq hids) h.outgoing_eq
  exact ⟨hfree', hagree.compile_eq hfree hfree' hstart hstart' trivial⟩

/-- The patrol with its nodes in reverse and its edges by their sources from the last to the
first. -/
def Graph.patrolFromTheEnd : Graph where
  nodes := patrol.nodes.reverse
  edges := [6, 7, 4, 5, 3, 1, 2, 0].filterMap fun place => patrol.edges[place]?

theorem Compiler.compile_eq_of_reorders_patrol :
    (Graph.patrol.nodes.map Node.id).Nodup ∧ hasErrors Graph.patrol.findings = false ∧
    Graph.patrolFromTheEnd.Reorders .patrol ∧ hasErrors Graph.patrolFromTheEnd.findings = false ∧
    ∀ (c : Compiler) (resolver : Resolver),
      c.compile .patrolFromTheEnd resolver = c.compile .patrol resolver := by
  have hfree : Graph.patrol.IsErrorFree := Graph.patrol_isErrorFree
  have h : Graph.patrolFromTheEnd.Reorders .patrol := by
    refine ⟨List.reverse_perm _,
      [6, 7, 4, 5, 3, 1, 2, 0].filterMap fun place => Graph.patrol.edges.zipIdx[place]?, ?_⟩
    decide +kernel
  exact ⟨Graph.patrol_ids_nodup, hfree, h, compile_eq_of_reorders Graph.patrol_ids_nodup hfree h⟩

end Runbook
