import Mathlib.Data.List.Induction
import Mathlib.Data.List.Nodup
import Mathlib.Data.List.Perm.Subperm
import Mathlib.Logic.Function.Iterate
import Mathlib.Tactic.Common
import Runbook.Proofs.ErrorFree
import Runbook.Proofs.FirstOccurrences
import Runbook.Proofs.Reachability

/-!
The search from a start, one id out of its queue at a time. Every edge out of the id is followed,
and the id at its other end enters the queue if it is a node's and has never entered it before. So
no id enters twice, the queue is what is left of the ids that have entered, and it runs empty when
as many ids have been taken out as can be reached. Nothing is asked of the graph: its ids may
repeat, it may have several starts, and its edges may lead to no node at all.
-/
namespace Runbook.Graph

variable {g : Graph}

/-- A moment of the search: the ids that have entered its queue so far, in order, and those that
still wait in it. -/
structure Search where
  entered : List NodeId
  queue : List NodeId

namespace Search

def start (id : NodeId) : Search := ⟨[id], [id]⟩

/-- Follows an edge: its target enters the queue if it is a node's and has not entered before. -/
def follow (g : Graph) (s : Search) (e : Edge) : Search :=
  if g.hasNode e.target ∧ e.target ∉ s.entered then
    ⟨s.entered ++ [e.target], s.queue ++ [e.target]⟩
  else s

def next (g : Graph) (s : Search) : Search :=
  match s.queue with
  | [] => s
  | id :: queue => (g.outgoing id).foldl (follow g) ⟨s.entered, queue⟩

def after (g : Graph) (id : NodeId) (taken : Nat) : Search := Nat.iterate (next g) taken (start id)

/-- Edges let the new ids among their targets enter, each where it first comes up. -/
theorem foldl_follow (g : Graph) (s : Search) (edges : List Edge) :
    let new := (((edges.map Edge.target).filter g.hasNode).filter
      fun t => !s.entered.contains t).eraseDups
    edges.foldl (follow g) s = ⟨s.entered ++ new, s.queue ++ new⟩ := by
  induction edges using List.reverseRecOn with
  | nil => simp
  | append_singleton edges e ih =>
    intro new
    let targets := ((edges.map Edge.target).filter g.hasNode).filter
      fun t => !s.entered.contains t
    have hnew : new = (targets ++ (([e.target].filter g.hasNode).filter
        fun t => !s.entered.contains t)).eraseDups := by
      simp only [new, targets, List.map_append, List.map_singleton, List.filter_append]
    have hlast : (edges ++ [e]).foldl (follow g) s =
        follow g ⟨s.entered ++ targets.eraseDups, s.queue ++ targets.eraseDups⟩ e := by
      rw [List.foldl_append, ih]
      rfl
    rw [hlast, hnew, follow]
    by_cases hnode : g.hasNode e.target = true
    · by_cases hold : e.target ∈ s.entered
      · simp [hnode, hold]
      · have hone : ([e.target].filter g.hasNode).filter (fun t => !s.entered.contains t) =
            [e.target] := by simp [hnode, hold]
        rw [hone, eraseDups_concat]
        by_cases hfirst : e.target ∈ targets
        · simp [hfirst]
        · simp [hnode, hold, hfirst]
    · simp [hnode]

theorem next_cons (g : Graph) (entered : List NodeId) (id : NodeId) (queue : List NodeId) :
    next g ⟨entered, id :: queue⟩ =
      ⟨entered ++ g.fresh entered id, queue ++ g.fresh entered id⟩ :=
  foldl_follow g ⟨entered, queue⟩ (g.outgoing id)

structure IsOrderly (s : Search) : Prop where
  entered_nodup : s.entered.Nodup
  queue_suffix : s.queue <:+ s.entered

namespace IsOrderly

theorem start (id : NodeId) : (start id).IsOrderly := ⟨List.nodup_singleton id, List.suffix_rfl⟩

theorem follow {s : Search} (h : s.IsOrderly) (e : Edge) : (follow g s e).IsOrderly := by
  unfold Search.follow
  split
  · rename_i hnew
    obtain ⟨taken, htaken⟩ := h.queue_suffix
    refine ⟨?_, taken, ?_⟩
    · rw [← List.concat_eq_append]
      exact h.entered_nodup.concat hnew.2
    · rw [← List.append_assoc, htaken]
  · exact h

theorem foldl_follow {s : Search} (h : s.IsOrderly) (edges : List Edge) :
    (edges.foldl (Search.follow g) s).IsOrderly := by
  induction edges generalizing s with
  | nil => exact h
  | cons e rest ih => exact ih (h.follow e)

theorem next {s : Search} (h : s.IsOrderly) : (next g s).IsOrderly := by
  obtain ⟨entered, queue⟩ := s
  cases queue with
  | nil => exact h
  | cons id queue =>
    have hrest : (⟨entered, queue⟩ : Search).IsOrderly :=
      ⟨h.entered_nodup, (List.suffix_cons id queue).trans h.queue_suffix⟩
    exact hrest.foldl_follow _

theorem after (g : Graph) (id : NodeId) (taken : Nat) : (after g id taken).IsOrderly := by
  induction taken with
  | zero => exact start id
  | succ n ih =>
    rw [Search.after, Function.iterate_succ_apply']
    exact ih.next

end IsOrderly

/-- The queue runs empty after as many ids as wait in it or have yet to enter it. -/
theorem exists_iterate_next (g : Graph) (reached queue : List NodeId) :
    ∃ n, n + reached.length = (g.reachFrom reached queue).length + queue.length ∧
      Nat.iterate (next g) n ⟨reached, queue⟩ = ⟨g.reachFrom reached queue, []⟩ := by
  induction reached, queue using reachFrom.induct g with
  | case1 reached =>
    rw [reachFrom]
    exact ⟨0, by simp, rfl⟩
  | case2 reached id queue hnone ih =>
    obtain ⟨n, hn, hend⟩ := ih
    rw [reachFrom, dif_pos hnone]
    refine ⟨n + 1, by simp only [List.length_cons]; omega, ?_⟩
    rw [Function.iterate_succ_apply, next_cons, hnone, List.append_nil, List.append_nil, hend]
  | case3 reached id queue hsome ih =>
    obtain ⟨n, hn, hend⟩ := ih
    rw [reachFrom, dif_neg hsome]
    refine ⟨n + 1, ?_, ?_⟩
    · simp only [List.length_append, List.length_cons] at hn ⊢
      omega
    · rw [Function.iterate_succ_apply, next_cons, hend]

theorem after_length_reach (g : Graph) (id : NodeId) :
    after g id (g.reach id).length = ⟨g.reach id, []⟩ := by
  obtain ⟨n, hn, hend⟩ := exists_iterate_next g [id] [id]
  obtain rfl : n = (g.reach id).length := by
    simp only [List.length_singleton] at hn
    exact Nat.add_right_cancel hn
  exact hend

end Search

instance (g : Graph) (id target : NodeId) : Decidable (Relation.ReflTransGen g.LeadsTo id target) :=
  decidable_of_iff _ mem_reach_iff

theorem nodup_reach (g : Graph) (id : NodeId) : (g.reach id).Nodup := by
  have horderly := (Search.IsOrderly.after g id (g.reach id).length).entered_nodup
  rwa [Search.after_length_reach] at horderly

/-- No more ids are reached from a node than there are nodes. -/
theorem length_reach_le {start : Node} (hstart : start ∈ g.nodes) :
    (g.reach start.id).length ≤ g.nodes.length := by
  have hsub : g.reach start.id ⊆ g.nodes.map Node.id := by
    intro id hid
    rcases Relation.ReflTransGen.cases_tail (mem_reach_iff.mp hid) with rfl | hlast
    · exact List.mem_map_of_mem hstart
    · obtain ⟨before, -, hleads⟩ := hlast
      obtain ⟨node, hnode, rfl⟩ := exists_node_of_hasNode hleads.2
      exact List.mem_map_of_mem hnode
  simpa using ((nodup_reach g start.id).subperm hsub).length_le

/-- The findings about unreachable nodes are one for each node that is no start and that no edges
lead to from the first start, in the order of the nodes. The search that finds them lets no id
enter its queue twice and ends when it has taken out each id that it reached. -/
theorem unreachable_told_exactly (g : Graph) :
    (∀ start, (g.ofKind .start).head? = some start →
      (g.findings.filter fun f => f.topic = .unreachable) =
        (g.nodes.filter fun n => n.kind ≠ .start ∧
          ¬ Relation.ReflTransGen g.LeadsTo start.id n.id).map (fun n =>
            { severity := .warning, topic := .unreachable, node := some n.id
              message := "Node " ++ quotedName n.id ++ " cannot be reached from the start node" }) ∧
      (∀ taken, (Search.after g start.id taken).entered.Nodup ∧
        (Search.after g start.id taken).queue <:+ (Search.after g start.id taken).entered) ∧
      ∃ taken ≤ g.nodes.length, Search.after g start.id taken = ⟨g.reach start.id, []⟩) ∧
    (g.ofKind .start = [] → (g.findings.filter fun f => f.topic = .unreachable) = []) := by
  have hfound : (g.findings.filter fun f => f.topic = .unreachable) = g.reachFindings :=
    filter_topic_findings rfl
  rw [hfound]
  constructor
  · intro start hstart
    have hmem : start ∈ g.nodes := List.mem_of_mem_filter (List.mem_of_mem_head? hstart)
    refine ⟨?_, fun taken => ?_, (g.reach start.id).length, length_reach_le hmem, ?_⟩
    · simp only [reachFindings, hstart, mem_reach_iff]
    · have horderly := Search.IsOrderly.after g start.id taken
      exact ⟨horderly.entered_nodup, horderly.queue_suffix⟩
    · exact Search.after_length_reach g start.id
  · intro hnone
    simp [reachFindings, hnone]

/-- Two starts and a wreck that is drawn twice. The first start leads to a buoy, which leads to
itself and to no node at all; only the second start leads to the wreck. -/
def shoals : Graph where
  nodes := [.ofStep "dock" .start .origin, .ofStep "wreck" (.task {}) .origin,
    .ofStep "pier" .start .origin, .ofStep "buoy" (.task {}) .origin,
    .ofStep "wreck" (.backup {}) .origin]
  edges := [⟨"out", "dock", "buoy", none⟩, ⟨"swing", "buoy", "buoy", none⟩,
    ⟨"adrift", "buoy", "sea", none⟩, ⟨"dive", "pier", "wreck", none⟩,
    ⟨"tow", "wreck", "buoy", none⟩, ⟨"again", "dock", "buoy", none⟩]

theorem unreachable_told_exactly_shoals :
    (shoals.ofKind .start).head? = some (.ofStep "dock" .start .origin) ∧
    (shoals.findings.filter fun f => f.topic = .unreachable).filterMap Finding.node =
      ["wreck", "wreck"] ∧
    ∃ taken ≤ shoals.nodes.length, Search.after shoals "dock" taken = ⟨["dock", "buoy"], []⟩ := by
  have hstart : (shoals.ofKind .start).head? = some (.ofStep "dock" .start .origin) := by decide
  have hreach : shoals.reach "dock" = ["dock", "buoy"] := by cbv
  obtain ⟨htold, -, taken, htaken, hend⟩ := (unreachable_told_exactly shoals).1 _ hstart
  refine ⟨hstart, ?_, taken, htaken, hend.trans ?_⟩
  · have hlost : (shoals.nodes.filter fun n => n.kind ≠ .start ∧
        ¬ Relation.ReflTransGen shoals.LeadsTo "dock" n.id).map Node.id = ["wreck", "wreck"] := by
      simp only [← mem_reach_iff, hreach]
      decide
    rw [htold, List.filterMap_map, ← hlost, ← List.filterMap_eq_map]
    rfl
  · exact congrArg (Search.mk · []) hreach

end Runbook.Graph
