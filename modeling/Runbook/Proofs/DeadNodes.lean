import Mathlib.Data.List.Induction
import Mathlib.Data.List.Nodup
import Mathlib.Logic.Relation
import Mathlib.Tactic.Common
import Runbook.Proofs.CompileOutcome
import Runbook.Proofs.LivePaths
import Runbook.Proofs.Reachability
import Runbook.Proofs.Violations

/-!
Nodes that no path comes to. The search for unreachable nodes follows every edge and never comes
back to an id, the walk follows live edges and turns back at ids on its path; still they come to
the same nodes where no port is used twice, for whatever can be reached is at the end of a path
that holds no node twice. The nodes that can not be reached are dead: without them and the edges
at them the graph has no new errors, and the walk finds all that it looks up unchanged.
-/
namespace Runbook

/-- One id after another is left out, where leaving one out keeps the others. -/
theorem foldlM_eq_ok_without {α β ε : Type} {op : α → β → Except ε α} {P : α → β → Prop}
    {without : α → List β → α} (hop : ∀ a id, P a id → op a id = .ok (without a [id]))
    (hkeeps : ∀ a id other, P a other → other ≠ id → P (without a [id]) other)
    (hnil : ∀ a, without a [] = a)
    (hcons : ∀ a id rest, without (without a [id]) rest = without a (id :: rest)) {ids : List β}
    (hnodup : ids.Nodup) {a : α} (hmem : ∀ id ∈ ids, P a id) :
    ids.foldlM op a = .ok (without a ids) := by
  induction ids generalizing a with
  | nil =>
    rw [List.foldlM_nil, hnil]
    rfl
  | cons id rest ih =>
    obtain ⟨hid, hrest⟩ := List.nodup_cons.mp hnodup
    obtain ⟨hfirst, hothers⟩ := List.forall_mem_cons.mp hmem
    have hstill : ∀ other ∈ rest, P (without a [id]) other := fun other hother =>
      hkeeps a id other (hothers other hother) fun heq => hid (heq ▸ hother)
    rw [List.foldlM_cons, hop a id hfirst]
    show rest.foldlM op (without a [id]) = _
    rw [ih hrest hstill, hcons]

namespace PlacedEdge

def ending (start : NodeId) (path : List PlacedEdge) : NodeId :=
  (path.map fun a => a.1.target).getLastD start

theorem ending_cons (start : NodeId) (a : PlacedEdge) (path : List PlacedEdge) :
    ending start (a :: path) = ending a.1.target path := by
  rw [ending, List.map_cons, List.getLastD_cons]
  rfl

theorem ending_concat (start : NodeId) (path : List PlacedEdge) (a : PlacedEdge) :
    ending start (path ++ [a]) = a.1.target := by
  simp [ending]

theorem leadFrom_append {start : NodeId} {path more : List PlacedEdge} :
    LeadFrom start (path ++ more) ↔ LeadFrom start path ∧ LeadFrom (ending start path) more := by
  induction path generalizing start with
  | nil => simp [LeadFrom, ending]
  | cons a rest ih => simp only [List.cons_append, LeadFrom, ih, ending_cons, and_assoc]

/-- Every node of a path is the end of a first part of it. -/
theorem exists_append_of_mem {start id : NodeId} {path : List PlacedEdge}
    (hid : id ∈ start :: path.map fun a => a.1.target) :
    ∃ first rest, path = first ++ rest ∧ ending start first = id := by
  induction path generalizing start with
  | nil =>
    obtain rfl : id = start := by simpa using hid
    exact ⟨[], [], rfl, rfl⟩
  | cons a more ih =>
    rcases List.mem_cons.mp hid with rfl | hid
    · exact ⟨[], a :: more, rfl, rfl⟩
    · obtain ⟨first, rest, rfl, hending⟩ := ih hid
      exact ⟨a :: first, rest, rfl, by rw [ending_cons, hending]⟩

end PlacedEdge

open PlacedEdge

namespace Graph

variable {g : Graph}

namespace IsSimpleLivePath

variable {start : NodeId} {path more : List PlacedEdge} {a : PlacedEdge}

theorem nil (g : Graph) (start : NodeId) : g.IsSimpleLivePath start [] :=
  ⟨trivial, by simp, by simp⟩

theorem of_append (h : g.IsSimpleLivePath start (path ++ more)) :
    g.IsSimpleLivePath start path where
  leads := (leadFrom_append.mp h.leads).1
  live b hb := h.live b (List.mem_append_left _ hb)
  simple := by
    have hsimple := h.simple
    rw [List.map_append, ← List.cons_append] at hsimple
    exact hsimple.of_append_left

theorem concat (h : g.IsSimpleLivePath start path) (ha : g.IsLive a)
    (hsource : a.1.source = ending start path)
    (hfresh : a.1.target ∉ start :: path.map fun b => b.1.target) :
    g.IsSimpleLivePath start (path ++ [a]) where
  leads := leadFrom_append.mpr ⟨h.leads, hsource, trivial⟩
  live b hb := by
    rcases List.mem_append.mp hb with hb | hb
    · exact h.live b hb
    · exact List.mem_singleton.mp hb ▸ ha
  simple := by
    rw [List.map_append, List.map_singleton, ← List.cons_append, ← List.concat_eq_append]
    exact h.simple.concat hfresh

/-- The last node of a path can be reached from its first. -/
theorem reflTransGen (hfree : g.IsErrorFree) (h : g.IsSimpleLivePath start path) :
    Relation.ReflTransGen g.LeadsTo start (ending start path) := by
  induction path using List.reverseRecOn with
  | nil => exact .refl
  | append_singleton path a ih =>
    have hedge : a.1 ∈ g.edges :=
      List.fst_mem_of_mem_zipIdx (h.live a (by simp)).1
    obtain ⟨-, hsource, -⟩ := leadFrom_append.mp h.leads
    rw [ending_concat]
    exact (ih h.of_append).tail ⟨⟨a.1, hedge, hsource, rfl⟩, (hfree.hasNode_of_mem hedge).2⟩

end IsSimpleLivePath

theorem exists_mem_zipIdx {α : Type} {l : List α} {a : α} (h : a ∈ l) :
    ∃ place, (a, place) ∈ l.zipIdx := by
  obtain ⟨place, hplace⟩ := List.mem_iff_getElem?.mp h
  exact ⟨place, List.mk_mem_zipIdx_iff_getElem?.mpr hplace⟩

/-- Where paths follow every edge, each id that can be reached is the end of one of them. -/
theorem exists_isSimpleLivePath (hlive : ∀ a ∈ g.edges.zipIdx, g.IsLive a) {start id : NodeId}
    (h : Relation.ReflTransGen g.LeadsTo start id) :
    ∃ path, g.IsSimpleLivePath start path ∧ ending start path = id := by
  induction h with
  | refl => exact ⟨[], .nil g start, rfl⟩
  | @tail before id _ hleads ih =>
    obtain ⟨path, hpath, hending⟩ := ih
    by_cases hseen : id ∈ start :: path.map fun a => a.1.target
    · obtain ⟨first, rest, rfl, hfirst⟩ := exists_append_of_mem hseen
      exact ⟨first, hpath.of_append, hfirst⟩
    · obtain ⟨⟨e, he, hsource, rfl⟩, -⟩ := hleads
      obtain ⟨place, ha⟩ := exists_mem_zipIdx he
      exact ⟨path ++ [(e, place)],
        hpath.concat (hlive _ ha) (hsource.trans hending.symm) hseen, ending_concat _ _ _⟩

/-- Edges of which none repeats a port name different ports. -/
theorem nodup_ports_of_repeatedPorts_eq_nil {seen : List Port} {edges : List Edge}
    (h : repeatedPorts seen edges = []) :
    (edges.filterMap Edge.port).Nodup ∧ ∀ port ∈ edges.filterMap Edge.port, port ∉ seen := by
  induction edges generalizing seen with
  | nil => simp
  | cons e rest ih =>
    unfold repeatedPorts at h
    cases hport : e.port with
    | none =>
      rw [hport] at h
      rw [List.filterMap_cons_none hport]
      exact ih h
    | some port =>
      rw [hport] at h
      simp only at h
      split at h
      · cases h
      · rename_i hnew
        obtain ⟨hnodup, hseen⟩ := ih h
        rw [List.filterMap_cons_some hport]
        refine ⟨List.nodup_cons.mpr ⟨fun hmem => hseen port hmem List.mem_cons_self, hnodup⟩, ?_⟩
        intro other hother
        rcases List.mem_cons.mp hother with rfl | hother
        · exact hnew
        · exact fun hmem => hseen other hother (List.mem_cons_of_mem _ hmem)

theorem eq_of_nodup_filterMap {α β : Type} {f : α → Option β} {l : List α} {a b : α} {c : β}
    (hl : (l.filterMap f).Nodup) (ha : a ∈ l) (hb : b ∈ l) (hfa : f a = some c)
    (hfb : f b = some c) : a = b := by
  induction l with
  | nil => cases ha
  | cons x rest ih =>
    have hc : ∀ y ∈ rest, f y = some c → c ∈ rest.filterMap f :=
      fun y hy hfy => List.mem_filterMap.mpr ⟨y, hy, hfy⟩
    rcases List.mem_cons.mp ha with rfl | harest <;> rcases List.mem_cons.mp hb with rfl | hbrest
    · rfl
    · rw [List.filterMap_cons_some hfa] at hl
      exact absurd (hc b hbrest hfb) (List.nodup_cons.mp hl).1
    · rw [List.filterMap_cons_some hfb] at hl
      exact absurd (hc a harest hfa) (List.nodup_cons.mp hl).1
    · refine ih (hl.sublist ?_) harest hbrest
      exact (List.sublist_cons_self x rest).filterMap f

/-- Without a port that is used twice paths follow every edge. -/
theorem isLive_of_duplicateFindings_eq_nil (hfree : g.IsErrorFree)
    (hids : (g.nodes.map Node.id).Nodup) (hnone : g.duplicateFindings = []) {a : PlacedEdge}
    (ha : a ∈ g.edges.zipIdx) : g.IsLive a := by
  have hedge : a.1 ∈ g.edges := List.fst_mem_of_mem_zipIdx ha
  obtain ⟨node, hnode, hid⟩ := exists_node_of_hasNode (hfree.hasNode_of_mem hedge).1
  cases hkind : node.kind.isBranching with
  | false => exact ⟨ha, .inl ⟨node, hnode, hid, hkind⟩⟩
  | true =>
    refine ⟨ha, .inr fun b hb hsource hport => ?_⟩
    have hout : g.outgoing node.id =
        (g.edges.zipIdx.filter fun c => c.1.source = node.id).map Prod.fst := by
      have hmap := List.filter_map (l := g.edges.zipIdx) (f := Prod.fst)
        (p := fun e => decide (e.source = node.id))
      rw [List.zipIdx_map_fst] at hmap
      exact hmap
    have hrepeated : repeatedPorts [] (g.outgoing node.id) = [] := by
      have hbranching : node ∈ g.nodes.filter fun n => n.kind.isBranching :=
        List.mem_filter.mpr ⟨hnode, hkind⟩
      simpa using List.flatMap_eq_nil_iff.mp hnone node hbranching
    obtain ⟨hnodup, -⟩ := nodup_ports_of_repeatedPorts_eq_nil hrepeated
    rw [hout, List.filterMap_map] at hnodup
    have haccepts := hfree.accepts_port_of_source hids hnode hedge hid.symm
    cases hname : a.1.port with
    | none => simp [hname, Kind.accepts, hkind] at haccepts
    | some port =>
      have hamem : a ∈ g.edges.zipIdx.filter fun c => c.1.source = node.id :=
        List.mem_filter.mpr ⟨ha, by simp [hid]⟩
      have hbmem : b ∈ g.edges.zipIdx.filter fun c => c.1.source = node.id :=
        List.mem_filter.mpr ⟨hb, by simp [hsource, hid]⟩
      rw [eq_of_nodup_filterMap hnodup hamem hbmem hname (hport.trans hname)]

def flagged (g : Graph) (topic : Topic) : List NodeId :=
  (g.findings.filter fun f => f.topic = topic).filterMap Finding.node

theorem flagged_unreachable {start : Node} (hstart : g.ofKind .start = [start]) :
    g.flagged .unreachable =
      (g.nodes.filter fun n => n.kind ≠ .start ∧ n.id ∉ g.reach start.id).map Node.id := by
  have hfound : (g.findings.filter fun f => f.topic = .unreachable) = g.reachFindings :=
    filter_topic_findings rfl
  rw [flagged, hfound, reachFindings, hstart]
  simp [List.filterMap_map]

/-- A node is flagged if it can not be reached from the start. -/
theorem mem_flagged_iff {start : Node} (hstart : g.ofKind .start = [start]) {id : NodeId} :
    id ∈ g.flagged .unreachable ↔ g.hasNode id = true ∧ id ∉ g.reach start.id := by
  have hreached : start.id ∈ g.reach start.id := mem_reach_iff.mpr .refl
  rw [flagged_unreachable hstart]
  simp only [List.mem_map, List.mem_filter, decide_eq_true_eq]
  constructor
  · intro hflagged
    obtain ⟨node, ⟨hnode, -, hdead⟩, rfl⟩ := hflagged
    exact ⟨List.any_eq_true.mpr ⟨node, hnode, by simp⟩, hdead⟩
  · intro hdead
    obtain ⟨hhas, hdead⟩ := hdead
    obtain ⟨node, hnode, rfl⟩ := exists_node_of_hasNode hhas
    refine ⟨node, ⟨hnode, fun hkind => hdead ?_, hdead⟩, rfl⟩
    have hmem : node ∈ g.ofKind .start := List.mem_filter.mpr ⟨hnode, by simpa using hkind⟩
    rw [hstart] at hmem
    rwa [List.mem_singleton.mp hmem]

/-- A graph without the nodes of some ids and the edges at them. -/
def without (g : Graph) (ids : List NodeId) : Graph :=
  ⟨g.nodes.filter fun n => n.id ∉ ids,
    g.edges.filter fun e => e.source ∉ ids ∧ e.target ∉ ids⟩

theorem without_congr (g : Graph) {ids more : List NodeId} (h : ∀ id, id ∈ ids ↔ id ∈ more) :
    g.without ids = g.without more := by
  simp only [without, h]

theorem without_without (g : Graph) (ids more : List NodeId) :
    (g.without ids).without more = g.without (ids ++ more) := by
  simp only [without, List.filter_filter, List.mem_append, not_or, mk.injEq]
  constructor
  · refine List.filter_congr fun n _ => Bool.eq_iff_iff.mpr ?_
    simp [and_comm]
  · refine List.filter_congr fun e _ => Bool.eq_iff_iff.mpr ?_
    simp [and_comm, and_assoc, and_left_comm]

/-- Taking nodes out one after another leaves the graph without them. -/
theorem foldlM_removeNode {ids : List NodeId} (hnodup : ids.Nodup)
    (hmem : ∀ id ∈ ids, g.hasNode id = true) :
    ids.foldlM removeNode g = .ok (g.without ids) := by
  refine foldlM_eq_ok_without (P := fun g id => g.hasNode id = true) (fun g id hid => ?_)
    (fun g id other hother hne => ?_) (fun g => ?_) (fun g id rest => ?_) hnodup hmem
  · simp [removeNode, hid, without]
  · obtain ⟨node, hnode, rfl⟩ := exists_node_of_hasNode hother
    exact List.any_eq_true.mpr ⟨node, List.mem_filter.mpr ⟨hnode, by simpa using hne⟩, by simp⟩
  · simp [without]
  · rw [without_without, List.singleton_append]

/-- Two graphs in which a walk that begins at ids with some property finds the same. -/
structure AgreeOn (P : NodeId → Prop) (g g' : Graph) : Prop where
  node?_eq : ∀ id, P id → g'.node? id = g.node? id
  liveEdges_eq : ∀ node ∈ g.nodes, P node.id → g'.liveEdges node = g.liveEdges node
  closed : ∀ node ∈ g.nodes, P node.id → ∀ e ∈ g.liveEdges node, P e.target

namespace AgreeOn

variable {P : NodeId → Prop} {g' : Graph}

/-- Graphs with the same look-ups agree on all ids. -/
theorem everywhere (hnode : ∀ id, g'.node? id = g.node? id)
    (hout : ∀ id, g'.outgoing id = g.outgoing id) : AgreeOn (fun _ => True) g g' where
  node?_eq id _ := hnode id
  liveEdges_eq node _ _ := by simp only [liveEdges, hout]
  closed _ _ _ _ _ := trivial

/-- The walks along some edges are the same. -/
theorem exits_eq (h : AgreeOn P g g') (limits : Limits) (path loops : List NodeId) (depth : Nat)
    (last : Node) (edges : List Edge) (count : Nat) (hedges : ∀ e ∈ edges, P e.target) :
    g'.exits limits path loops depth last edges count =
      g.exits limits path loops depth last edges count := by
  induction path, loops, depth, last, edges, count using Graph.exits.induct g with
  | case1 path loops depth last count => rw [Graph.exits, Graph.exits]
  | case2 path loops depth last count e rest ihrest ihbehind ihothers =>
    obtain ⟨he, hrest⟩ := List.forall_mem_cons.mp hedges
    by_cases hseen : e.target ∈ path
    · rw [exits_cons_seen g' limits loops depth last rest count hseen,
        exits_cons_seen g limits loops depth last rest count hseen, ihrest hrest]
    · have hsame := h.node?_eq e.target he
      cases hnode : g.node? e.target with
      | none =>
        rw [exits_cons_nowhere g' limits loops depth last rest count hseen (hsame.trans hnode),
          exits_cons_nowhere g limits loops depth last rest count hseen hnode, ihrest hrest]
      | some node =>
        have hmem : node ∈ g.nodes := mem_nodes_of_node? hnode
        have hid : P node.id := by rwa [id_of_node? hnode]
        rw [exits_cons_onward g' limits loops depth last rest count hseen (hsame.trans hnode),
          exits_cons_onward g limits loops depth last rest count hseen hnode,
          h.liveEdges_eq node hmem hid, ihbehind hseen node hnode (h.closed node hmem hid)]
        simp only [fun n => ihothers n hrest]

theorem visit_eq (h : AgreeOn P g g') (limits : Limits) {start : Node} (hmem : start ∈ g.nodes)
    (hstart : P start.id) : g'.visit limits start = g.visit limits start := by
  unfold visit
  rw [h.liveEdges_eq start hmem hstart, h.exits_eq _ _ _ _ _ _ _ (h.closed start hmem hstart)]

/-- Graphs without errors that agree from their start on have the same outcome. -/
theorem compile_eq (h : AgreeOn P g g') (hfree : g.IsErrorFree) (hfree' : g'.IsErrorFree)
    {start : Node} (hstart : g.ofKind .start = [start]) (hstart' : g'.ofKind .start = [start])
    (hP : P start.id) (c : Compiler) (resolver : Resolver) :
    c.compile g' resolver = c.compile g resolver := by
  have hfree : hasErrors g.findings = false := hfree
  have hfree' : hasErrors g'.findings = false := hfree'
  have hmem : start ∈ g.nodes := mem_nodes_of_ofKind hstart
  simp only [Compiler.compile, Compiler.compileWithin, Compiler.scriptFrom, hfree, hfree', hstart,
    hstart', List.head?_cons, h.visit_eq _ hmem hP, Bool.false_eq_true, if_false]

end AgreeOn

theorem IsErrorFree.target_mem_reach (hfree : g.IsErrorFree) {start : NodeId} {e : Edge}
    (he : e ∈ g.edges) (hsource : e.source ∈ g.reach start) : e.target ∈ g.reach start :=
  mem_reach_iff.mpr ((mem_reach_iff.mp hsource).tail
    ⟨⟨e, he, rfl, rfl⟩, (hfree.hasNode_of_mem he).2⟩)

theorem isErrorFree_iff_wellFormed (hids : (g.nodes.map Node.id).Nodup) :
    g.IsErrorFree ↔ g.WellFormed := by
  rw [isErrorFree_iff_filter, (reports_errors hids).eq_nil_iff]
  exact ⟨wellFormed_of_not_breaks, fun h v => h.not_breaks hids v⟩

section

variable {start : Node} (hstart : g.ofKind .start = [start])

include hstart

theorem not_mem_flagged_of_mem_reach {id : NodeId} (hid : id ∈ g.reach start.id) :
    id ∉ g.flagged .unreachable :=
  fun hdead => ((mem_flagged_iff hstart).mp hdead).2 hid

theorem hasNode_of_mem_reach {id : NodeId} (hid : id ∈ g.reach start.id) :
    g.hasNode id = true := by
  rcases Relation.ReflTransGen.cases_tail (mem_reach_iff.mp hid) with rfl | hlast
  · exact List.any_eq_true.mpr ⟨start, mem_nodes_of_ofKind hstart, by simp⟩
  · obtain ⟨before, -, hleads⟩ := hlast
    exact hleads.2

theorem mem_reach_of_not_mem_flagged {node : Node} (hnode : node ∈ g.nodes)
    (hid : node.id ∉ g.flagged .unreachable) : node.id ∈ g.reach start.id := by
  by_contra hdead
  exact hid ((mem_flagged_iff hstart).mpr ⟨List.any_eq_true.mpr ⟨node, hnode, by simp⟩, hdead⟩)

/-- The edges out of an id that can be reached lead to no flagged node. -/
theorem mem_edges_without_flagged (hfree : g.IsErrorFree) {e : Edge} (he : e ∈ g.edges)
    (hsource : e.source ∈ g.reach start.id) :
    e.target ∈ g.reach start.id ∧ e ∈ (g.without (g.flagged .unreachable)).edges := by
  have htarget : e.target ∈ g.reach start.id := hfree.target_mem_reach he hsource
  refine ⟨htarget, List.mem_filter.mpr ⟨he, ?_⟩⟩
  simp [not_mem_flagged_of_mem_reach hstart hsource, not_mem_flagged_of_mem_reach hstart htarget]

/-- From what can be reached no walk comes to a flagged node. -/
theorem agreeOn_without_flagged (hfree : g.IsErrorFree) :
    AgreeOn (· ∈ g.reach start.id) g (g.without (g.flagged .unreachable)) where
  node?_eq id hid := by
    simp only [node?, without, List.find?_filter]
    refine congrArg (List.find? · g.nodes) (funext fun n => Bool.eq_iff_iff.mpr ?_)
    have hlive := not_mem_flagged_of_mem_reach hstart hid
    simp only [decide_eq_true_eq]
    exact ⟨fun h => h.2, fun h => ⟨h ▸ hlive, h⟩⟩
  liveEdges_eq node _ hnode := by
    have hout : (g.without (g.flagged .unreachable)).outgoing node.id = g.outgoing node.id := by
      simp only [outgoing, without, List.filter_filter]
      refine List.filter_congr fun e he => Bool.eq_iff_iff.mpr ?_
      simp only [decide_eq_true_eq, Bool.and_eq_true]
      refine ⟨fun h => h.1, fun h => ⟨h, ?_⟩⟩
      obtain ⟨-, hkept⟩ := mem_edges_without_flagged hstart hfree he (h ▸ hnode)
      simpa using (List.mem_filter.mp hkept).2
    simp only [liveEdges, hout]
  closed node _ hnode e he := by
    obtain ⟨he, hsource⟩ := List.mem_filter.mp (g.mem_outgoing_of_mem_liveEdges he)
    exact (mem_edges_without_flagged hstart hfree he (of_decide_eq_true hsource ▸ hnode)).1

/-- Taking the flagged nodes out breaks no rule as long as an end is left. -/
theorem wellFormed_without_flagged (hids : (g.nodes.map Node.id).Nodup) (hfree : g.IsErrorFree)
    (hwell : g.WellFormed)
    (hend : ∃ n ∈ g.nodes, n.kind = .finish ∧ n.id ∉ g.flagged .unreachable) :
    (g.without (g.flagged .unreachable)).WellFormed := by
  have hnodes : ∀ n, n ∈ (g.without (g.flagged .unreachable)).nodes ↔
      n ∈ g.nodes ∧ n.id ∉ g.flagged .unreachable := by simp [without]
  have hedges : ∀ e ∈ (g.without (g.flagged .unreachable)).edges, e ∈ g.edges ∧
      e.source ∉ g.flagged .unreachable ∧ e.target ∉ g.flagged .unreachable := by
    simp [without]
  have hout : ∀ n ∈ (g.without (g.flagged .unreachable)).nodes, ∀ e ∈ g.edges,
      e.source = n.id → e ∈ (g.without (g.flagged .unreachable)).edges := by
    intro n hn e he hsource
    obtain ⟨hn, hid⟩ := (hnodes n).mp hn
    have hreached := mem_reach_of_not_mem_flagged hstart hn hid
    exact (mem_edges_without_flagged hstart hfree he (hsource ▸ hreached)).2
  constructor
  case one_start =>
    obtain ⟨first, ⟨hfirst, hkind⟩, hunique⟩ := hwell.one_start
    have hstarts : first ∈ g.ofKind .start := List.mem_filter.mpr ⟨hfirst, by simpa using hkind⟩
    rw [hstart] at hstarts
    have hreached : first.id ∈ g.reach start.id := by
      rw [List.mem_singleton.mp hstarts]
      exact mem_reach_iff.mpr .refl
    refine ⟨first, ⟨(hnodes first).mpr
      ⟨hfirst, not_mem_flagged_of_mem_reach hstart hreached⟩, hkind⟩, fun n hn => ?_⟩
    exact hunique n ⟨((hnodes n).mp hn.1).1, hn.2⟩
  case some_end =>
    obtain ⟨n, hn, hkind, hid⟩ := hend
    exact ⟨n, (hnodes n).mpr ⟨hn, hid⟩, hkind⟩
  case ends_exist =>
    intro e he
    obtain ⟨he, hsource, htarget⟩ := hedges e he
    obtain ⟨⟨n, hn, hnid⟩, m, hm, hmid⟩ := hwell.ends_exist e he
    exact ⟨⟨n, (hnodes n).mpr ⟨hn, hnid ▸ hsource⟩, hnid⟩,
      m, (hnodes m).mpr ⟨hm, hmid ▸ htarget⟩, hmid⟩
  case none_into_start =>
    exact fun e he n hn => hwell.none_into_start e (hedges e he).1 n ((hnodes n).mp hn).1
  case none_out_of_end =>
    exact fun e he n hn => hwell.none_out_of_end e (hedges e he).1 n ((hnodes n).mp hn).1
  case connected =>
    intro n hn hkind hfinish
    obtain ⟨hmem, hid⟩ := (hnodes n).mp hn
    obtain ⟨-, e, he, hsource⟩ := hwell.connected n hmem hkind hfinish
    refine ⟨?_, e, hout n hn e he hsource, hsource⟩
    -- The last step to a node that is not the start comes from a node that can be reached.
    have hreached := mem_reach_of_not_mem_flagged hstart hmem hid
    rcases Relation.ReflTransGen.cases_tail (mem_reach_iff.mp hreached) with heq | hlast
    · have hfirst : start ∈ g.ofKind .start := by simp [hstart]
      obtain ⟨hfirst, hstartkind⟩ := List.mem_filter.mp hfirst
      obtain rfl : n = start := List.inj_on_of_nodup_map hids hmem hfirst heq
      exact absurd (of_decide_eq_true hstartkind) hkind
    · obtain ⟨before, hbefore, ⟨d, hd, hdsource, hdtarget⟩, -⟩ := hlast
      refine ⟨d, (mem_edges_without_flagged hstart hfree hd ?_).2, hdtarget⟩
      exact hdsource ▸ mem_reach_iff.mpr hbefore
  case ports_fit =>
    exact fun e he n hn => hwell.ports_fit e (hedges e he).1 n ((hnodes n).mp hn).1
  case condition_branches =>
    intro n hn hkind
    obtain ⟨⟨e, he, hsource, hport⟩, d, hd, hdsource, hdport⟩ :=
      hwell.condition_branches n ((hnodes n).mp hn).1 hkind
    exact ⟨⟨e, hout n hn e he hsource, hsource, hport⟩, d, hout n hn d hd hdsource, hdsource,
      hdport⟩
  case loop_branches =>
    intro n hn hkind
    obtain ⟨⟨e, he, hsource, hport⟩, d, hd, hdsource, hdport⟩ :=
      hwell.loop_branches n ((hnodes n).mp hn).1 hkind
    exact ⟨⟨e, hout n hn e he hsource, hsource, hport⟩, d, hout n hn d hd hdsource, hdsource,
      hdport⟩

theorem nodup_flagged (hids : (g.nodes.map Node.id).Nodup) : (g.flagged .unreachable).Nodup := by
  rw [flagged_unreachable hstart]
  exact hids.sublist (List.filter_sublist.map _)

theorem ofKind_start_without_flagged :
    (g.without (g.flagged .unreachable)).ofKind .start = [start] := by
  have hlive := not_mem_flagged_of_mem_reach hstart (mem_reach_iff.mpr .refl)
  have hcomm : (g.without (g.flagged .unreachable)).ofKind .start =
      (g.ofKind .start).filter fun n => n.id ∉ g.flagged .unreachable := List.filter_comm _ _ _
  rw [hcomm, hstart, List.filter_eq_self.mpr (by simpa using hlive)]

theorem isErrorFree_without_flagged (hids : (g.nodes.map Node.id).Nodup) (hfree : g.IsErrorFree)
    (hend : ∃ n ∈ g.nodes, n.kind = .finish ∧ n.id ∉ g.flagged .unreachable) :
    (g.without (g.flagged .unreachable)).IsErrorFree := by
  have hkept : ((g.without (g.flagged .unreachable)).nodes.map Node.id).Nodup :=
    hids.sublist (List.filter_sublist.map _)
  rw [isErrorFree_iff_wellFormed hkept]
  exact wellFormed_without_flagged hstart hids hfree ((isErrorFree_iff_wellFormed hids).mp hfree)
    hend

end

end Graph

namespace Compiler

/-- The steps of a script are of the nodes at the ends of simple live paths. -/
theorem mem_emitted_iff {c : Compiler} {g : Graph} {resolver : Resolver} {script : Script}
    (hids : (g.nodes.map Node.id).Nodup) (h : c.compile g resolver = .ok script) {start : Node}
    (hstart : g.ofKind .start = [start]) {id : NodeId} :
    id ∈ script.steps.map ScriptStep.node ↔
      ∃ path, g.IsSimpleLivePath start.id path ∧ ending start.id path = id := by
  obtain ⟨hfree, first, exits, hfirst, htree, rfl⟩ := exists_tree_of_compile h
  obtain rfl : first = start := by simpa [hfirst] using hstart
  have hmem : first ∈ g.nodes := Graph.mem_nodes_of_ofKind hstart
  obtain ⟨placed, hplaced, hsorted, hlive⟩ := Graph.exists_placed_liveEdges hfree hids hmem
  obtain ⟨paths, hlists, hsteps⟩ := Graph.exists_paths_of_unfolds hfree hids
    (Node.ownText c.table resolver c.options.redactSecrets) c.options.indent htree hmem placed
    hplaced hsorted (fun a ha => (hlive a).mp ha) 0
  have hnodes : (c.scriptOf resolver (.mk first exits)).steps.map ScriptStep.node =
      ([] :: paths).map (ending first.id) := by
    have hfst := congrArg (List.map Prod.fst) hsteps
    simp only [List.map_map] at hfst
    exact congrArg (first.id :: ·) hfst
  simp only [hnodes, List.mem_map, (hlists.enumeratesPaths hlive).mem_iff]

/-- No node that is flagged as unreachable has a step, and where no port is used twice every other
node has one. The flagged nodes are dead: as long as an end is left, taking them out in any order
gives a graph without errors and the same script. -/
theorem unreachable_nodes_are_dead {c : Compiler} {g : Graph} {resolver : Resolver}
    {script : Script} (hids : (g.nodes.map Node.id).Nodup)
    (h : c.compile g resolver = .ok script) :
    let emitted := script.steps.map ScriptStep.node
    let dead := g.flagged .unreachable
    (∀ id ∈ dead, id ∉ emitted) ∧
      ((∀ f ∈ g.findings, f.topic ≠ .duplicatePort) →
        ∀ id, id ∈ emitted ↔ g.hasNode id = true ∧ id ∉ dead) ∧
      ((∃ n ∈ g.nodes, n.kind = .finish ∧ n.id ∉ dead) → ∀ ids : List NodeId, ids.Perm dead →
        ids.foldlM Graph.removeNode g = .ok (g.without dead) ∧
          hasErrors (g.without dead).findings = false ∧
          c.compile (g.without dead) resolver = .ok script) := by
  intro emitted dead
  obtain ⟨hfree, start, -, hstart, -⟩ := exists_tree_of_compile h
  have hemitted : ∀ id, id ∈ emitted ↔ ∃ path, g.IsSimpleLivePath start.id path ∧
      ending start.id path = id := fun id => mem_emitted_iff hids h hstart
  have hreached : ∀ id ∈ emitted, id ∈ g.reach start.id := by
    intro id hid
    obtain ⟨path, hpath, rfl⟩ := (hemitted id).mp hid
    exact Graph.mem_reach_iff.mpr (hpath.reflTransGen hfree)
  refine ⟨fun id hdead hid => ?_, fun hports id => ⟨fun hid => ?_, fun hid => ?_⟩,
    fun hend ids hperm => ?_⟩
  · exact Graph.not_mem_flagged_of_mem_reach hstart (hreached id hid) hdead
  · have hmem := hreached id hid
    exact ⟨Graph.hasNode_of_mem_reach hstart hmem, Graph.not_mem_flagged_of_mem_reach hstart hmem⟩
  · obtain ⟨node, hnode, rfl⟩ := Graph.exists_node_of_hasNode hid.1
    have hmem := Graph.mem_reach_of_not_mem_flagged hstart hnode hid.2
    have hnone : g.duplicateFindings = [] := (Graph.topic_not_found_iff rfl).mp hports
    obtain ⟨path, hpath, hending⟩ := Graph.exists_isSimpleLivePath
      (fun a => Graph.isLive_of_duplicateFindings_eq_nil hfree hids hnone)
      (Graph.mem_reach_iff.mp hmem)
    exact (hemitted node.id).mpr ⟨path, hpath, hending⟩
  · have hpruned := Graph.isErrorFree_without_flagged hstart hids hfree hend
    have hnodes : ∀ id ∈ ids, g.hasNode id = true := fun id hid =>
      ((Graph.mem_flagged_iff hstart).mp (hperm.mem_iff.mp hid)).1
    have hsame : c.compile (g.without dead) resolver = c.compile g resolver :=
      (Graph.agreeOn_without_flagged hstart hfree).compile_eq hfree hpruned hstart
        (Graph.ofKind_start_without_flagged hstart) (Graph.mem_reach_iff.mpr .refl) c resolver
    refine ⟨?_, hpruned, hsame.trans h⟩
    rw [Graph.foldlM_removeNode (hperm.nodup_iff.mpr (Graph.nodup_flagged hstart hids)) hnodes,
      g.without_congr fun id => hperm.mem_iff]

end Compiler

/-- A choice with two steps beside it that only lead to one another and to the end. -/
def Graph.stranded : Graph where
  nodes := [
    .ofStep "begin" .start .origin, .ofStep "lost" (.task {}) .origin,
    .ofStep "choice" (.condition { expression := "ok" }) .origin,
    .ofStep "adrift" (.task {}) .origin, .ofStep "done" .finish .origin]
  edges := [
    ⟨"e1", "begin", "choice", none⟩, ⟨"e2", "lost", "adrift", none⟩,
    ⟨"e3", "choice", "done", some .whenTrue⟩, ⟨"e4", "choice", "done", some .whenFalse⟩,
    ⟨"e5", "adrift", "lost", none⟩, ⟨"e6", "adrift", "done", none⟩]

theorem Compiler.exists_compile_stranded : ∃ bytes script,
    (⟨.standard, { maxBytes := bytes }⟩ : Compiler).compile .stranded ({} : Inventory).resolver =
      .ok script := by
  have hfree : Graph.stranded.IsErrorFree := Graph.isErrorFree_iff.mpr (by decide +kernel)
  have hvisit : ∃ visit, ∀ bytes, Graph.stranded.visit ⟨some 10000, some 64, some bytes⟩
      (.ofStep "begin" .start .origin) = .ok visit := by
    refine ⟨?_, fun bytes => ?_⟩
    rotate_left
    cbv
    rfl
  obtain ⟨visit, hvisit⟩ := hvisit
  exact exists_compile_of_visit .standard false _ hfree rfl hvisit

theorem Graph.flagged_stranded : stranded.flagged .unreachable = ["lost", "adrift"] := by
  have hreach : stranded.reach "begin" = ["begin", "choice", "done"] := by cbv
  rw [flagged_unreachable (g := stranded) rfl]
  show List.map _ (List.filter (fun n : Node => decide (_ ∧ n.id ∉ stranded.reach "begin")) _) = _
  rw [hreach]
  decide +kernel

/-- The two steps can be taken out in either order, and the rest has a step for each node. -/
theorem Compiler.unreachable_nodes_are_dead_stranded : ∃ bytes script,
    let c : Compiler := ⟨.standard, { maxBytes := bytes }⟩
    let resolver := ({} : Inventory).resolver
    let emitted := script.steps.map ScriptStep.node
    (Graph.stranded.nodes.map Node.id).Nodup ∧ c.compile .stranded resolver = .ok script ∧
      "lost" ∉ emitted ∧ "adrift" ∉ emitted ∧
      (∀ id ∈ ["begin", "choice", "done"], id ∈ emitted) ∧
      ∀ ids ∈ [["lost", "adrift"], ["adrift", "lost"]], ∃ rest,
        ids.foldlM Graph.removeNode .stranded = .ok rest ∧
          rest.nodes.map Node.id = ["begin", "choice", "done"] ∧
          hasErrors rest.findings = false ∧ c.compile rest resolver = .ok script := by
  obtain ⟨bytes, script, h⟩ := exists_compile_stranded
  have hids : (Graph.stranded.nodes.map Node.id).Nodup := by decide
  have hports : ∀ f ∈ Graph.stranded.findings, f.topic ≠ .duplicatePort :=
    (Graph.topic_not_found_iff rfl).mpr (by decide +kernel)
  have hend : ∃ n ∈ Graph.stranded.nodes,
      n.kind = .finish ∧ n.id ∉ Graph.stranded.flagged .unreachable := by
    rw [Graph.flagged_stranded]
    decide
  obtain ⟨hdead, hlive, hpruned⟩ := unreachable_nodes_are_dead hids h
  have hlive := hlive hports
  have hpruned := hpruned hend
  rw [Graph.flagged_stranded] at hdead hlive hpruned
  refine ⟨bytes, script, hids, h, hdead _ (by simp), hdead _ (by simp), fun id hid => ?_,
    fun ids hperm => ?_⟩
  · refine (hlive id).mpr ?_
    revert id
    decide
  · have hperm : ids.Perm ["lost", "adrift"] := by
      revert ids
      decide
    obtain ⟨hremoved, hfree, hsame⟩ := hpruned ids hperm
    exact ⟨_, hremoved, by decide, hfree, hsame⟩

end Runbook
