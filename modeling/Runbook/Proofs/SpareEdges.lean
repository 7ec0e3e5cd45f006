import Mathlib.Data.List.Nodup
import Mathlib.Tactic.Common
import Runbook.Proofs.DeadNodes

/-!
Edges on ports that are used twice. Of the edges on one port of a branching node the first is
followed and the others are spare: the walk never looks at them, and they are exactly the ones that
findings about repeated ports name. Without them no port is used twice and every node is left along
the same edges as before, so whatever is compiled stays the same. The one rule that a graph can
break without them is that an edge leads to every node, at the nodes to which the spare edges led.
-/
namespace Runbook

namespace Graph

/-- The edges that name no port which an earlier one or one of `seen` names. -/
def firstOnPorts (seen : List Port) : List Edge → List Edge
  | [] => []
  | e :: rest =>
    match e.port with
    | none => e :: firstOnPorts seen rest
    | some port =>
      if port ∈ seen then firstOnPorts seen rest else e :: firstOnPorts (port :: seen) rest

theorem repeatedPorts_firstOnPorts (seen : List Port) (edges : List Edge) :
    repeatedPorts seen (firstOnPorts seen edges) = [] := by
  induction edges generalizing seen with
  | nil => rfl
  | cons e rest ih =>
    rw [firstOnPorts]
    cases hport : e.port with
    | none => simpa [repeatedPorts, hport] using ih seen
    | some port =>
      by_cases hseen : port ∈ seen
      · simpa [hseen] using ih seen
      · simpa [repeatedPorts, hport, hseen] using ih (port :: seen)

/-- The first edge on a port stands first among the first ones on their ports. -/
theorem find?_firstOnPorts {seen : List Port} {port : Port} (hport : port ∉ seen)
    (edges : List Edge) :
    (firstOnPorts seen edges).find? (fun e => e.port = some port) =
      edges.find? fun e => e.port = some port := by
  induction edges generalizing seen with
  | nil => rfl
  | cons e rest ih =>
    rw [firstOnPorts]
    cases hname : e.port with
    | none => simpa [List.find?_cons, hname] using ih hport
    | some other =>
      by_cases hother : other = port
      · simp [hname, hother, hport]
      · by_cases hseen : other ∈ seen
        · simpa [List.find?_cons, hname, hother, hseen] using ih hport
        · have hfresh : port ∉ other :: seen := by
            simpa [Ne.symm hother] using hport
          simpa [List.find?_cons, hname, hother, hseen] using ih hfresh

theorem firstOnPorts_ne_nil {edges : List Edge} (h : edges ≠ []) : firstOnPorts [] edges ≠ [] := by
  obtain ⟨e, rest, rfl⟩ := List.exists_cons_of_ne_nil h
  rw [firstOnPorts]
  cases e.port <;> simp

theorem repeatedPorts_sublist (seen : List Port) (edges : List Edge) :
    ((repeatedPorts seen edges).map Prod.fst).Sublist edges := by
  induction edges generalizing seen with
  | nil => exact List.Sublist.refl _
  | cons e rest ih =>
    rw [repeatedPorts]
    cases e.port with
    | none => exact (ih seen).cons e
    | some port =>
      by_cases hseen : port ∈ seen
      · simpa [hseen] using ih seen
      · simpa [hseen] using (ih (port :: seen)).cons e

/-- Among distinct edges those that repeat no port are the first ones on their ports. -/
theorem filter_not_mem_repeatedPorts {edges : List Edge} (hedges : edges.Nodup)
    (seen : List Port) :
    edges.filter (fun e => e ∉ (repeatedPorts seen edges).map Prod.fst) =
      firstOnPorts seen edges := by
  induction edges generalizing seen with
  | nil => rfl
  | cons e rest ih =>
    obtain ⟨he, hrest⟩ := List.nodup_cons.mp hedges
    have hkept : ∀ seen : List Port, e ∉ (repeatedPorts seen rest).map Prod.fst := fun seen hmem =>
      he ((repeatedPorts_sublist seen rest).subset hmem)
    rw [firstOnPorts, repeatedPorts]
    cases e.port with
    | none =>
      rw [List.filter_cons_of_pos (by simpa using hkept seen), ih hrest]
    | some port =>
      by_cases hseen : port ∈ seen
      · simp only [hseen, if_true, List.map_cons]
        rw [List.filter_cons_of_neg (by simp), ← ih hrest seen]
        refine List.filter_congr fun d hd => ?_
        have hne : d ≠ e := fun heq => he (heq ▸ hd)
        simp [hne]
      · simp only [hseen, if_false]
        rw [List.filter_cons_of_pos (by simpa using hkept (port :: seen)), ih hrest]

def flaggedEdges (g : Graph) (topic : Topic) : List EdgeId :=
  (g.findings.filter fun f => f.topic = topic).filterMap Finding.edge

def withoutEdges (g : Graph) (ids : List EdgeId) : Graph :=
  ⟨g.nodes, g.edges.filter fun e => e.id ∉ ids⟩

variable {g : Graph}

/-- Taking edges out one after another leaves the graph without them. -/
theorem foldlM_removeEdge {ids : List EdgeId} (hnodup : ids.Nodup)
    (hmem : ∀ id ∈ ids, g.hasEdge id = true) :
    ids.foldlM removeEdge g = .ok (g.withoutEdges ids) := by
  refine foldlM_eq_ok_without (P := fun g id => g.hasEdge id = true) (fun g id hid => ?_)
    (fun g id other hother hne => ?_) (fun g => ?_) (fun g id rest => ?_) hnodup hmem
  · simp [removeEdge, hid, withoutEdges]
  · obtain ⟨e, he, hid⟩ := List.any_eq_true.mp hother
    obtain rfl : e.id = other := of_decide_eq_true hid
    exact List.any_eq_true.mpr ⟨e, List.mem_filter.mpr ⟨he, by simpa using hne⟩, by simp⟩
  · simp [withoutEdges]
  · simp only [withoutEdges, List.filter_filter, mk.injEq, true_and]
    refine List.filter_congr fun e _ => Bool.eq_iff_iff.mpr ?_
    simp [and_comm]

theorem flaggedEdges_duplicatePort (g : Graph) :
    g.flaggedEdges .duplicatePort = (g.nodes.filter fun n => n.kind.isBranching).flatMap fun n =>
      ((repeatedPorts [] (g.outgoing n.id)).map Prod.fst).map Edge.id := by
  have hfound : (g.findings.filter fun f => f.topic = .duplicatePort) = g.duplicateFindings :=
    filter_topic_findings rfl
  rw [flaggedEdges, hfound, duplicateFindings, List.filterMap_flatMap]
  refine List.flatMap_congr fun n _ => ?_
  simp [List.filterMap_map, Function.comp_def]

theorem mem_outgoing {e : Edge} {id : NodeId} :
    e ∈ g.outgoing id ↔ e ∈ g.edges ∧ e.source = id := by
  simp [outgoing]

section

variable (hids : (g.nodes.map Node.id).Nodup) (hedgeIds : (g.edges.map Edge.id).Nodup)

include hedgeIds

theorem nodup_outgoing (id : NodeId) : (g.outgoing id).Nodup :=
  (List.Nodup.of_map _ hedgeIds).filter _

/-- An edge is flagged if it repeats a port of the branching node that it leaves. -/
theorem mem_flaggedEdges_iff {e : Edge} (he : e ∈ g.edges) :
    e.id ∈ g.flaggedEdges .duplicatePort ↔ ∃ n ∈ g.nodes, n.kind.isBranching = true ∧
      e ∈ (repeatedPorts [] (g.outgoing n.id)).map Prod.fst := by
  have hsame : ∀ n : Node, e.id ∈ ((repeatedPorts [] (g.outgoing n.id)).map Prod.fst).map Edge.id ↔
      e ∈ (repeatedPorts [] (g.outgoing n.id)).map Prod.fst := by
    intro n
    refine ⟨fun hid => ?_, List.mem_map_of_mem⟩
    obtain ⟨d, hd, hid⟩ := List.mem_map.mp hid
    have hedge : d ∈ g.edges := (mem_outgoing.mp ((repeatedPorts_sublist _ _).subset hd)).1
    rwa [← List.inj_on_of_nodup_map hedgeIds hedge he hid]
  simp only [flaggedEdges_duplicatePort, List.mem_flatMap, hsame, List.mem_filter, and_assoc]

include hids

theorem nodup_flaggedEdges : (g.flaggedEdges .duplicatePort).Nodup := by
  have hpart : ∀ n : Node, (((repeatedPorts [] (g.outgoing n.id)).map Prod.fst).map
      Edge.id).Sublist ((g.outgoing n.id).map Edge.id) := fun n =>
    (repeatedPorts_sublist _ _).map Edge.id
  rw [flaggedEdges_duplicatePort, List.nodup_flatMap]
  refine ⟨fun n _ => ?_, ?_⟩
  · exact ((hedgeIds.sublist (List.filter_sublist.map _)).sublist (hpart n))
  · have hapart : g.nodes.Pairwise fun n m => n.id ≠ m.id := List.pairwise_map.mp hids
    refine (hapart.filter _).imp fun {n m} hne => ?_
    intro id hn hm
    obtain ⟨e, he, rfl⟩ := List.mem_map.mp ((hpart n).subset hn)
    obtain ⟨d, hd, hid⟩ := List.mem_map.mp ((hpart m).subset hm)
    obtain ⟨he, hsource⟩ := mem_outgoing.mp he
    obtain ⟨hd, hother⟩ := mem_outgoing.mp hd
    obtain rfl := List.inj_on_of_nodup_map hedgeIds hd he hid
    exact hne (hsource.symm.trans hother)

/-- What is left of the edges out of a node. -/
theorem outgoing_withoutEdges_flagged {n : Node} (hn : n ∈ g.nodes) :
    (g.withoutEdges (g.flaggedEdges .duplicatePort)).outgoing n.id =
      if n.kind.isBranching then firstOnPorts [] (g.outgoing n.id) else g.outgoing n.id := by
  have hswap : (g.withoutEdges (g.flaggedEdges .duplicatePort)).outgoing n.id =
      (g.outgoing n.id).filter fun e => e.id ∉ g.flaggedEdges .duplicatePort :=
    List.filter_comm _ _ _
  -- an edge out of the node repeats a port of no other node
  have hflagged : ∀ e ∈ g.outgoing n.id, e.id ∈ g.flaggedEdges .duplicatePort ↔
      n.kind.isBranching = true ∧ e ∈ (repeatedPorts [] (g.outgoing n.id)).map Prod.fst := by
    intro e he
    obtain ⟨hedge, hsource⟩ := mem_outgoing.mp he
    rw [mem_flaggedEdges_iff hedgeIds hedge]
    constructor
    · rintro ⟨m, hm, hbranching, hrepeats⟩
      have hother := (mem_outgoing.mp ((repeatedPorts_sublist _ _).subset hrepeats)).2
      obtain rfl := List.inj_on_of_nodup_map hids hm hn (hother.symm.trans hsource)
      exact ⟨hbranching, hrepeats⟩
    · rintro ⟨hbranching, hrepeats⟩
      exact ⟨n, hn, hbranching, hrepeats⟩
  rw [hswap]
  split
  · rename_i hbranching
    rw [← filter_not_mem_repeatedPorts (nodup_outgoing hedgeIds n.id)]
    refine List.filter_congr fun e he => ?_
    simp only [hflagged e he, hbranching, true_and]
  · rename_i hplain
    refine List.filter_eq_self.mpr fun e he => ?_
    simp only [hflagged e he, hplain, Bool.false_eq_true, false_and, not_false_eq_true,
      decide_true]

theorem find?_withoutEdges_flagged {n : Node} (hn : n ∈ g.nodes) (port : Port) :
    ((g.withoutEdges (g.flaggedEdges .duplicatePort)).outgoing n.id).find?
        (fun e => e.port = some port) =
      (g.outgoing n.id).find? fun e => e.port = some port := by
  rw [outgoing_withoutEdges_flagged hids hedgeIds hn]
  split
  · exact find?_firstOnPorts List.not_mem_nil _
  · rfl

theorem liveEdges_withoutEdges_flagged {n : Node} (hn : n ∈ g.nodes) :
    (g.withoutEdges (g.flaggedEdges .duplicatePort)).liveEdges n = g.liveEdges n := by
  unfold liveEdges
  split
  · simp only [find?_withoutEdges_flagged hids hedgeIds hn]
  · rename_i hplain
    rw [outgoing_withoutEdges_flagged hids hedgeIds hn, if_neg hplain]

theorem duplicateFindings_withoutEdges_flagged :
    (g.withoutEdges (g.flaggedEdges .duplicatePort)).duplicateFindings = [] := by
  refine List.flatMap_eq_nil_iff.mpr fun n hn => ?_
  obtain ⟨hn, hbranching⟩ := List.mem_filter.mp hn
  rw [outgoing_withoutEdges_flagged hids hedgeIds hn, if_pos hbranching,
    repeatedPorts_firstOnPorts, List.map_nil]

/-- Without the flagged edges every node is still left that was left before. -/
theorem exists_source_withoutEdges_flagged {n : Node} (hn : n ∈ g.nodes)
    (h : ∃ e ∈ g.edges, e.source = n.id) :
    ∃ e ∈ (g.withoutEdges (g.flaggedEdges .duplicatePort)).edges, e.source = n.id := by
  obtain ⟨e, he, hsource⟩ := h
  have hsome : g.outgoing n.id ≠ [] := List.ne_nil_of_mem (mem_outgoing.mpr ⟨he, hsource⟩)
  have hleft : (g.withoutEdges (g.flaggedEdges .duplicatePort)).outgoing n.id ≠ [] := by
    rw [outgoing_withoutEdges_flagged hids hedgeIds hn]
    split
    · exact firstOnPorts_ne_nil hsome
    · exact hsome
  obtain ⟨d, hd⟩ := List.exists_mem_of_ne_nil _ hleft
  exact ⟨d, mem_outgoing.mp hd⟩

/-- Without the flagged edges every port is still used that was used before. -/
theorem exists_port_withoutEdges_flagged {n : Node} (hn : n ∈ g.nodes) {port : Port}
    (h : ∃ e ∈ g.edges, e.source = n.id ∧ e.port = some port) :
    ∃ e ∈ (g.withoutEdges (g.flaggedEdges .duplicatePort)).edges,
      e.source = n.id ∧ e.port = some port := by
  obtain ⟨e, he, hsource, hport⟩ := h
  have hfound : ((g.outgoing n.id).find? fun e => e.port = some port).isSome = true :=
    List.find?_isSome.mpr ⟨e, mem_outgoing.mpr ⟨he, hsource⟩, by simpa using hport⟩
  rw [← find?_withoutEdges_flagged hids hedgeIds hn] at hfound
  obtain ⟨d, hd, hname⟩ := List.find?_isSome.mp hfound
  obtain ⟨hd, hleaves⟩ := mem_outgoing.mp hd
  exact ⟨d, hd, hleaves, by simpa using hname⟩

/-- The only rule that is broken without the flagged edges is that an edge leads to every node. -/
theorem noIncoming_of_breaks (hwell : g.WellFormed) {v : Violation}
    (hv : (g.withoutEdges (g.flaggedEdges .duplicatePort)).Breaks v) :
    ∃ n, v = .noIncoming n ∧
      ∃ e ∈ g.edges, e.id ∈ g.flaggedEdges .duplicatePort ∧ e.target = n.id := by
  have hedges : ∀ {e : Edge} {place : Nat},
      (g.withoutEdges (g.flaggedEdges .duplicatePort)).edges[place]? = some e → e ∈ g.edges :=
    fun h => List.mem_of_mem_filter (List.mem_of_getElem? h)
  cases v with
  | missingStart =>
    obtain ⟨n, ⟨hn, hkind⟩, -⟩ := hwell.one_start
    exact absurd hkind (hv n hn)
  | missingEnd =>
    obtain ⟨n, hn, hkind⟩ := hwell.some_end
    exact absurd hkind (hv n hn)
  | extraStart n => exact absurd hv (hwell.not_breaks hids (.extraStart n))
  | edgeIntoStart e place =>
    obtain ⟨he, n, hn, hid, hkind⟩ := hv
    exact absurd hkind (hwell.none_into_start e (hedges he) n hn hid)
  | edgeOutOfEnd e place =>
    obtain ⟨he, n, hn, hid, hkind⟩ := hv
    exact absurd hkind (hwell.none_out_of_end e (hedges he) n hn hid)
  | noIncoming n =>
    obtain ⟨hn, hstart, hfinish, hnone⟩ := hv
    obtain ⟨⟨e, he, htarget⟩, -⟩ := hwell.connected n hn hstart hfinish
    refine ⟨n, rfl, e, he, ?_, htarget⟩
    by_contra hkept
    exact hnone e (List.mem_filter.mpr ⟨he, by simpa using hkept⟩) htarget
  | noOutgoing n =>
    obtain ⟨hn, hstart, hfinish, hnone⟩ := hv
    obtain ⟨-, hleft⟩ := hwell.connected n hn hstart hfinish
    obtain ⟨e, he, hsource⟩ := exists_source_withoutEdges_flagged hids hedgeIds hn hleft
    exact absurd hsource (hnone e he)
  | missingBranch n port =>
    obtain ⟨hn, hkind, hnone⟩ := hv
    have hwired : ∃ e ∈ g.edges, e.source = n.id ∧ e.port = some port := by
      rcases hkind with ⟨hkind, rfl | rfl⟩ | ⟨hkind, rfl | rfl⟩
      · exact (hwell.condition_branches n hn hkind).1
      · exact (hwell.condition_branches n hn hkind).2
      · exact (hwell.loop_branches n hn hkind).1
      · exact (hwell.loop_branches n hn hkind).2
    obtain ⟨e, he, hsource, hport⟩ := exists_port_withoutEdges_flagged hids hedgeIds hn hwired
    exact absurd hport (hnone e he hsource)
  | dangling e place side =>
    obtain ⟨he, hnone⟩ := hv
    obtain ⟨⟨n, hn, hsource⟩, m, hm, htarget⟩ := hwell.ends_exist e (hedges he)
    cases side with
    | source => exact absurd hsource (hnone n hn)
    | target => exact absurd htarget (hnone m hm)
  | illegalPort e place source =>
    obtain ⟨he, hsource, hid, hbad⟩ := hv
    exact absurd (hwell.ports_fit e (hedges he) source hsource hid) hbad

end

end Graph

/-- Only the first edge on a port is compiled. The edges that findings about repeated ports name
can be taken out in any order, which leaves no port that is used twice. If the graph has no errors
then, it compiles to the same script or breaks the same limit, and the only errors that it can have
are about nodes to which spare edges led. -/
theorem Compiler.spare_edges_change_nothing {g : Graph} (hids : (g.nodes.map Node.id).Nodup)
    (hedgeIds : (g.edges.map Edge.id).Nodup) (hfree : hasErrors g.findings = false) :
    let spare := g.flaggedEdges .duplicatePort
    let g' := g.withoutEdges spare
    (∀ ids : List EdgeId, ids.Perm spare → ids.foldlM Graph.removeEdge g = .ok g') ∧
      (∀ f ∈ g'.findings, f.topic ≠ .duplicatePort) ∧
      (hasErrors g'.findings = false → ∀ (c : Compiler) (resolver : Resolver),
        c.compile g' resolver = c.compile g resolver) ∧
      ∀ f ∈ g'.findings, f.isError = true → f.topic = .noIncomingEdge ∧
        ∃ e ∈ g.edges, e.id ∈ spare ∧ f.node = some e.target := by
  intro spare g'
  have hwell : g.WellFormed := (Graph.isErrorFree_iff_wellFormed hids).mp hfree
  refine ⟨fun ids hperm => ?_, ?_, fun hfree' c resolver => ?_, fun f hf herror => ?_⟩
  · have hthere : ∀ id ∈ ids, g.hasEdge id = true := by
      intro id hid
      have hmem : id ∈ g.flaggedEdges .duplicatePort := hperm.mem_iff.mp hid
      rw [Graph.flaggedEdges_duplicatePort] at hmem
      obtain ⟨n, -, hmem⟩ := List.mem_flatMap.mp hmem
      obtain ⟨e, he, rfl⟩ := List.mem_map.mp hmem
      have hout := (Graph.repeatedPorts_sublist _ _).subset he
      exact List.any_eq_true.mpr ⟨e, (Graph.mem_outgoing.mp hout).1, by simp⟩
    rw [Graph.foldlM_removeEdge
      (hperm.nodup_iff.mpr (Graph.nodup_flaggedEdges hids hedgeIds)) hthere]
    simp only [Graph.withoutEdges, hperm.mem_iff, g']
  · exact (Graph.topic_not_found_iff rfl).mpr
      (Graph.duplicateFindings_withoutEdges_flagged hids hedgeIds)
  · obtain ⟨start, hstart⟩ := Graph.IsErrorFree.exists_start hfree
    have hagree : Graph.AgreeOn (fun _ => True) g g' :=
      ⟨fun _ _ => rfl, fun _ hn _ => Graph.liveEdges_withoutEdges_flagged hids hedgeIds hn,
        fun _ _ _ _ _ => trivial⟩
    exact hagree.compile_eq hfree hfree' hstart hstart trivial c resolver
  · obtain ⟨violations, -, hbreaks, herrors⟩ := Graph.reports_errors (g := g') hids
    have hmem : f ∈ g'.findings.filter Finding.isError := List.mem_filter.mpr ⟨hf, herror⟩
    rw [herrors] at hmem
    obtain ⟨v, hv, rfl⟩ := List.mem_map.mp hmem
    obtain ⟨n, rfl, e, he, hspare, htarget⟩ :=
      Graph.noIncoming_of_breaks hids hedgeIds hwell ((hbreaks v).mp hv)
    exact ⟨rfl, e, he, hspare, by rw [htarget]; rfl⟩

/-- A choice and a probe that both have one edge more on one of their ports than they follow. -/
def Graph.crossroads : Graph where
  nodes := [
    .ofStep "begin" .start .origin,
    .ofStep "choice" (.condition { expression := "ok" }) .origin,
    .ofStep "probe" (.check { command := "ping" }) .origin, .ofStep "done" .finish .origin]
  edges := [
    ⟨"e1", "begin", "choice", none⟩, ⟨"e2", "choice", "probe", some .whenTrue⟩,
    ⟨"e3", "choice", "done", some .whenTrue⟩, ⟨"e4", "choice", "done", some .whenFalse⟩,
    ⟨"e5", "probe", "done", some .success⟩, ⟨"e6", "probe", "choice", some .failure⟩,
    ⟨"e7", "probe", "choice", some .success⟩]

theorem Compiler.spare_edges_change_nothing_crossroads :
    let g := Graph.crossroads
    let g' := g.withoutEdges ["e3", "e7"]
    (g.nodes.map Node.id).Nodup ∧ (g.edges.map Edge.id).Nodup ∧ hasErrors g.findings = false ∧
      g.flaggedEdges .duplicatePort = ["e3", "e7"] ∧
      ["e7", "e3"].foldlM Graph.removeEdge g = .ok g' ∧
      (∀ f ∈ g'.findings, f.topic ≠ .duplicatePort) ∧ hasErrors g'.findings = false ∧
      ∀ (c : Compiler) (resolver : Resolver), c.compile g' resolver = c.compile g resolver := by
  intro g g'
  have hids : (g.nodes.map Node.id).Nodup := by decide
  have hedgeIds : (g.edges.map Edge.id).Nodup := by decide
  have hfree : g.IsErrorFree := Graph.isErrorFree_iff.mpr (by decide +kernel)
  have hfree' : g'.IsErrorFree := Graph.isErrorFree_iff.mpr (by decide +kernel)
  have hspare : g.flaggedEdges .duplicatePort = ["e3", "e7"] := by
    rw [Graph.flaggedEdges_duplicatePort]
    decide +kernel
  obtain ⟨hremove, hports, hsame, -⟩ := spare_edges_change_nothing hids hedgeIds hfree
  rw [hspare] at hremove hports hsame
  exact ⟨hids, hedgeIds, hfree, hspare, hremove _ (List.Perm.swap _ _ _), hports, hfree',
    hsame hfree'⟩

end Runbook
