import Mathlib.Data.List.Basic
import Mathlib.Data.List.Nodup
import Mathlib.Tactic.Common
import Runbook.Proofs.SessionRun
import Runbook.Proofs.Violations

/-!
What edits never do to a graph. They give no id a second time and leave no edge without a node at
one of its ends, whatever graph they start from: such faults are only ever there from the start,
and an edge that is mended by a new node goes with that node when it goes. So a graph built from
nothing has none of them, and each graph that has none can be built from nothing.
-/
namespace Runbook

namespace Graph

def applyAll (g : Graph) (edits : List Edit) : Except EditError Graph :=
  edits.foldlM (fun g e => e.apply g) g

def loose (g : Graph) (side : EdgeEnd) : List Edge :=
  g.edges.filter fun e => !g.hasNode (e.endAt side)

structure IsSound (g : Graph) : Prop where
  node_ids : (g.nodes.map Node.id).Nodup
  edge_ids : (g.edges.map Edge.id).Nodup
  ends_exist : ∀ e ∈ g.edges, ∀ side, g.hasNode (e.endAt side) = true

/-- Each loose end and each repetition of an id is one of another graph. -/
structure NoWorseThan (g g₀ : Graph) : Prop where
  loose_sublist : ∀ side, (g.loose side).Sublist (g₀.loose side)
  node_ids : ∀ id, (g.nodes.map Node.id).count id ≤ max 1 ((g₀.nodes.map Node.id).count id)
  edge_ids : ∀ id, (g.edges.map Edge.id).count id ≤ max 1 ((g₀.edges.map Edge.id).count id)

namespace NoWorseThan

variable {g g₀ g₁ : Graph}

theorem refl (g : Graph) : g.NoWorseThan g where
  loose_sublist _ := List.Sublist.refl _
  node_ids _ := Nat.le_max_right _ _
  edge_ids _ := Nat.le_max_right _ _

theorem trans (h : g.NoWorseThan g₁) (h₁ : g₁.NoWorseThan g₀) : g.NoWorseThan g₀ where
  loose_sublist side := (h.loose_sublist side).trans (h₁.loose_sublist side)
  node_ids id := by
    have hnew := h.node_ids id
    have hold := h₁.node_ids id
    omega
  edge_ids id := by
    have hnew := h.edge_ids id
    have hold := h₁.edge_ids id
    omega

end NoWorseThan

variable {g next : Graph}

theorem hasNode_iff {id : NodeId} : g.hasNode id = true ↔ id ∈ g.nodes.map Node.id := by
  simp [hasNode]

theorem hasEdge_iff {id : EdgeId} : g.hasEdge id = true ↔ id ∈ g.edges.map Edge.id := by
  simp [hasEdge]

/-- Edges that stay come loose only with their nodes. -/
theorem loose_sublist_of_sublist (hedges : next.edges.Sublist g.edges) {side : EdgeEnd}
    (hkept : ∀ e ∈ next.edges, g.hasNode (e.endAt side) = true →
      next.hasNode (e.endAt side) = true) :
    (next.loose side).Sublist (g.loose side) := by
  have hloose : next.loose side =
      (next.loose side).filter fun e => !g.hasNode (e.endAt side) := by
    symm
    rw [List.filter_eq_self]
    intro e he
    obtain ⟨he, hnot⟩ := List.mem_filter.mp he
    by_contra hnode
    rw [hkept e he (by simpa using hnode)] at hnot
    exact absurd hnot (by decide)
  rw [hloose]
  exact (List.filter_sublist.trans hedges).filter _

/-- A new id is there once. -/
theorem count_concat_le {ids : List String} {new : String} (hnew : new ∉ ids) (id : String) :
    (ids ++ [new]).count id ≤ max 1 (ids.count id) := by
  rw [List.count_append, List.count_singleton]
  by_cases hid : new = id
  · subst hid
    rw [List.count_eq_zero_of_not_mem hnew]
    simp
  · simp only [beq_eq_false_iff_ne.mpr hid, Bool.false_eq_true, if_false, Nat.add_zero]
    exact Nat.le_max_right _ _

theorem noWorseThan_addNode {node : Node} (h : g.addNode node = .ok next) :
    next.NoWorseThan g := by
  by_cases htaken : g.hasNode node.id
  · simp [addNode, htaken] at h
  obtain rfl : { g with nodes := g.nodes ++ [node] } = next := by simpa [addNode, htaken] using h
  refine ⟨fun side => ?_, fun id => ?_, (NoWorseThan.refl g).edge_ids⟩
  · apply loose_sublist_of_sublist
    · exact List.Sublist.refl _
    · intro e _ hnode
      rw [hasNode_iff, List.map_append]
      exact List.mem_append_left _ (hasNode_iff.mp hnode)
  · rw [List.map_append]
    exact count_concat_le (fun hid => htaken (hasNode_iff.mpr hid)) id

theorem noWorseThan_removeNode {id : NodeId} (h : g.removeNode id = .ok next) :
    next.NoWorseThan g := by
  by_cases hthere : g.hasNode id
  swap
  · simp [removeNode, hthere] at h
  obtain rfl : Graph.mk (g.nodes.filter fun n => n.id ≠ id)
      (g.edges.filter fun e => e.source ≠ id ∧ e.target ≠ id) = next := by
    simpa [removeNode, hthere] using h
  refine ⟨fun side => loose_sublist_of_sublist List.filter_sublist fun e he hnode => ?_,
    fun other => ?_, fun other => ?_⟩
  · -- the removed node is at neither end of an edge that stays
    have haway : e.endAt side ≠ id := by
      have hends := (List.mem_filter.mp he).2
      cases side <;> simp_all [Edge.endAt]
    obtain ⟨n, hn, hid⟩ := List.mem_map.mp (hasNode_iff.mp hnode)
    refine hasNode_iff.mpr (List.mem_map.mpr ⟨n, List.mem_filter.mpr ⟨hn, ?_⟩, hid⟩)
    simpa [hid] using haway
  · exact Nat.le_trans ((List.filter_sublist.map Node.id).count_le other) (Nat.le_max_right _ _)
  · exact Nat.le_trans ((List.filter_sublist.map Edge.id).count_le other) (Nat.le_max_right _ _)

theorem noWorseThan_addEdge {edge : Edge} (h : g.addEdge edge = .ok next) :
    next.NoWorseThan g := by
  by_cases hsource : g.hasNode edge.source
  swap
  · simp [addEdge, hsource] at h
  by_cases htarget : g.hasNode edge.target
  swap
  · simp [addEdge, hsource, htarget] at h
  by_cases htaken : g.hasEdge edge.id
  · simp [addEdge, hsource, htarget, htaken] at h
  obtain rfl : { g with edges := g.edges ++ [edge] } = next := by
    simpa [addEdge, hsource, htarget, htaken] using h
  refine ⟨fun side => ?_, (NoWorseThan.refl g).node_ids, fun id => ?_⟩
  · have hend : g.hasNode (edge.endAt side) = true := by cases side <;> assumption
    have htied : ([edge].filter fun e => !g.hasNode (e.endAt side)) = [] := by simp [hend]
    show ((g.edges ++ [edge]).filter fun e => !g.hasNode (e.endAt side)).Sublist _
    rw [List.filter_append, htied, List.append_nil]
    exact List.Sublist.refl _
  · rw [List.map_append]
    exact count_concat_le (fun hid => htaken (hasEdge_iff.mpr hid)) id

theorem noWorseThan_removeEdge {id : EdgeId} (h : g.removeEdge id = .ok next) :
    next.NoWorseThan g := by
  by_cases hthere : g.hasEdge id
  swap
  · simp [removeEdge, hthere] at h
  obtain rfl : { g with edges := g.edges.filter fun e => e.id ≠ id } = next := by
    simpa [removeEdge, hthere] using h
  refine ⟨fun side => loose_sublist_of_sublist List.filter_sublist fun e _ hnode => hnode,
    (NoWorseThan.refl g).node_ids, fun other => ?_⟩
  exact Nat.le_trans ((List.filter_sublist.map Edge.id).count_le other) (Nat.le_max_right _ _)

theorem map_id_changeFirst (id : NodeId) {change : Node → Node} (hid : ∀ n, (change n).id = n.id)
    (nodes : List Node) : (changeFirst id change nodes).map Node.id = nodes.map Node.id := by
  induction nodes with
  | nil => rfl
  | cons n rest ih => by_cases hn : n.id = id <;> simp [changeFirst, hn, hid, ih]

/-- A change of a node that leaves its id leaves all that can be at fault. -/
theorem noWorseThan_changeNode (g : Graph) (id : NodeId) {change : Node → Node}
    (hid : ∀ n, (change n).id = n.id) : (g.changeNode id change).NoWorseThan g := by
  have hids : (g.changeNode id change).nodes.map Node.id = g.nodes.map Node.id :=
    map_id_changeFirst id hid g.nodes
  refine ⟨fun side => ?_, fun other => ?_, (NoWorseThan.refl g).edge_ids⟩
  · apply loose_sublist_of_sublist
    · exact List.Sublist.refl _
    · intro e _ hnode
      rw [hasNode_iff, hids]
      exact hasNode_iff.mp hnode
  · rw [hids]
    exact Nat.le_max_right _ _

theorem noWorseThan_updateSettings {id : NodeId} {patch : Json.Value}
    (h : g.updateSettings id patch = .ok next) : next.NoWorseThan g := by
  rw [updateSettings] at h
  cases hnode : g.node? id with
  | none => simp [hnode] at h
  | some node =>
    cases hpatched : node.settings.patched patch with
    | error error => simp [hnode, hpatched] at h
    | ok settings =>
      obtain rfl : g.changeNode id (fun n => { n with settings := settings }) = next := by
        simpa [hnode, hpatched] using h
      exact noWorseThan_changeNode g id fun _ => rfl

theorem noWorseThan_moveNode {id : NodeId} {position : Position}
    (h : g.moveNode id position = .ok next) : next.NoWorseThan g := by
  by_cases hthere : g.hasNode id
  swap
  · simp [moveNode, hthere] at h
  obtain rfl : g.changeNode id (fun n => { n with position := position }) = next := by
    simpa [moveNode, hthere] using h
  exact noWorseThan_changeNode g id fun _ => rfl

theorem noWorseThan_renameNode {id : NodeId} {label : String}
    (h : g.renameNode id label = .ok next) : next.NoWorseThan g := by
  by_cases hthere : g.hasNode id
  swap
  · simp [renameNode, hthere] at h
  obtain rfl : g.changeNode id (fun n => { n with label := label }) = next := by
    simpa [renameNode, hthere] using h
  exact noWorseThan_changeNode g id fun _ => rfl

/-- An edit brings no fault into a graph. -/
theorem noWorseThan_apply {e : Edit} (h : e.apply g = .ok next) : next.NoWorseThan g := by
  cases e with
  | addNode node => exact noWorseThan_addNode h
  | removeNode id => exact noWorseThan_removeNode h
  | addEdge edge => exact noWorseThan_addEdge h
  | connect id source target port => exact noWorseThan_addEdge h
  | removeEdge id => exact noWorseThan_removeEdge h
  | updateSettings id patch => exact noWorseThan_updateSettings h
  | moveNode id position => exact noWorseThan_moveNode h
  | renameNode id label => exact noWorseThan_renameNode h

theorem applyAll_cons (g : Graph) (e : Edit) (rest : List Edit) :
    g.applyAll (e :: rest) = (e.apply g).bind fun next => next.applyAll rest :=
  List.foldlM_cons

theorem applyAll_append (g : Graph) (edits more : List Edit) :
    g.applyAll (edits ++ more) = (g.applyAll edits).bind fun next => next.applyAll more :=
  List.foldlM_append

/-- Nor does any row of edits. -/
theorem noWorseThan_applyAll {edits : List Edit} (h : g.applyAll edits = .ok next) :
    next.NoWorseThan g := by
  induction edits generalizing g with
  | nil =>
    obtain rfl : g = next := by simpa [applyAll, pure, Except.pure] using h
    exact .refl g
  | cons e rest ih =>
    rw [applyAll_cons] at h
    cases hstep : e.apply g with
    | error error => simp [hstep, Except.bind] at h
    | ok middle =>
      rw [hstep] at h
      exact (ih h).trans (noWorseThan_apply hstep)

end Graph

namespace Session

/-- Whatever is asked of a session, its history holds graphs no worse than those it held. -/
theorem noWorseThan_advance {document : Graph} (compiler : Compiler) {h : History Graph}
    (hall : ∀ g ∈ h.snapshots, g.NoWorseThan document) (r : Request) :
    ∀ g ∈ (advance compiler h r).1.snapshots, g.NoWorseThan document := by
  cases r with
  | edit e =>
    simp only [advance]
    cases hstep : e.apply h.current with
    | error error => exact hall
    | ok next =>
      intro g hg
      have hcurrent : h.current.NoWorseThan document := hall _ (List.get_mem _ _)
      rcases List.mem_append.mp (List.mem_of_mem_drop hg) with hg | hg
      · exact hall g (List.mem_of_mem_take hg)
      · obtain rfl : g = next := by simpa using hg
        exact (Graph.noWorseThan_apply hstep).trans hcurrent
  | undo =>
    have hsame : (h.undo?.getD h).snapshots = h.snapshots := by
      unfold History.undo?
      split <;> rfl
    rwa [advance, hsame]
  | redo =>
    have hsame : (h.redo?.getD h).snapshots = h.snapshots := by
      unfold History.redo?
      split <;> rfl
    rwa [advance, hsame]
  | validate => exact hall
  | compile resolver => exact hall

theorem noWorseThan_runAll_advance {document : Graph} (compiler : Compiler) {h : History Graph}
    (hall : ∀ g ∈ h.snapshots, g.NoWorseThan document) (requests : List Request) :
    ∀ g ∈ (runAll (advance compiler) h requests).1.snapshots, g.NoWorseThan document := by
  induction requests generalizing h with
  | nil => exact hall
  | cons r rest ih => exact ih (noWorseThan_advance compiler hall r)

end Session

namespace Graph

/-- A graph that comes of another: through edits, or in a session that edits, undoes and redoes at
will, and checks and compiles in between. -/
inductive Reaches (g₀ : Graph) : Graph → Prop where
  | editing {g : Graph} (edits : List Edit) (h : g₀.applyAll edits = .ok g) : Reaches g₀ g
  | session {σ : Type} [Sink σ] (limit : Option Nat) (compiler : Compiler) (sink : σ)
      (requests : List Session.Request) :
      Reaches g₀ (runAll Session.perform (.opened g₀ limit compiler sink) requests).1.graph

variable {g₀ g : Graph}

theorem Reaches.noWorseThan (h : g₀.Reaches g) : g.NoWorseThan g₀ := by
  cases h with
  | editing edits h => exact noWorseThan_applyAll h
  | session limit compiler sink requests =>
    rw [Session.runAll_eq, Session.history_opened]
    refine Session.noWorseThan_runAll_advance _ (fun g hg => ?_) requests _ (List.get_mem _ _)
    obtain rfl : g = g₀ := by cases limit <;> exact List.mem_singleton.mp hg
    exact .refl g

/-- A graph no worse than none at all is sound. -/
theorem isSound_of_noWorseThan_empty (h : g.NoWorseThan empty) : g.IsSound where
  node_ids := List.nodup_iff_count_le_one.mpr fun id => by simpa [empty] using h.node_ids id
  edge_ids := List.nodup_iff_count_le_one.mpr fun id => by simpa [empty] using h.edge_ids id
  ends_exist e he side := by
    have hnone : g.loose side = [] := List.sublist_nil.mp (h.loose_sublist side)
    simpa using List.filter_eq_nil_iff.mp hnone e he

theorem IsSound.topic_ne_danglingEdge (h : g.IsSound) {f : Finding} (hf : f ∈ g.findings) :
    f.topic ≠ .danglingEdge := by
  intro htopic
  have hall : (g.findings.filter fun f => f.topic = .danglingEdge) = g.danglingFindings :=
    filter_topic_findings rfl
  have hnone : g.danglingFindings = [] := by
    refine List.flatMap_eq_nil_iff.mpr fun e he => ?_
    have hsource : g.hasNode e.source = true := h.ends_exist e he .source
    have htarget : g.hasNode e.target = true := h.ends_exist e he .target
    simp [hsource, htarget]
  have hmem : f ∈ g.findings.filter fun f => f.topic = .danglingEdge :=
    List.mem_filter.mpr ⟨hf, by simpa using htopic⟩
  rw [hall, hnone] at hmem
  exact List.not_mem_nil hmem

/-- Nodes with new ids can be added one after another. -/
theorem applyAll_addNode {nodes more : List Node} {edges : List Edge}
    (hids : ((nodes ++ more).map Node.id).Nodup) :
    applyAll ⟨nodes, edges⟩ (more.map .addNode) = .ok ⟨nodes ++ more, edges⟩ := by
  induction more generalizing nodes with
  | nil => rw [List.append_nil]; rfl
  | cons node rest ih =>
    have hnew : hasNode ⟨nodes, edges⟩ node.id ≠ true := by
      rw [Ne, hasNode_iff]
      rw [List.map_append, List.map_cons] at hids
      intro hmem
      exact (List.disjoint_of_nodup_append hids) hmem List.mem_cons_self
    have hadd : Edit.apply (.addNode node) ⟨nodes, edges⟩ = .ok ⟨nodes ++ [node], edges⟩ := by
      show addNode _ _ = _
      rw [addNode, if_neg hnew]
    rw [List.append_cons] at hids ⊢
    rw [List.map_cons, applyAll_cons, hadd]
    exact ih hids

/-- So can edges with new ids between nodes that are there. -/
theorem applyAll_addEdge {nodes : List Node} {edges more : List Edge}
    (hids : ((edges ++ more).map Edge.id).Nodup)
    (hends : ∀ e ∈ more, ∀ side, e.endAt side ∈ nodes.map Node.id) :
    applyAll ⟨nodes, edges⟩ (more.map .addEdge) = .ok ⟨nodes, edges ++ more⟩ := by
  induction more generalizing edges with
  | nil => rw [List.append_nil]; rfl
  | cons edge rest ih =>
    have hnew : hasEdge ⟨nodes, edges⟩ edge.id ≠ true := by
      rw [Ne, hasEdge_iff]
      rw [List.map_append, List.map_cons] at hids
      intro hmem
      exact (List.disjoint_of_nodup_append hids) hmem List.mem_cons_self
    have hnode (side : EdgeEnd) : hasNode ⟨nodes, edges⟩ (edge.endAt side) = true :=
      hasNode_iff.mpr (hends edge List.mem_cons_self side)
    have hsource : hasNode ⟨nodes, edges⟩ edge.source = true := hnode .source
    have htarget : hasNode ⟨nodes, edges⟩ edge.target = true := hnode .target
    have hadd : Edit.apply (.addEdge edge) ⟨nodes, edges⟩ = .ok ⟨nodes, edges ++ [edge]⟩ := by
      show addEdge _ _ = _
      rw [addEdge, hsource, htarget, Bool.not_true, if_neg Bool.false_ne_true,
        if_neg Bool.false_ne_true, if_neg hnew]
    rw [List.append_cons] at hids ⊢
    rw [List.map_cons, applyAll_cons, hadd]
    exact ih hids fun e he => hends e (List.mem_cons_of_mem edge he)

def construction (g : Graph) : List Edit := g.nodes.map .addNode ++ g.edges.map .addEdge

theorem IsSound.applyAll_construction (h : g.IsSound) : empty.applyAll g.construction = .ok g := by
  have hnodes : empty.applyAll (g.nodes.map .addNode) = .ok ⟨g.nodes, []⟩ :=
    applyAll_addNode (by simpa [empty] using h.node_ids)
  have hedges : applyAll ⟨g.nodes, []⟩ (g.edges.map .addEdge) = .ok g :=
    applyAll_addEdge (by simpa using h.edge_ids) fun e he side =>
      hasNode_iff.mp (h.ends_exist e he side)
  rw [construction, applyAll_append, hnodes]
  exact hedges

/-- Whatever comes of a graph through edits has no loose end and no repeated id that was not there
before. From nothing come just the graphs whose ids are apart and whose edges lie between nodes,
each by adding its nodes and then its edges. -/
theorem edits_keep_ids_and_ends :
    (∀ g₀ g : Graph, g₀.Reaches g → g.NoWorseThan g₀) ∧
      (∀ g : Graph, empty.Reaches g →
        g.IsSound ∧ ∀ f ∈ g.findings, f.topic ≠ .danglingEdge) ∧
      ∀ g : Graph, g.IsSound → empty.applyAll g.construction = .ok g := by
  refine ⟨fun g₀ g h => h.noWorseThan, fun g h => ?_, fun g h => h.applyAll_construction⟩
  have hsound := isSound_of_noWorseThan_empty h.noWorseThan
  exact ⟨hsound, fun f => hsound.topic_ne_danglingEdge⟩

/-- Edits that tie the loose edge of the draft at both ends, and then take it away again. -/
def mending : List Edit := [
  .addNode (.ofStep "ghost" .finish .origin), .connect "e6" "alone" "ghost" none,
  .renameNode "ghost" "Spirit", .removeNode "ghost"]

theorem edits_keep_ids_and_ends_draft :
    (∃ g, draft.applyAll mending = .ok g ∧ g.NoWorseThan draft ∧ g.edges = draft.edges.take 5) ∧
      let part : Graph := ⟨draft.nodes, draft.edges.take 3⟩
      part.IsSound ∧ empty.applyAll part.construction = .ok part := by
  have hmend : draft.applyAll mending = .ok ⟨draft.nodes, draft.edges.take 5⟩ := by rfl
  have hpart : IsSound ⟨draft.nodes, draft.edges.take 3⟩ :=
    ⟨by decide, by decide, fun e he side => by revert e; cases side <;> decide⟩
  exact ⟨⟨_, hmend, edits_keep_ids_and_ends.1 _ _ (.editing mending hmend), rfl⟩,
    hpart, edits_keep_ids_and_ends.2.2 _ hpart⟩

end Graph

end Runbook
