import Mathlib.Data.List.Nodup
import Mathlib.Data.List.Enum
import Mathlib.Tactic.Common
import Runbook.Proofs.ErrorFree

/-!
What the errors of a graph stand for. A graph without errors is well formed, and conversely; both
are told of nodes and edges alone, without the look-ups by which the checks find them. More than
that, the errors are the ways in which the graph is not well formed, each reported once. An edge is
taken with its place among the edges, so that equal edges are not one, and an edge out of nowhere
breaks the rule on the ends of edges but none on ports.
-/
namespace Runbook

/-- A branching step is left through a port of its kind, and any other without a port. -/
def Kind.Fits (kind : Kind) (port : Option Port) : Prop :=
  match kind with
  | .condition => port = some .whenTrue ∨ port = some .whenFalse
  | .loop => port = some .body ∨ port = some .exit
  | .check => port = some .success ∨ port = some .failure
  | _ => port = none

theorem Kind.accepts_iff (kind : Kind) (port : Option Port) :
    kind.accepts port = true ↔ kind.Fits port := by
  cases port with
  | none => cases kind <;> simp [accepts, Fits, isBranching, ports]
  | some p => cases kind <;> cases p <;> simp [accepts, Fits, ports]

instance (kind : Kind) (port : Option Port) : Decidable (kind.Fits port) :=
  decidable_of_iff _ (kind.accepts_iff port)

inductive EdgeEnd where
  | source
  | target
deriving DecidableEq

def Edge.endAt (e : Edge) : EdgeEnd → NodeId
  | .source => e.source
  | .target => e.target

/-- A rule that a graph breaks, with the node or the edge at its place that breaks it. -/
inductive Violation where
  | missingStart
  | missingEnd
  | extraStart (node : Node)
  | edgeIntoStart (e : Edge) (place : Nat)
  | edgeOutOfEnd (e : Edge) (place : Nat)
  | noIncoming (node : Node)
  | noOutgoing (node : Node)
  | missingBranch (node : Node) (port : Port)
  | dangling (e : Edge) (place : Nat) (side : EdgeEnd)
  | illegalPort (e : Edge) (place : Nat) (source : Node)

def Violation.finding : Violation → Finding
  | missingStart =>
    { severity := .error, topic := .missingStart, message := "Workflow has no start node" }
  | missingEnd =>
    { severity := .error, topic := .missingEnd, message := "Workflow has no end node" }
  | extraStart n =>
    { severity := .error, topic := .multipleStarts, node := some n.id
      message := "Start node " ++ quotedName n.id ++
        " is one of several; a workflow has exactly one" }
  | edgeIntoStart e _ =>
    { severity := .error, topic := .edgeIntoStart, node := some e.target, edge := some e.id
      message := "Start node " ++ quotedName e.target ++ " cannot have incoming edges" }
  | edgeOutOfEnd e _ =>
    { severity := .error, topic := .edgeOutOfEnd, node := some e.source, edge := some e.id
      message := "End node " ++ quotedName e.source ++ " cannot have outgoing edges" }
  | noIncoming n =>
    { severity := .error, topic := .noIncomingEdge, node := some n.id
      message := "Node " ++ quotedName n.id ++ " has no incoming edge" }
  | noOutgoing n =>
    { severity := .error, topic := .noOutgoingEdge, node := some n.id
      message := "Node " ++ quotedName n.id ++ " has no outgoing edge" }
  | missingBranch n port =>
    { severity := .error, topic := .missingBranch, node := some n.id, port := some port
      message := n.kind.name ++ " node " ++ quotedName n.id ++ " is missing its " ++
        quotedName port.name ++ " branch" }
  | dangling e _ side =>
    { severity := .error, topic := .danglingEdge, edge := some e.id
      message := "Edge " ++ quotedName e.id ++ " references unknown node " ++
        quotedName (e.endAt side) }
  | illegalPort e _ source =>
    { severity := .error, topic := .illegalPort, node := some e.source, edge := some e.id
      port := e.port, message := Graph.portMessage e source.kind }

namespace Graph

/-- Whether a graph breaks a rule in this way. -/
def Breaks (g : Graph) : Violation → Prop
  | .missingStart => ∀ n ∈ g.nodes, n.kind ≠ .start
  | .missingEnd => ∀ n ∈ g.nodes, n.kind ≠ .finish
  | .extraStart n => ∃ before after, g.nodes = before ++ n :: after ∧ n.kind = .start ∧
      ∃ first ∈ before, first.kind = .start
  | .edgeIntoStart e place => g.edges[place]? = some e ∧
      ∃ n ∈ g.nodes, n.id = e.target ∧ n.kind = .start
  | .edgeOutOfEnd e place => g.edges[place]? = some e ∧
      ∃ n ∈ g.nodes, n.id = e.source ∧ n.kind = .finish
  | .noIncoming n => n ∈ g.nodes ∧ n.kind ≠ .start ∧ n.kind ≠ .finish ∧
      ∀ e ∈ g.edges, e.target ≠ n.id
  | .noOutgoing n => n ∈ g.nodes ∧ n.kind ≠ .start ∧ n.kind ≠ .finish ∧
      ∀ e ∈ g.edges, e.source ≠ n.id
  | .missingBranch n port => n ∈ g.nodes ∧
      (n.kind = .condition ∧ (port = .whenTrue ∨ port = .whenFalse) ∨
        n.kind = .loop ∧ (port = .body ∨ port = .exit)) ∧
      ∀ e ∈ g.edges, e.source = n.id → e.port ≠ some port
  | .dangling e place side => g.edges[place]? = some e ∧ ∀ n ∈ g.nodes, n.id ≠ e.endAt side
  | .illegalPort e place source => g.edges[place]? = some e ∧ source ∈ g.nodes ∧
      source.id = e.source ∧ ¬ source.kind.Fits e.port

/-- The graphs that can be compiled. -/
structure WellFormed (g : Graph) : Prop where
  one_start : ∃! n, n ∈ g.nodes ∧ n.kind = .start
  some_end : ∃ n ∈ g.nodes, n.kind = .finish
  ends_exist : ∀ e ∈ g.edges,
    (∃ n ∈ g.nodes, n.id = e.source) ∧ ∃ n ∈ g.nodes, n.id = e.target
  none_into_start : ∀ e ∈ g.edges, ∀ n ∈ g.nodes, n.id = e.target → n.kind ≠ .start
  none_out_of_end : ∀ e ∈ g.edges, ∀ n ∈ g.nodes, n.id = e.source → n.kind ≠ .finish
  connected : ∀ n ∈ g.nodes, n.kind ≠ .start → n.kind ≠ .finish →
    (∃ e ∈ g.edges, e.target = n.id) ∧ ∃ e ∈ g.edges, e.source = n.id
  ports_fit : ∀ e ∈ g.edges, ∀ n ∈ g.nodes, n.id = e.source → n.kind.Fits e.port
  condition_branches : ∀ n ∈ g.nodes, n.kind = .condition →
    (∃ e ∈ g.edges, e.source = n.id ∧ e.port = some .whenTrue) ∧
      ∃ e ∈ g.edges, e.source = n.id ∧ e.port = some .whenFalse
  loop_branches : ∀ n ∈ g.nodes, n.kind = .loop →
    (∃ e ∈ g.edges, e.source = n.id ∧ e.port = some .body) ∧
      ∃ e ∈ g.edges, e.source = n.id ∧ e.port = some .exit

end Graph

/-- A list of findings reports exactly the violations with a property, each once. -/
def Reports (findings : List Finding) (P : Violation → Prop) : Prop :=
  ∃ violations : List Violation, violations.Nodup ∧ (∀ v, v ∈ violations ↔ P v) ∧
    findings = violations.map Violation.finding

namespace Reports

variable {findings more : List Finding} {P Q : Violation → Prop}

theorem congr (h : Reports findings P) (hiff : ∀ v, P v ↔ Q v) : Reports findings Q := by
  obtain ⟨violations, hnodup, hmem, hfindings⟩ := h
  exact ⟨violations, hnodup, fun v => (hmem v).trans (hiff v), hfindings⟩

theorem eq_nil_iff (h : Reports findings P) : findings = [] ↔ ∀ v, ¬ P v := by
  obtain ⟨violations, -, hmem, hfindings⟩ := h
  rw [hfindings, List.map_eq_nil_iff, List.eq_nil_iff_forall_not_mem]
  exact forall_congr' fun v => not_congr (hmem v)

theorem nil : Reports [] fun _ => False :=
  ⟨[], List.nodup_nil, by simp, rfl⟩

/-- One violation, if a condition holds. -/
theorem ite (c : Prop) [Decidable c] (v : Violation) :
    Reports (if c then [v.finding] else []) fun w => c ∧ w = v := by
  by_cases hc : c
  · exact ⟨[v], List.nodup_singleton v, by simp [hc], by simp [hc]⟩
  · exact ⟨[], List.nodup_nil, by simp [hc], by simp [hc]⟩

theorem append (h : Reports findings P) (hmore : Reports more Q) (hapart : ∀ v, P v → ¬ Q v) :
    Reports (findings ++ more) fun v => P v ∨ Q v := by
  obtain ⟨vs, hvs, hP, rfl⟩ := h
  obtain ⟨ws, hws, hQ, rfl⟩ := hmore
  refine ⟨vs ++ ws, ?_, fun v => ?_, List.map_append.symm⟩
  · refine List.nodup_append'.mpr ⟨hvs, hws, fun v hv hw => ?_⟩
    exact hapart v ((hP v).mp hv) ((hQ v).mp hw)
  · rw [List.mem_append, hP, hQ]

/-- The violations of several subjects, where a violation tells its subject. -/
theorem flatMap {ι : Type} {l : List ι} {f : ι → List Finding} {R : ι → Violation → Prop}
    (hl : l.Nodup) (h : ∀ x ∈ l, Reports (f x) (R x))
    (hsubject : ∀ x y v, R x v → R y v → x = y) :
    Reports (l.flatMap f) fun v => ∃ x ∈ l, R x v := by
  induction l with
  | nil => exact nil.congr (by simp)
  | cons x rest ih =>
    obtain ⟨hx, hrest⟩ := List.nodup_cons.mp hl
    have htail := ih hrest fun y hy => h y (List.mem_cons_of_mem _ hy)
    have hapart : ∀ v, R x v → ¬ ∃ y ∈ rest, R y v := by
      intro v hv hmore
      obtain ⟨y, hy, hw⟩ := hmore
      exact hx (hsubject x y v hv hw ▸ hy)
    rw [List.flatMap_cons]
    refine ((h x List.mem_cons_self).append htail hapart).congr fun v => ?_
    simp only [List.mem_cons, exists_eq_or_imp]

/-- One violation of each subject. -/
theorem map {ι : Type} {l : List ι} (hl : l.Nodup) (make : ι → Violation)
    (hmake : Function.Injective make) :
    Reports (l.map fun x => (make x).finding) fun v => ∃ x ∈ l, v = make x := by
  refine ⟨l.map make, hl.map hmake, fun v => ?_, by rw [List.map_map]; rfl⟩
  rw [List.mem_map]
  exact exists_congr fun x => and_congr_right fun _ => eq_comm

end Reports

namespace Graph

variable {g : Graph}

theorem nodup_nodes (hids : (g.nodes.map Node.id).Nodup) : g.nodes.Nodup :=
  List.Nodup.of_map _ hids

theorem kind?_eq_some_iff (hids : (g.nodes.map Node.id).Nodup) {id : NodeId} {kind : Kind} :
    g.kind? id = some kind ↔ ∃ n ∈ g.nodes, n.id = id ∧ n.kind = kind := by
  rw [kind?, Option.map_eq_some_iff]
  constructor
  · intro h
    obtain ⟨n, hn, hkind⟩ := h
    exact ⟨n, mem_nodes_of_node? hn, id_of_node? hn, hkind⟩
  · intro h
    obtain ⟨n, hn, rfl, hkind⟩ := h
    exact ⟨n, node?_of_mem hids hn, hkind⟩

/-- Edges are told apart by their places. -/
theorem nodup_zipIdx (l : List Edge) : l.zipIdx.Nodup := by
  refine List.Nodup.of_map Prod.snd ?_
  rw [List.zipIdx_map_snd]
  exact List.nodup_range'

/-- A check of edges is a check of edges at their places. -/
theorem flatMap_edges (l : List Edge) (f : Edge → List Finding) :
    l.flatMap f = l.zipIdx.flatMap fun a => f a.1 := by
  conv_lhs => rw [← List.zipIdx_map_fst 0 l]
  rw [List.flatMap_map]

/-- The elements with a property that come after another one with it. -/
theorem mem_tail_filter {α : Type} {p : α → Bool} {l : List α} {a : α} :
    a ∈ (l.filter p).tail ↔
      ∃ before after, l = before ++ a :: after ∧ p a = true ∧ ∃ b ∈ before, p b = true := by
  induction l with
  | nil => simp
  | cons x rest ih =>
    by_cases hx : p x = true
    · rw [List.filter_cons_of_pos hx, List.tail_cons, List.mem_filter]
      constructor
      · intro h
        obtain ⟨before, after, hrest⟩ := List.append_of_mem h.1
        exact ⟨x :: before, after, by rw [hrest]; rfl, h.2, x, List.mem_cons_self, hx⟩
      · intro h
        obtain ⟨before, after, hrest, ha, b, hb, -⟩ := h
        cases before with
        | nil => cases hb
        | cons y before =>
          obtain ⟨-, rfl⟩ := List.cons.inj hrest
          exact ⟨by simp, ha⟩
    · rw [List.filter_cons_of_neg hx, ih]
      constructor
      · intro h
        obtain ⟨before, after, rfl, ha, b, hb, hpb⟩ := h
        exact ⟨x :: before, after, rfl, ha, b, List.mem_cons_of_mem _ hb, hpb⟩
      · intro h
        obtain ⟨before, after, hrest, ha, b, hb, hpb⟩ := h
        cases before with
        | nil => cases hb
        | cons y before =>
          obtain ⟨rfl, rfl⟩ := List.cons.inj hrest
          rcases List.mem_cons.mp hb with rfl | hb
          · exact absurd hpb hx
          · exact ⟨before, after, rfl, ha, b, hb, hpb⟩

def BreaksOn (g : Graph) (topics : List Topic) (v : Violation) : Prop :=
  v.finding.topic ∈ topics ∧ g.Breaks v

theorem reports_startFindings (hids : (g.nodes.map Node.id).Nodup) :
    Reports g.startFindings (g.BreaksOn [.missingStart, .missingEnd, .multipleStarts]) := by
  have hstart := Reports.ite ((g.ofKind .start).isEmpty = true) .missingStart
  have hend := Reports.ite ((g.ofKind .finish).isEmpty = true) .missingEnd
  have hnodup : ((g.ofKind .start).drop 1).Nodup :=
    ((nodup_nodes hids).filter _).sublist (List.drop_sublist 1 _)
  have hextra := Reports.map hnodup Violation.extraStart
    fun n m h => Violation.extraStart.inj h
  refine ((hstart.append hend ?_).append hextra ?_).congr fun v => ?_
  · rintro v ⟨-, rfl⟩ ⟨-, h⟩
    cases h
  · rintro v (⟨-, rfl⟩ | ⟨-, rfl⟩) ⟨n, -, h⟩ <;> cases h
  · cases v with
    | extraStart n =>
      have htail := mem_tail_filter (p := fun n => n.kind = .start) (l := g.nodes) (a := n)
      simp only [decide_eq_true_eq] at htail
      simp [BreaksOn, Breaks, Violation.finding, ofKind, htail]
    | _ => simp [BreaksOn, Breaks, Violation.finding, ofKind]

theorem reports_terminalFindings (hids : (g.nodes.map Node.id).Nodup) :
    Reports g.terminalFindings (g.BreaksOn [.edgeIntoStart, .edgeOutOfEnd]) := by
  unfold terminalFindings
  rw [flatMap_edges]
  have hedge : ∀ a ∈ g.edges.zipIdx, Reports _ _ := fun a _ =>
    (Reports.ite (g.kind? a.1.target = some .start) (.edgeIntoStart a.1 a.2)).append
      (Reports.ite (g.kind? a.1.source = some .finish) (.edgeOutOfEnd a.1 a.2)) (by
        rintro v ⟨-, rfl⟩ ⟨-, h⟩
        cases h)
  refine (Reports.flatMap (nodup_zipIdx _) hedge ?_).congr fun v => ?_
  · rintro ⟨e, i⟩ ⟨e', j⟩ v (⟨-, rfl⟩ | ⟨-, rfl⟩) (⟨-, h⟩ | ⟨-, h⟩) <;> cases h <;> rfl
  · cases v <;> simp [BreaksOn, Breaks, Violation.finding, kind?_eq_some_iff hids,
      List.mk_mem_zipIdx_iff_getElem?]

theorem reports_connectionFindings (hids : (g.nodes.map Node.id).Nodup) :
    Reports g.connectionFindings (g.BreaksOn [.noIncomingEdge, .noOutgoingEdge]) := by
  unfold connectionFindings
  have hnode : ∀ n ∈ g.nodes.filter (fun n => n.kind ≠ .start ∧ n.kind ≠ .finish),
      Reports _ _ := fun n _ =>
    (Reports.ite ((g.incoming n.id).isEmpty = true) (.noIncoming n)).append
      (Reports.ite ((g.outgoing n.id).isEmpty = true) (.noOutgoing n)) (by
        rintro v ⟨-, rfl⟩ ⟨-, h⟩
        cases h)
  refine (Reports.flatMap ((nodup_nodes hids).filter _) hnode ?_).congr fun v => ?_
  · rintro n m v (⟨-, rfl⟩ | ⟨-, rfl⟩) (⟨-, h⟩ | ⟨-, h⟩) <;> cases h <;> rfl
  · cases v <;> simp [BreaksOn, Breaks, Violation.finding, incoming, outgoing, and_assoc]

theorem reports_branchFindings (hids : (g.nodes.map Node.id).Nodup) :
    Reports g.branchFindings (g.BreaksOn [.missingBranch]) := by
  unfold branchFindings
  have hnode : ∀ n ∈ g.nodes.filter (fun n => n.kind = .condition ∨ n.kind = .loop),
      Reports _ _ := fun n _ =>
    have hports : n.kind.ports.Nodup := by cases n.kind <;> decide
    Reports.map (hports.filter fun port => !g.isWired n.id port)
      (Violation.missingBranch n) fun p q h => (Violation.missingBranch.inj h).2
  refine (Reports.flatMap ((nodup_nodes hids).filter _) hnode ?_).congr fun v => ?_
  · rintro n m v ⟨p, -, rfl⟩ ⟨q, -, h⟩
    exact (Violation.missingBranch.inj h).1
  · cases v with
    | missingBranch n port =>
      have hports : (n.kind = .condition ∨ n.kind = .loop) ∧ port ∈ n.kind.ports ↔
          n.kind = .condition ∧ (port = .whenTrue ∨ port = .whenFalse) ∨
            n.kind = .loop ∧ (port = .body ∨ port = .exit) := by
        cases n.kind <;> simp [Kind.ports]
      have hwired : g.isWired n.id port = false ↔
          ∀ e ∈ g.edges, e.source = n.id → e.port ≠ some port := by
        simp [isWired, outgoing]
      have hfound : (∃ m ∈ g.nodes.filter (fun n => n.kind = .condition ∨ n.kind = .loop),
          ∃ p ∈ m.kind.ports.filter (fun port => !g.isWired m.id port),
            Violation.missingBranch n port = .missingBranch m p) ↔
          n ∈ g.nodes ∧ ((n.kind = .condition ∨ n.kind = .loop) ∧ port ∈ n.kind.ports) ∧
            g.isWired n.id port = false := by
        constructor
        · rintro ⟨m, hm, p, hp, h⟩
          obtain ⟨rfl, rfl⟩ := Violation.missingBranch.inj h
          simp only [List.mem_filter, decide_eq_true_eq, Bool.not_eq_true'] at hm hp
          exact ⟨hm.1, ⟨hm.2, hp.1⟩, hp.2⟩
        · rintro ⟨hn, ⟨hkind, hport⟩, hfree⟩
          refine ⟨n, ?_, port, ?_, rfl⟩
          · simpa only [List.mem_filter, decide_eq_true_eq] using ⟨hn, hkind⟩
          · simpa only [List.mem_filter, Bool.not_eq_true'] using ⟨hport, hfree⟩
      rw [hfound, hports, hwired]
      simp [BreaksOn, Breaks, Violation.finding]
    | _ => simp [BreaksOn, Violation.finding]

theorem reports_danglingFindings :
    Reports g.danglingFindings (g.BreaksOn [.danglingEdge]) := by
  unfold danglingFindings
  rw [flatMap_edges]
  have hedge : ∀ a ∈ g.edges.zipIdx,
      Reports (([a.1.source, a.1.target].filter fun id => !g.hasNode id).map fun id =>
        { severity := .error, topic := .danglingEdge, edge := some a.1.id
          message := "Edge " ++ quotedName a.1.id ++ " references unknown node " ++
            quotedName id })
        fun v =>
          ∃ side ∈ [EdgeEnd.source, .target].filter fun side => !g.hasNode (a.1.endAt side),
            v = .dangling a.1 a.2 side := by
    intro a _
    have hsides : [a.1.source, a.1.target] = [EdgeEnd.source, .target].map a.1.endAt := rfl
    rw [hsides, List.filter_map, List.map_map]
    exact Reports.map (List.Nodup.filter _ (by decide)) (Violation.dangling a.1 a.2)
      fun p q h => (Violation.dangling.inj h).2.2
  refine (Reports.flatMap (nodup_zipIdx _) hedge ?_).congr fun v => ?_
  · rintro ⟨e, i⟩ ⟨e', j⟩ v ⟨p, -, rfl⟩ ⟨q, -, h⟩
    obtain ⟨rfl, rfl, -⟩ := Violation.dangling.inj h
    rfl
  · cases v with
    | dangling e place side =>
      have hfree : (!g.hasNode (e.endAt side)) = true ↔ ∀ n ∈ g.nodes, n.id ≠ e.endAt side := by
        simp [hasNode]
      have hboth : side ∈ [EdgeEnd.source, .target] := by cases side <;> decide
      simp only [BreaksOn, Breaks, Violation.finding, List.mem_singleton, true_and, ← hfree,
        List.mem_filter, Violation.dangling.injEq]
      constructor
      · rintro ⟨⟨e, place⟩, ha, side, ⟨-, hmissing⟩, rfl, rfl, rfl⟩
        exact ⟨List.mk_mem_zipIdx_iff_getElem?.mp ha, hmissing⟩
      · rintro ⟨he, hmissing⟩
        have ha := List.mk_mem_zipIdx_iff_getElem?.mpr he
        exact ⟨(e, place), ha, side, ⟨hboth, hmissing⟩, rfl, rfl, rfl⟩
    | _ => simp [BreaksOn, Violation.finding]

theorem reports_portFindings (hids : (g.nodes.map Node.id).Nodup) :
    Reports g.portFindings (g.BreaksOn [.illegalPort]) := by
  unfold portFindings
  rw [flatMap_edges]
  refine (Reports.flatMap (R := fun a v => ∃ n ∈ g.nodes, n.id = a.1.source ∧
    ¬ n.kind.Fits a.1.port ∧ v = .illegalPort a.1 a.2 n) (nodup_zipIdx _) (fun a _ => ?_)
    ?_).congr fun v => ?_
  · cases hnode : g.node? a.1.source with
    | none =>
      have hnone : g.kind? a.1.source = none := by rw [kind?, hnode]; rfl
      rw [hnone]
      refine Reports.nil.congr fun v => ⟨False.elim, ?_⟩
      rintro ⟨n, hn, hid, -⟩
      rw [← hid, node?_of_mem hids hn] at hnode
      cases hnode
    | some source =>
      have hsome : g.kind? a.1.source = some source.kind := by rw [kind?, hnode]; rfl
      rw [hsome]
      have hone := Reports.ite (¬ source.kind.Fits a.1.port) (.illegalPort a.1 a.2 source)
      rw [ite_not] at hone
      have hsource : source ∈ g.nodes ∧ source.id = a.1.source :=
        ⟨mem_nodes_of_node? hnode, id_of_node? hnode⟩
      have hunique : ∀ n ∈ g.nodes, n.id = a.1.source → n = source := by
        intro n hn hid
        rw [← hid, node?_of_mem hids hn] at hnode
        exact Option.some.inj hnode
      simp only [← Kind.accepts_iff] at hone
      refine hone.congr fun v => ?_
      rw [Kind.accepts_iff]
      constructor
      · rintro ⟨hbad, rfl⟩
        exact ⟨source, hsource.1, hsource.2, hbad, rfl⟩
      · rintro ⟨n, hn, hid, hbad, rfl⟩
        obtain rfl := hunique n hn hid
        exact ⟨hbad, rfl⟩
  · rintro ⟨e, i⟩ ⟨e', j⟩ v ⟨n, -, -, -, rfl⟩ ⟨m, -, -, -, h⟩
    obtain ⟨rfl, rfl, -⟩ := Violation.illegalPort.inj h
    rfl
  · cases v with
    | illegalPort e place source =>
      simp [BreaksOn, Breaks, Violation.finding, List.mk_mem_zipIdx_iff_getElem?]
    | _ => simp [BreaksOn, Violation.finding]

/-- Two checks on different topics report the violations on the topics of both. -/
theorem reports_append {findings more : List Finding} {topics others : List Topic}
    (h : Reports findings (g.BreaksOn topics)) (hmore : Reports more (g.BreaksOn others))
    (hapart : ∀ topic ∈ topics, topic ∉ others) :
    Reports (findings ++ more) (g.BreaksOn (topics ++ others)) := by
  refine (h.append hmore fun v hv hw => hapart _ hv.1 hw.1).congr fun v => ?_
  rw [BreaksOn, BreaksOn, BreaksOn, List.mem_append, or_and_right]

theorem filter_isError_findings (g : Graph) :
    g.findings.filter Finding.isError = g.errorChecks.flatten := by
  have herrors : ∀ f ∈ g.errorChecks.flatten, f.isError = true := by
    intro f hf
    obtain ⟨check, hcheck, hf⟩ := List.mem_flatten.mp hf
    exact isError_of_mem_errorChecks hcheck hf
  have hadvice : ∀ f ∈ g.adviceChecks.flatten, ¬ f.isError = true := by
    intro f hf
    obtain ⟨check, hcheck, hf⟩ := List.mem_flatten.mp hf
    rw [not_isError_of_mem_adviceChecks hcheck hf]
    exact Bool.false_ne_true
  rw [findings_eq, List.filter_append, List.filter_eq_self.mpr herrors,
    List.filter_eq_nil_iff.mpr hadvice, List.append_nil]

/-- The errors of a graph are its violations. -/
theorem reports_errors (hids : (g.nodes.map Node.id).Nodup) :
    Reports (g.findings.filter Finding.isError) g.Breaks := by
  have hports := reports_portFindings hids
  have hdangling := reports_append reports_danglingFindings hports (by decide)
  have hbranches := reports_append (reports_branchFindings hids) hdangling (by decide)
  have hconnections := reports_append (reports_connectionFindings hids) hbranches (by decide)
  have hterminals := reports_append (reports_terminalFindings hids) hconnections (by decide)
  have hall := reports_append (reports_startFindings hids) hterminals (by decide)
  have hflatten : g.errorChecks.flatten = g.startFindings ++ (g.terminalFindings ++
      (g.connectionFindings ++ (g.branchFindings ++ (g.danglingFindings ++ g.portFindings)))) := by
    simp [errorChecks]
  rw [filter_isError_findings, hflatten]
  refine hall.congr fun v => and_iff_right ?_
  cases v <;> simp [Violation.finding]

theorem isErrorFree_iff_filter : g.IsErrorFree ↔ g.findings.filter Finding.isError = [] := by
  rw [IsErrorFree, hasErrors, List.any_eq_false, List.filter_eq_nil_iff]

theorem WellFormed.not_breaks (h : g.WellFormed) (hids : (g.nodes.map Node.id).Nodup)
    (v : Violation) : ¬ g.Breaks v := by
  intro hv
  cases v with
  | missingStart =>
    obtain ⟨start, ⟨hstart, hkind⟩, -⟩ := h.one_start
    exact hv start hstart hkind
  | missingEnd =>
    obtain ⟨n, hn, hkind⟩ := h.some_end
    exact hv n hn hkind
  | extraStart n =>
    obtain ⟨before, after, hnodes, hkind, first, hfirst, hstart⟩ := hv
    have hn : n ∈ g.nodes := by simp [hnodes]
    have hmem : first ∈ g.nodes := by simp [hnodes, hfirst]
    obtain rfl : first = n := h.one_start.unique ⟨hmem, hstart⟩ ⟨hn, hkind⟩
    have hnodup := nodup_nodes hids
    rw [hnodes] at hnodup
    exact (List.nodup_append.mp hnodup).2.2 first hfirst first List.mem_cons_self rfl
  | edgeIntoStart e place =>
    obtain ⟨he, n, hn, hid, hkind⟩ := hv
    exact h.none_into_start e (List.mem_of_getElem? he) n hn hid hkind
  | edgeOutOfEnd e place =>
    obtain ⟨he, n, hn, hid, hkind⟩ := hv
    exact h.none_out_of_end e (List.mem_of_getElem? he) n hn hid hkind
  | noIncoming n =>
    obtain ⟨hn, hstart, hfinish, hnone⟩ := hv
    obtain ⟨⟨e, he, htarget⟩, -⟩ := h.connected n hn hstart hfinish
    exact hnone e he htarget
  | noOutgoing n =>
    obtain ⟨hn, hstart, hfinish, hnone⟩ := hv
    obtain ⟨-, e, he, hsource⟩ := h.connected n hn hstart hfinish
    exact hnone e he hsource
  | missingBranch n port =>
    obtain ⟨hn, ⟨hkind, rfl | rfl⟩ | ⟨hkind, rfl | rfl⟩, hnone⟩ := hv
    · obtain ⟨⟨e, he, hsource, hport⟩, -⟩ := h.condition_branches n hn hkind
      exact hnone e he hsource hport
    · obtain ⟨-, e, he, hsource, hport⟩ := h.condition_branches n hn hkind
      exact hnone e he hsource hport
    · obtain ⟨⟨e, he, hsource, hport⟩, -⟩ := h.loop_branches n hn hkind
      exact hnone e he hsource hport
    · obtain ⟨-, e, he, hsource, hport⟩ := h.loop_branches n hn hkind
      exact hnone e he hsource hport
  | dangling e place side =>
    obtain ⟨he, hnone⟩ := hv
    obtain ⟨⟨n, hn, hsource⟩, m, hm, htarget⟩ := h.ends_exist e (List.mem_of_getElem? he)
    cases side with
    | source => exact hnone n hn hsource
    | target => exact hnone m hm htarget
  | illegalPort e place source =>
    obtain ⟨he, hn, hid, hbad⟩ := hv
    exact hbad (h.ports_fit e (List.mem_of_getElem? he) source hn hid)

/-- Starts none of which comes after another are one. -/
theorem existsUnique_start (hsome : ¬ g.Breaks .missingStart)
    (hone : ∀ n, ¬ g.Breaks (.extraStart n)) : ∃! n, n ∈ g.nodes ∧ n.kind = .start := by
  have htail : (g.ofKind .start).tail = [] := by
    refine List.eq_nil_iff_forall_not_mem.mpr fun n hn => hone n ?_
    simpa [Breaks] using mem_tail_filter.mp hn
  have hmem : ∀ n, n ∈ g.ofKind .start ↔ n ∈ g.nodes ∧ n.kind = .start := by simp [ofKind]
  cases hstarts : g.ofKind .start with
  | nil =>
    refine absurd (fun n hn hkind => ?_) hsome
    have hstart := (hmem n).mpr ⟨hn, hkind⟩
    rw [hstarts] at hstart
    cases hstart
  | cons start rest =>
    rw [hstarts, List.tail_cons] at htail
    rw [hstarts, htail] at hmem
    refine ⟨start, (hmem start).mp List.mem_cons_self, fun n hn => ?_⟩
    exact List.mem_singleton.mp ((hmem n).mpr hn)

theorem wellFormed_of_not_breaks (h : ∀ v, ¬ g.Breaks v) : g.WellFormed where
  one_start := existsUnique_start (h .missingStart) fun n => h (.extraStart n)
  some_end := by
    by_contra hnone
    exact h .missingEnd fun n hn hkind => hnone ⟨n, hn, hkind⟩
  ends_exist e he := by
    obtain ⟨place, hplace⟩ := List.mem_iff_getElem?.mp he
    have hend : ∀ side, ∃ n ∈ g.nodes, n.id = e.endAt side := by
      intro side
      by_contra hnone
      exact h (.dangling e place side) ⟨hplace, fun n hn hid => hnone ⟨n, hn, hid⟩⟩
    exact ⟨hend .source, hend .target⟩
  none_into_start e he n hn hid hkind := by
    obtain ⟨place, hplace⟩ := List.mem_iff_getElem?.mp he
    exact h (.edgeIntoStart e place) ⟨hplace, n, hn, hid, hkind⟩
  none_out_of_end e he n hn hid hkind := by
    obtain ⟨place, hplace⟩ := List.mem_iff_getElem?.mp he
    exact h (.edgeOutOfEnd e place) ⟨hplace, n, hn, hid, hkind⟩
  connected n hn hstart hfinish := by
    constructor
    · by_contra hnone
      exact h (.noIncoming n) ⟨hn, hstart, hfinish, fun e he htarget => hnone ⟨e, he, htarget⟩⟩
    · by_contra hnone
      exact h (.noOutgoing n) ⟨hn, hstart, hfinish, fun e he hsource => hnone ⟨e, he, hsource⟩⟩
  ports_fit e he n hn hid := by
    obtain ⟨place, hplace⟩ := List.mem_iff_getElem?.mp he
    by_contra hbad
    exact h (.illegalPort e place n) ⟨hplace, hn, hid, hbad⟩
  condition_branches n hn hkind := by
    constructor
    · by_contra hnone
      exact h (.missingBranch n .whenTrue) ⟨hn, .inl ⟨hkind, .inl rfl⟩,
        fun e he hsource hport => hnone ⟨e, he, hsource, hport⟩⟩
    · by_contra hnone
      exact h (.missingBranch n .whenFalse) ⟨hn, .inl ⟨hkind, .inr rfl⟩,
        fun e he hsource hport => hnone ⟨e, he, hsource, hport⟩⟩
  loop_branches n hn hkind := by
    constructor
    · by_contra hnone
      exact h (.missingBranch n .body) ⟨hn, .inr ⟨hkind, .inl rfl⟩,
        fun e he hsource hport => hnone ⟨e, he, hsource, hport⟩⟩
    · by_contra hnone
      exact h (.missingBranch n .exit) ⟨hn, .inr ⟨hkind, .inr rfl⟩,
        fun e he hsource hport => hnone ⟨e, he, hsource, hport⟩⟩

/-- The graphs without errors are the well-formed ones, and the errors of any other are the ways in
which it is not well formed, each reported once. -/
theorem errors_eq_violations (hids : (g.nodes.map Node.id).Nodup) :
    (hasErrors g.findings = false ↔ g.WellFormed) ∧
      ∃ violations : List Violation, violations.Nodup ∧ (∀ v, v ∈ violations ↔ g.Breaks v) ∧
        g.findings.filter Finding.isError = violations.map Violation.finding := by
  have hreports := reports_errors hids
  refine ⟨?_, hreports⟩
  calc hasErrors g.findings = false
      ↔ g.findings.filter Finding.isError = [] := isErrorFree_iff_filter
    _ ↔ ∀ v, ¬ g.Breaks v := hreports.eq_nil_iff
    _ ↔ g.WellFormed := ⟨wellFormed_of_not_breaks, fun h v => h.not_breaks hids v⟩

/-- A draft with a second start, a branch that is missing, edges that lead out of the end, into the
start and to nodes that are not there, and one edge drawn twice. -/
def draft : Graph where
  nodes := [
    .ofStep "begin" .start .origin, .ofStep "again" .start .origin,
    .ofStep "choice" (.condition { expression := "ok" }) .origin,
    .ofStep "alone" (.task {}) .origin, .ofStep "done" .finish .origin]
  edges := [
    ⟨"e1", "begin", "choice", none⟩, ⟨"e2", "choice", "done", some .whenTrue⟩,
    ⟨"e3", "choice", "again", none⟩, ⟨"e3", "choice", "again", none⟩,
    ⟨"e4", "done", "choice", some .success⟩, ⟨"e5", "ghost", "ghost", some .body⟩]

theorem errors_eq_violations_draft :
    (draft.nodes.map Node.id).Nodup ∧ (hasErrors draft.findings = false ↔ draft.WellFormed) ∧
      ∃ violations : List Violation, violations.Nodup ∧ (∀ v, v ∈ violations ↔ draft.Breaks v) ∧
        draft.findings.filter Finding.isError = violations.map Violation.finding :=
  have hids : (draft.nodes.map Node.id).Nodup := by decide
  ⟨hids, errors_eq_violations hids⟩

example : draft.errorChecks.flatten.map (fun f => (f.topic, f.node, f.edge)) = [
    (.multipleStarts, some "again", none),
    (.edgeIntoStart, some "again", some "e3"), (.edgeIntoStart, some "again", some "e3"),
    (.edgeOutOfEnd, some "done", some "e4"),
    (.noIncomingEdge, some "alone", none), (.noOutgoingEdge, some "alone", none),
    (.missingBranch, some "choice", none),
    (.danglingEdge, none, some "e5"), (.danglingEdge, none, some "e5"),
    (.illegalPort, some "choice", some "e3"), (.illegalPort, some "choice", some "e3"),
    (.illegalPort, some "done", some "e4")] := by decide +kernel

end Graph

end Runbook
