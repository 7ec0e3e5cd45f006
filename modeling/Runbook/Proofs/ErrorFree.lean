import Mathlib.Data.List.Nodup
import Mathlib.Tactic.Common
import Runbook.Validation.Check

/-!
What the walks over a graph rest on. Six of the checks of a graph list nothing but errors and the
others list none, so in a graph whose findings hold no error each of the six lists nothing: there
is one start, the ends of an edge are nodes, and an edge names a port exactly if its source
branches, and then one that its source has. Distinct ids make a node the one that is found under
its id.
-/
namespace Runbook

def Topic.severity : Topic → Severity
  | missingStart | missingEnd | multipleStarts | edgeIntoStart | edgeOutOfEnd | noIncomingEdge
  | noOutgoingEdge | missingBranch | danglingEdge | illegalPort => .error
  | duplicatePort | fanOut | unreachable | cycleOutsideLoop | incompleteConfig
  | unresolvedResource | truncatedPath => .warning
  | noFailureBranch => .info

namespace Graph

variable {g : Graph}

theorem node?_of_mem (hids : (g.nodes.map Node.id).Nodup) {node : Node}
    (hnode : node ∈ g.nodes) : g.node? node.id = some node := by
  cases hfound : g.node? node.id with
  | none => simpa using List.find?_eq_none.mp hfound node hnode
  | some other =>
    have hid : other.id = node.id := by simpa using List.find?_some hfound
    have hother : other ∈ g.nodes := List.mem_of_find?_eq_some hfound
    exact congrArg some (List.inj_on_of_nodup_map hids hother hnode hid)

theorem mem_nodes_of_ofKind {kind : Kind} {node : Node} (h : g.ofKind kind = [node]) :
    node ∈ g.nodes := by
  have hnode : node ∈ g.ofKind kind := by simp [h]
  exact (List.mem_filter.mp hnode).1

def IsErrorFree (g : Graph) : Prop := hasErrors g.findings = false

def errorChecks (g : Graph) : List (List Finding) :=
  [g.startFindings, g.terminalFindings, g.connectionFindings, g.branchFindings,
    g.danglingFindings, g.portFindings]

def adviceChecks (g : Graph) : List (List Finding) :=
  [g.duplicateFindings, g.fanOutFindings, g.reachFindings, g.cycleFindings, g.stepFindings]

theorem findings_eq (g : Graph) :
    g.findings = g.errorChecks.flatten ++ g.adviceChecks.flatten := by
  simp [findings, errorChecks, adviceChecks]

def checks (g : Graph) : List (List Topic × List Finding) := [
  ([.missingStart, .missingEnd, .multipleStarts], g.startFindings),
  ([.edgeIntoStart, .edgeOutOfEnd], g.terminalFindings),
  ([.noIncomingEdge, .noOutgoingEdge], g.connectionFindings),
  ([.missingBranch], g.branchFindings),
  ([.danglingEdge], g.danglingFindings),
  ([.illegalPort], g.portFindings),
  ([.duplicatePort], g.duplicateFindings),
  ([.fanOut], g.fanOutFindings),
  ([.unreachable], g.reachFindings),
  ([.cycleOutsideLoop], g.cycleFindings),
  ([.incompleteConfig, .noFailureBranch], g.stepFindings)]

theorem findings_eq_flatMap (g : Graph) : g.findings = g.checks.flatMap Prod.snd := by
  simp [findings, checks]

/-- A check keeps to its topics, and a topic tells how serious a finding is. -/
theorem topic_of_mem_check {check : List Topic × List Finding} (hcheck : check ∈ g.checks)
    {f : Finding} (hf : f ∈ check.2) : f.topic ∈ check.1 ∧ f.severity = f.topic.severity := by
  simp only [checks, List.mem_cons, List.not_mem_nil, or_false] at hcheck
  rcases hcheck with rfl | rfl | rfl | rfl | rfl | rfl | rfl | rfl | rfl | rfl | rfl
  · simp only [startFindings, List.mem_append, List.mem_ite_nil_right, List.mem_singleton,
      List.mem_map] at hf
    rcases hf with (⟨_, rfl⟩ | ⟨_, rfl⟩) | ⟨n, _, rfl⟩ <;> exact ⟨by simp, rfl⟩
  · simp only [terminalFindings, List.mem_flatMap, List.mem_append, List.mem_ite_nil_right,
      List.mem_singleton] at hf
    obtain ⟨e, _, ⟨_, rfl⟩ | ⟨_, rfl⟩⟩ := hf <;> exact ⟨by simp, rfl⟩
  · simp only [connectionFindings, List.mem_flatMap, List.mem_append, List.mem_ite_nil_right,
      List.mem_singleton] at hf
    obtain ⟨n, _, ⟨_, rfl⟩ | ⟨_, rfl⟩⟩ := hf <;> exact ⟨by simp, rfl⟩
  · simp only [branchFindings, List.mem_flatMap, List.mem_map] at hf
    obtain ⟨n, _, port, _, rfl⟩ := hf
    exact ⟨by simp, rfl⟩
  · simp only [danglingFindings, List.mem_flatMap, List.mem_map] at hf
    obtain ⟨e, _, id, _, rfl⟩ := hf
    exact ⟨by simp, rfl⟩
  · obtain ⟨e, _, hf⟩ := List.mem_flatMap.mp hf
    split at hf
    · cases hf
    · obtain ⟨_, hf⟩ := List.mem_ite_nil_left.mp hf
      obtain rfl := List.mem_singleton.mp hf
      exact ⟨by simp, rfl⟩
  · simp only [duplicateFindings, List.mem_flatMap, List.mem_map] at hf
    obtain ⟨n, _, r, _, rfl⟩ := hf
    exact ⟨by simp, rfl⟩
  · simp only [fanOutFindings, List.mem_map] at hf
    obtain ⟨n, _, rfl⟩ := hf
    exact ⟨by simp, rfl⟩
  · unfold reachFindings at hf
    split at hf
    · cases hf
    · obtain ⟨n, _, rfl⟩ := List.mem_map.mp hf
      exact ⟨by simp, rfl⟩
  · simp only [cycleFindings, List.mem_ite_nil_right, List.mem_singleton] at hf
    obtain ⟨_, rfl⟩ := hf
    exact ⟨by simp, rfl⟩
  · simp only [stepFindings, List.mem_flatMap, List.mem_append, List.mem_map,
      List.mem_ite_nil_right, List.mem_singleton] at hf
    obtain ⟨n, _, ⟨gap, _, rfl⟩ | ⟨_, rfl⟩⟩ := hf <;> exact ⟨by simp, rfl⟩

/-- Findings on a topic on which one check reports alone are all that this check finds. -/
theorem filter_topic_findings {topic : Topic} {found : List Finding}
    (honly : (g.checks.filter fun check => topic ∈ check.1) = [([topic], found)]) :
    (g.findings.filter fun f => f.topic = topic) = found := by
  have hskip : ∀ checks : List (List Topic × List Finding), checks ⊆ g.checks →
      (checks.flatMap Prod.snd).filter (fun f => f.topic = topic) =
        ((checks.filter fun check => topic ∈ check.1).flatMap Prod.snd).filter
          fun f => f.topic = topic := by
    intro checks hchecks
    induction checks with
    | nil => rfl
    | cons check rest ih =>
      have hrest := ih (List.subset_of_cons_subset hchecks)
      rw [List.flatMap_cons, List.filter_append, hrest]
      by_cases htopic : topic ∈ check.1
      · rw [List.filter_cons_of_pos (by simpa using htopic), List.flatMap_cons,
          List.filter_append]
      · have hnone : check.2.filter (fun f => f.topic = topic) = [] := by
          refine List.filter_eq_nil_iff.mpr fun f hf heq => htopic ?_
          rw [← of_decide_eq_true heq]
          exact (topic_of_mem_check (hchecks List.mem_cons_self) hf).1
        rw [hnone, List.nil_append, List.filter_cons_of_neg (by simpa using htopic)]
  have hmem : ([topic], found) ∈ g.checks := by
    refine List.mem_of_mem_filter (p := fun check => decide (topic ∈ check.1)) ?_
    rw [honly]
    exact List.mem_singleton_self _
  rw [findings_eq_flatMap, hskip _ (List.Subset.refl _), honly, List.flatMap_singleton]
  refine List.filter_eq_self.mpr fun f hf => ?_
  simpa using (topic_of_mem_check hmem hf).1

/-- No finding is on a topic exactly if the one check that reports on it finds nothing. -/
theorem topic_not_found_iff {topic : Topic} {found : List Finding}
    (honly : (g.checks.filter fun check => topic ∈ check.1) = [([topic], found)]) :
    (∀ f ∈ g.findings, f.topic ≠ topic) ↔ found = [] := by
  rw [← filter_topic_findings honly, List.filter_eq_nil_iff]
  simp only [decide_eq_true_eq, ne_eq]

theorem isError_of_mem_errorChecks {check : List Finding} (hcheck : check ∈ g.errorChecks)
    {f : Finding} (hf : f ∈ check) : f.isError = true := by
  have hsplit : g.errorChecks = (g.checks.take 6).map Prod.snd := rfl
  rw [hsplit] at hcheck
  obtain ⟨c, hc, rfl⟩ := List.mem_map.mp hcheck
  have hfatal : ∀ c ∈ g.checks.take 6, ∀ topic ∈ c.1, topic.severity = .error := by
    simp [checks, Topic.severity]
  obtain ⟨htopic, hseverity⟩ := topic_of_mem_check (List.mem_of_mem_take hc) hf
  rw [Finding.isError, hseverity, hfatal c hc _ htopic]
  rfl

theorem not_isError_of_mem_adviceChecks {check : List Finding} (hcheck : check ∈ g.adviceChecks)
    {f : Finding} (hf : f ∈ check) : f.isError = false := by
  have hsplit : g.adviceChecks = (g.checks.drop 6).map Prod.snd := rfl
  rw [hsplit] at hcheck
  obtain ⟨c, hc, rfl⟩ := List.mem_map.mp hcheck
  have hmild : ∀ c ∈ g.checks.drop 6, ∀ topic ∈ c.1, topic.severity ≠ .error := by
    simp [checks, Topic.severity]
  obtain ⟨htopic, hseverity⟩ := topic_of_mem_check (List.mem_of_mem_drop hc) hf
  rw [Finding.isError, hseverity]
  exact decide_eq_false (hmild c hc _ htopic)

/-- A graph is free of errors if each check for errors lists nothing. -/
theorem isErrorFree_iff : g.IsErrorFree ↔ ∀ check ∈ g.errorChecks, check = [] := by
  unfold IsErrorFree hasErrors
  rw [findings_eq, List.any_eq_false]
  constructor
  · intro h check hcheck
    apply List.eq_nil_iff_forall_not_mem.mpr
    intro f hf
    exact h f (List.mem_append_left _ (List.mem_flatten_of_mem hcheck hf))
      (isError_of_mem_errorChecks hcheck hf)
  · intro h f hf
    rcases List.mem_append.mp hf with hf | hf
    · obtain ⟨check, hcheck, hf⟩ := List.mem_flatten.mp hf
      rw [h check hcheck] at hf
      simp at hf
    · obtain ⟨check, hcheck, hf⟩ := List.mem_flatten.mp hf
      simp [not_isError_of_mem_adviceChecks hcheck hf]

theorem startFindings_eq_nil_iff :
    g.startFindings = [] ↔ (∃ start, g.ofKind .start = [start]) ∧ g.ofKind .finish ≠ [] := by
  cases hstarts : g.ofKind .start with
  | nil => simp [startFindings, hstarts]
  | cons start rest => simp [startFindings, hstarts, and_comm]

namespace IsErrorFree

/-- There is one start. -/
theorem exists_start (h : g.IsErrorFree) : ∃ start, g.ofKind .start = [start] :=
  (startFindings_eq_nil_iff.mp (isErrorFree_iff.mp h _ (by simp [errorChecks]))).1

/-- Both ends of an edge are nodes. -/
theorem hasNode_of_mem (h : g.IsErrorFree) {e : Edge} (he : e ∈ g.edges) :
    g.hasNode e.source = true ∧ g.hasNode e.target = true := by
  have hnil : g.danglingFindings = [] := isErrorFree_iff.mp h _ (by simp [errorChecks])
  have hends := List.flatMap_eq_nil_iff.mp hnil e he
  simpa [List.filter_eq_nil_iff] using hends

theorem exists_target (h : g.IsErrorFree) {e : Edge} (he : e ∈ g.edges) :
    ∃ node, g.node? e.target = some node := by
  have hnode := (h.hasNode_of_mem he).2
  obtain ⟨node, hnode, hid⟩ : ∃ n ∈ g.nodes, n.id = e.target := by simpa [hasNode] using hnode
  exact Option.isSome_iff_exists.mp (List.find?_isSome.mpr ⟨node, hnode, by simpa using hid⟩)

/-- An edge names a port that its source has, and none if its source has none. -/
theorem accepts_port (h : g.IsErrorFree) {e : Edge} (he : e ∈ g.edges) {kind : Kind}
    (hkind : g.kind? e.source = some kind) : kind.accepts e.port = true := by
  have hnil : g.portFindings = [] := isErrorFree_iff.mp h _ (by simp [errorChecks])
  have hport := List.flatMap_eq_nil_iff.mp hnil e he
  simpa [hkind] using hport

/-- Distinct ids make the source of an edge out of a node that node. -/
theorem accepts_port_of_source (h : g.IsErrorFree) (hids : (g.nodes.map Node.id).Nodup)
    {node : Node} (hnode : node ∈ g.nodes) {e : Edge} (he : e ∈ g.edges)
    (hsource : e.source = node.id) : node.kind.accepts e.port = true := by
  apply h.accepts_port he
  simp [kind?, hsource, node?_of_mem hids hnode]

end IsErrorFree

end Graph

end Runbook
