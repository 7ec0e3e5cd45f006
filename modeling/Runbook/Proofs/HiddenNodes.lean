import Mathlib.Tactic.Common
import Runbook.Editor.Session
import Runbook.Proofs.DeadNodes
import Runbook.Proofs.SavedForms

/-!
Ids that are used twice. A node is added under an id of its own, but a graph from elsewhere comes
as it is, and no check asks whether its ids are distinct. An edge and an id on it mean the first
node of the id, so that later ones are hidden behind it. Some checks look at every node and judge a
hidden one by the edges of the node before it; which hidden nodes pass them is worked out here. The
walk comes to no hidden node but a start, so the others leave no trace in a script.
-/
namespace Runbook

/-- Two kinds with a port in common are the same. -/
theorem Kind.eq_of_mem_ports {kind other : Kind} {port : Port} (hport : port ∈ kind.ports)
    (hother : port ∈ other.ports) : kind = other := by
  have hall : ∀ kind ∈ all, ∀ other ∈ all, ∀ port ∈ kind.ports, port ∈ other.ports →
      kind = other := by decide
  exact hall kind kind.mem_all other other.mem_all port hport hother

namespace Graph

/-- The nodes of a list that are the first of their ids, where the ids of `seen` are taken. -/
def firstOfIds (seen : List NodeId) : List Node → List Node
  | [] => []
  | n :: rest =>
    if n.id ∈ seen then firstOfIds seen rest else n :: firstOfIds (n.id :: seen) rest

def laterOfIds (seen : List NodeId) : List Node → List Node
  | [] => []
  | n :: rest =>
    if n.id ∈ seen then n :: laterOfIds seen rest else laterOfIds (n.id :: seen) rest

def shown (g : Graph) : Graph := { g with nodes := firstOfIds [] g.nodes }

def hidden (g : Graph) : List Node := laterOfIds [] g.nodes

theorem mem_iff_mem_ofIds (seen : List NodeId) {nodes : List Node} {n : Node} :
    n ∈ nodes ↔ n ∈ firstOfIds seen nodes ∨ n ∈ laterOfIds seen nodes := by
  induction nodes generalizing seen with
  | nil => simp [firstOfIds, laterOfIds]
  | cons m rest ih =>
    rw [List.mem_cons, firstOfIds, laterOfIds]
    split
    · rw [ih seen, List.mem_cons]
      tauto
    · rw [ih (m.id :: seen), List.mem_cons]
      tauto

theorem find?_firstOfIds {seen : List NodeId} {id : NodeId} (hid : id ∉ seen)
    (nodes : List Node) :
    (firstOfIds seen nodes).find? (fun n => n.id = id) = nodes.find? fun n => n.id = id := by
  induction nodes generalizing seen with
  | nil => rfl
  | cons n rest ih =>
    rw [firstOfIds]
    by_cases hn : n.id = id
    · rw [if_neg (hn ▸ hid), List.find?_cons_of_pos (by simpa using hn),
        List.find?_cons_of_pos (by simpa using hn)]
    · rw [List.find?_cons_of_neg (by simpa using hn)]
      split
      · exact ih hid
      · rw [List.find?_cons_of_neg (by simpa using hn)]
        exact ih (by simpa [Ne.symm hn] using hid)

theorem firstOfIds_sublist (seen : List NodeId) (nodes : List Node) :
    (firstOfIds seen nodes).Sublist nodes := by
  induction nodes generalizing seen with
  | nil => exact .slnil
  | cons n rest ih =>
    rw [firstOfIds]
    split
    · exact (ih seen).cons n
    · exact (ih (n.id :: seen)).cons_cons n

theorem laterOfIds_eq_nil_iff (seen : List NodeId) (nodes : List Node) :
    laterOfIds seen nodes = [] ↔
      (nodes.map Node.id).Nodup ∧ ∀ n ∈ nodes, n.id ∉ seen := by
  induction nodes generalizing seen with
  | nil => simp [laterOfIds]
  | cons n rest ih =>
    rw [laterOfIds, List.map_cons, List.nodup_cons, List.forall_mem_cons]
    split
    · simp_all
    · rw [ih]
      simp only [List.mem_cons, List.mem_map]
      grind

section

variable {g : Graph}

theorem mem_nodes_iff {n : Node} : n ∈ g.nodes ↔ n ∈ g.shown.nodes ∨ n ∈ g.hidden :=
  mem_iff_mem_ofIds []

theorem forall_mem_nodes_iff {P : Node → Prop} :
    (∀ n ∈ g.nodes, P n) ↔ (∀ n ∈ g.shown.nodes, P n) ∧ ∀ n ∈ g.hidden, P n := by
  constructor
  · intro h
    exact ⟨fun n hn => h n (mem_nodes_iff.mpr (.inl hn)),
      fun n hn => h n (mem_nodes_iff.mpr (.inr hn))⟩
  · rintro ⟨hshown, hhidden⟩ n hn
    exact (mem_nodes_iff.mp hn).elim (hshown n) (hhidden n)

/-- Ids are distinct if no node is hidden. -/
theorem hidden_eq_nil_iff : g.hidden = [] ↔ (g.nodes.map Node.id).Nodup := by
  simp [hidden, laterOfIds_eq_nil_iff]

theorem node?_shown (id : NodeId) : g.shown.node? id = g.node? id :=
  find?_firstOfIds (by simp) g.nodes

theorem kind?_shown (id : NodeId) : g.shown.kind? id = g.kind? id := by
  rw [kind?, node?_shown, kind?]

theorem hasNode_eq_isSome (g : Graph) (id : NodeId) : g.hasNode id = (g.node? id).isSome := by
  rw [hasNode, node?, List.isSome_find?]

theorem hasNode_shown (id : NodeId) : g.shown.hasNode id = g.hasNode id := by
  rw [hasNode_eq_isSome, node?_shown, hasNode_eq_isSome]

structure Admits (g : Graph) (n : Node) : Prop where
  connected : n.kind ≠ .start → n.kind ≠ .finish → g.incoming n.id ≠ [] ∧ g.outgoing n.id ≠ []
  wired : n.kind = .condition ∨ n.kind = .loop →
    ∀ port ∈ n.kind.ports, g.isWired n.id port = true

theorem forall_admits_iff :
    (∀ n ∈ g.nodes, g.Admits n) ↔ g.connectionFindings = [] ∧ g.branchFindings = [] := by
  have hconnection : g.connectionFindings = [] ↔ ∀ n ∈ g.nodes,
      n.kind ≠ .start → n.kind ≠ .finish → g.incoming n.id ≠ [] ∧ g.outgoing n.id ≠ [] := by
    simp [connectionFindings, List.flatMap_eq_nil_iff]
  have hbranch : g.branchFindings = [] ↔ ∀ n ∈ g.nodes,
      n.kind = .condition ∨ n.kind = .loop → ∀ port ∈ n.kind.ports, g.isWired n.id port = true := by
    simp [branchFindings, List.flatMap_eq_nil_iff]
  rw [hconnection, hbranch]
  exact ⟨fun h => ⟨fun n hn => (h n hn).connected, fun n hn => (h n hn).wired⟩,
    fun h n hn => ⟨h.1 n hn, h.2 n hn⟩⟩

/-- What the checks ask of the edges, whatever nodes stand behind others. -/
structure EdgesFit (g : Graph) : Prop where
  terminal : g.terminalFindings = []
  dangling : g.danglingFindings = []
  port : g.portFindings = []

theorem edgesFit_shown_iff : g.shown.EdgesFit ↔ g.EdgesFit := by
  have hterminal : g.shown.terminalFindings = g.terminalFindings := by
    simp only [terminalFindings, kind?_shown]
    rfl
  have hdangling : g.shown.danglingFindings = g.danglingFindings := by
    simp only [danglingFindings, hasNode_shown]
    rfl
  have hport : g.shown.portFindings = g.portFindings := by
    simp only [portFindings, kind?_shown]
    rfl
  constructor
  · exact fun h => ⟨hterminal ▸ h.terminal, hdangling ▸ h.dangling, hport ▸ h.port⟩
  · exact fun h => ⟨hterminal ▸ h.terminal, hdangling ▸ h.dangling, hport ▸ h.port⟩

theorem isErrorFree_iff_admits :
    g.IsErrorFree ↔ ((∃ start, g.ofKind .start = [start]) ∧ g.ofKind .finish ≠ []) ∧
      g.EdgesFit ∧ ∀ n ∈ g.nodes, g.Admits n := by
  rw [isErrorFree_iff, forall_admits_iff, ← startFindings_eq_nil_iff]
  simp only [errorChecks, List.forall_mem_cons, List.not_mem_nil, IsEmpty.forall_iff,
    implies_true, and_true]
  constructor
  · rintro ⟨hstart, hterminal, hconnection, hbranch, hdangling, hport⟩
    exact ⟨hstart, ⟨hterminal, hdangling, hport⟩, hconnection, hbranch⟩
  · rintro ⟨hstart, hedges, hconnection, hbranch⟩
    exact ⟨hstart, hedges.terminal, hconnection, hbranch, hedges.dangling, hedges.port⟩

/-- Whether the checks let a node pass behind the first one of its id: if it is a start or an end,
or if the first is neither, and is of the same kind where both branches of that kind are asked
for. -/
def CanHide (g : Graph) (n : Node) : Prop :=
  n.kind = .start ∨ n.kind = .finish ∨
    ∃ kind, g.kind? n.id = some kind ∧ kind ≠ .start ∧ kind ≠ .finish ∧
      (n.kind = .condition ∨ n.kind = .loop → n.kind = kind)

namespace EdgesFit

variable {e : Edge}

theorem kind?_target (h : g.EdgesFit) (he : e ∈ g.edges) : g.kind? e.target ≠ some .start := by
  intro hkind
  have hnil := List.flatMap_eq_nil_iff.mp h.terminal e he
  simp [hkind] at hnil

theorem kind?_source (h : g.EdgesFit) (he : e ∈ g.edges) : g.kind? e.source ≠ some .finish := by
  intro hkind
  have hnil := List.flatMap_eq_nil_iff.mp h.terminal e he
  simp [hkind] at hnil

theorem mem_ports (h : g.EdgesFit) (he : e ∈ g.edges) {kind : Kind} {port : Port}
    (hkind : g.kind? e.source = some kind) (hport : e.port = some port) : port ∈ kind.ports := by
  have hnil := List.flatMap_eq_nil_iff.mp h.port e he
  simpa [hkind, hport, Kind.accepts] using hnil

/-- A hidden node is judged by the edges of the first node of its id, which fit that node. -/
theorem admits_iff_canHide (h : g.EdgesFit) {n first : Node} (hfirst : g.node? n.id = some first)
    (hadmits : g.Admits first) : g.Admits n ↔ g.CanHide n := by
  have hid : first.id = n.id := id_of_node? hfirst
  have hkind : g.kind? n.id = some first.kind := by
    rw [kind?, hfirst]
    rfl
  constructor
  · intro hn
    by_cases hstart : n.kind = .start
    · exact .inl hstart
    by_cases hfinish : n.kind = .finish
    · exact .inr (.inl hfinish)
    obtain ⟨hin, hout⟩ := hn.connected hstart hfinish
    obtain ⟨e, he⟩ := List.exists_mem_of_ne_nil _ hin
    obtain ⟨he, htarget⟩ : e ∈ g.edges ∧ e.target = n.id := by simpa [incoming] using he
    obtain ⟨d, hd⟩ := List.exists_mem_of_ne_nil _ hout
    obtain ⟨hd, hsource⟩ : d ∈ g.edges ∧ d.source = n.id := by simpa [outgoing] using hd
    refine .inr (.inr ⟨first.kind, hkind, ?_, ?_, fun hbranches => ?_⟩)
    · intro heq
      exact h.kind?_target he (by rw [htarget, hkind, heq])
    · intro heq
      exact h.kind?_source hd (by rw [hsource, hkind, heq])
    · -- One edge on a port of the hidden node settles the kind of the first one.
      obtain ⟨port, hport⟩ : ∃ port, port ∈ n.kind.ports := by
        rcases hbranches with hn | hn
        · exact ⟨.whenTrue, by simp [hn, Kind.ports]⟩
        · exact ⟨.body, by simp [hn, Kind.ports]⟩
      obtain ⟨b, hb, hbsource, hbport⟩ : ∃ b, b ∈ g.edges ∧ b.source = n.id ∧
          b.port = some port := by
        simpa [isWired, outgoing] using hn.wired hbranches port hport
      exact Kind.eq_of_mem_ports hport (h.mem_ports hb (by rw [hbsource, hkind]) hbport)
  · rintro (hstart | hfinish | ⟨kind, hsome, hstart, hfinish, hbranches⟩)
    · exact ⟨fun hne => absurd hstart hne, by simp [hstart]⟩
    · exact ⟨fun _ hne => absurd hfinish hne, by simp [hfinish]⟩
    · obtain rfl : first.kind = kind := Option.some.inj (hkind.symm.trans hsome)
      refine ⟨fun _ _ => hid ▸ hadmits.connected hstart hfinish, fun hn => ?_⟩
      have hsame := hbranches hn
      rw [hsame] at hn ⊢
      exact hid ▸ hadmits.wired hn

end EdgesFit

/-- Nothing but a missing start or end is wrong with a graph of at most one start if its edges fit
and its nodes have theirs. -/
theorem lacks_terminals_iff (hstarts : (g.ofKind .start).length ≤ 1) :
    (∀ f ∈ g.findings, f.isError = true → f.topic = .missingStart ∨ f.topic = .missingEnd) ↔
      g.EdgesFit ∧ ∀ n ∈ g.nodes, g.Admits n := by
  have hmem : ∀ f, f ∈ g.findings ∧ f.isError = true ↔ f ∈ g.errorChecks.flatten := by
    intro f
    rw [← filter_isError_findings, List.mem_filter]
  constructor
  · intro honly
    -- Only the first of the checks for errors reports on starts and ends.
    have hnil : ∀ check ∈ (g.checks.take 6).drop 1, check.2 = [] := by
      intro check hcheck
      have hchecks : check ∈ g.checks := List.mem_of_mem_take (List.mem_of_mem_drop hcheck)
      have hother : ∀ check ∈ (g.checks.take 6).drop 1, ∀ topic ∈ check.1,
          topic ≠ .missingStart ∧ topic ≠ .missingEnd := by simp [checks]
      refine List.eq_nil_iff_forall_not_mem.mpr fun f hf => ?_
      obtain ⟨hne, hne'⟩ := hother check hcheck _ (topic_of_mem_check hchecks hf).1
      have herror : f ∈ g.errorChecks.flatten := List.mem_flatten_of_mem
        (List.mem_map_of_mem (f := Prod.snd) (List.mem_of_mem_drop hcheck)) hf
      obtain ⟨hfound, herror⟩ := (hmem f).mpr herror
      exact (honly f hfound herror).elim hne hne'
    simp only [checks, List.take_succ_cons, List.take_zero, List.drop_succ_cons, List.drop_zero,
      List.forall_mem_cons, List.not_mem_nil, IsEmpty.forall_iff, implies_true, and_true] at hnil
    obtain ⟨hterminal, hconnection, hbranch, hdangling, hport⟩ := hnil
    exact ⟨⟨hterminal, hdangling, hport⟩, forall_admits_iff.mpr ⟨hconnection, hbranch⟩⟩
  · rintro ⟨hedges, hadmits⟩ f hf herror
    obtain ⟨hconnection, hbranch⟩ := forall_admits_iff.mp hadmits
    have hstart := (hmem f).mp ⟨hf, herror⟩
    simp only [errorChecks, hedges.terminal, hconnection, hbranch, hedges.dangling, hedges.port,
      List.flatten_cons, List.flatten_nil, List.append_nil, startFindings,
      List.drop_eq_nil_of_le hstarts, List.map_nil, List.mem_append, List.mem_ite_nil_right,
      List.mem_singleton] at hstart
    obtain ⟨-, rfl⟩ | ⟨-, rfl⟩ := hstart
    · exact .inl rfl
    · exact .inr rfl

/-- A graph is free of errors if it has one start and an end, nothing else is wrong with what it
shows, and every hidden node can hide. -/
theorem isErrorFree_iff_canHide :
    g.IsErrorFree ↔ ((∃ start, g.ofKind .start = [start]) ∧ g.ofKind .finish ≠ []) ∧
      (∀ f ∈ g.shown.findings, f.isError = true →
        f.topic = .missingStart ∨ f.topic = .missingEnd) ∧
      ∀ n ∈ g.hidden, g.CanHide n := by
  rw [isErrorFree_iff_admits]
  refine and_congr_right fun hterminals => ?_
  obtain ⟨⟨start, hstart⟩, -⟩ := hterminals
  have hshown : (g.shown.ofKind .start).length ≤ 1 := by
    have hsublist : (g.shown.ofKind .start).Sublist (g.ofKind .start) :=
      (firstOfIds_sublist [] g.nodes).filter _
    simpa [hstart] using hsublist.length_le
  have hsame : ∀ n, g.shown.Admits n ↔ g.Admits n :=
    fun n => ⟨fun h => ⟨h.connected, h.wired⟩, fun h => ⟨h.connected, h.wired⟩⟩
  rw [lacks_terminals_iff hshown, edgesFit_shown_iff, and_assoc]
  refine and_congr_right fun hedges => ?_
  rw [forall_mem_nodes_iff]
  simp only [hsame]
  -- What is left to compare are the hidden nodes, each with the first node of its id.
  refine and_congr_right fun hadmits => forall₂_congr fun n hn => ?_
  obtain ⟨first, hfirst⟩ : ∃ first, g.node? n.id = some first := by
    have hhas : g.hasNode n.id = true :=
      List.any_eq_true.mpr ⟨n, mem_nodes_iff.mpr (.inr hn), by simp⟩
    exact Option.isSome_iff_exists.mp (g.hasNode_eq_isSome n.id ▸ hhas)
  refine hedges.admits_iff_canHide hfirst (hadmits first ?_)
  exact mem_nodes_of_node? ((node?_shown n.id).trans hfirst)

end

end Graph

namespace Compiler

/-- What two graphs hide shows in no script, but for a start. -/
theorem compile_eq_of_shown_eq {g g' : Graph} (hedges : g'.edges = g.edges)
    (hshown : g'.shown = g.shown) (hstarts : g'.ofKind .start = g.ofKind .start)
    (hfree : g.IsErrorFree) (hfree' : g'.IsErrorFree) (c : Compiler) (resolver : Resolver) :
    c.compile g' resolver = c.compile g resolver := by
  have hagree : Graph.AgreeOn (fun _ => True) g g' := by
    refine .everywhere (fun id => ?_) fun id => ?_
    · rw [← Graph.node?_shown, hshown, Graph.node?_shown]
    · rw [Graph.outgoing, Graph.outgoing, hedges]
  obtain ⟨start, hstart⟩ := hfree.exists_start
  exact hagree.compile_eq hfree hfree' hstart (hstarts.trans hstart) trivial c resolver

/-- No check asks for distinct ids. A graph comes into a session and from a file as it is, whatever
it hides, and it is free of errors if it has one start and an end, nothing else is wrong with what
it shows, and its hidden nodes are of those that pass the checks of each node. Ids are distinct
exactly if no node is hidden, but no script tells one error-free graph from another that shows the
same and has the same start. -/
theorem hidden_nodes_go_unnoticed (g : Graph) :
    (g.hidden = [] ↔ (g.nodes.map Node.id).Nodup) ∧
    (hasErrors g.findings = false ↔
      ((∃ start, g.ofKind .start = [start]) ∧ g.ofKind .finish ≠ []) ∧
      (∀ f ∈ g.shown.findings, f.isError = true →
        f.topic = .missingStart ∨ f.topic = .missingEnd) ∧
      ∀ n ∈ g.hidden, g.CanHide n) ∧
    (hasErrors g.findings = false → ∀ g' : Graph, g'.edges = g.edges → g'.shown = g.shown →
      g'.ofKind .start = g.ofKind .start → hasErrors g'.findings = false →
      ∀ (c : Compiler) (resolver : Resolver), c.compile g' resolver = c.compile g resolver) ∧
    (Session.ofGraph g).graph = g ∧
    ∀ (w : Saved) (read : CommandLine.Reader) (path text : String), w.graph = g →
      text ∈ [Graph.format.compact g, Graph.format.pretty g,
        Saved.format.compact w, Saved.format.pretty w] →
      read path = .ok text → CommandLine.loadGraph read path = .ok g := by
  refine ⟨Graph.hidden_eq_nil_iff, Graph.isErrorFree_iff_canHide, ?_, ?_, ?_⟩
  · intro hfree g' hedges hshown hstarts hfree'
    exact compile_eq_of_shown_eq hedges hshown hstarts hfree hfree'
  · rfl
  · rintro w read path text rfl htext hread
    exact CommandLine.loadGraph_text htext hread

end Compiler

def Graph.twins : Graph where
  nodes := [
    .ofStep "begin" .start .origin,
    .ofStep "save" (.task { action := some "save" }) .origin,
    .ofStep "save" (.task { action := some "erase" }) .origin,
    .ofStep "done" .finish .origin]
  edges := [⟨"e1", "begin", "save", none⟩, ⟨"e2", "save", "done", none⟩]

theorem Graph.hasStrayCycle_twins : twins.hasStrayCycle = false := by
  have hpeel : twins.peel twins.startCounters twins.startQueue [] =
      some ["begin", "save", "done"] := by
    have hqueue : twins.startQueue = ["begin"] := by decide +kernel
    rw [hqueue, peel_cons]
    decide +kernel
  rw [hasStrayCycle, hpeel]
  decide

def Graph.twinsTree : Visit :=
  .mk (.ofStep "begin" .start .origin) (.onward ⟨"e1", "begin", "save", none⟩
    (.mk (.ofStep "save" (.task { action := some "save" }) .origin)
      (.onward ⟨"e2", "save", "done", none⟩ (.mk (.ofStep "done" .finish .origin) .nil) .nil))
    .nil)

namespace Compiler

theorem hidden_nodes_go_unnoticed_twins :
    Graph.twins.hidden = [.ofStep "save" (.task { action := some "erase" }) .origin] ∧
    hasErrors Graph.twins.findings = false ∧ hasErrors Graph.twins.shown.findings = false ∧
    ∀ (c : Compiler) (resolver : Resolver),
      c.compile .twins resolver = c.compile Graph.twins.shown resolver := by
  have hhidden : Graph.twins.hidden =
      [.ofStep "save" (.task { action := some "erase" }) .origin] := by decide
  have hfree' : Graph.twins.shown.IsErrorFree := Graph.isErrorFree_iff.mpr (by decide +kernel)
  have hfree : hasErrors Graph.twins.findings = false := by
    refine (hidden_nodes_go_unnoticed .twins).2.1.mpr ⟨⟨⟨_, rfl⟩, by decide⟩, ?_, ?_⟩
    · exact fun f hf herror => absurd herror (List.any_eq_false.mp hfree' f hf)
    · rw [hhidden]
      intro n hn
      obtain rfl := List.mem_singleton.mp hn
      exact .inr (.inr ⟨.task, by decide, by decide, by decide, by decide⟩)
  refine ⟨hhidden, hfree, hfree', ?_⟩
  exact (hidden_nodes_go_unnoticed Graph.twins.shown).2.2.1 hfree' .twins rfl rfl rfl hfree

/-- The twins have no finding at all, though an id is used twice, and their script has one step for
that id and nothing to tell. -/
theorem repeated_id_without_finding :
    ¬ (Graph.twins.nodes.map Node.id).Nodup ∧ Graph.twins.findings = [] ∧
    ∃ bytes script, (⟨.standard, { maxBytes := bytes }⟩ : Compiler).compile .twins
        ({} : Inventory).resolver = .ok script ∧
      script.steps.map ScriptStep.outline =
        [("begin", [], 0), ("save", ["begin"], 0), ("done", ["save"], 0)] ∧
      script.diagnostics = [] := by
  have hreach : Graph.twins.reachFindings = [] := by cbv
  have hfindings : Graph.twins.findings = [] := by
    rw [Graph.findings, hreach, Graph.cycleFindings, Graph.hasStrayCycle_twins]
    decide +kernel
  have hfree : Graph.twins.IsErrorFree := by
    rw [Graph.IsErrorFree, hfindings]
    rfl
  have hvisit : ∀ bytes, Graph.twins.visit ⟨some 10000, some 64, some bytes⟩
      (.ofStep "begin" .start .origin) = .ok Graph.twinsTree := fun _ => by cbv
  refine ⟨by decide, hfindings,
    (({} : Compiler).scriptOf ({} : Inventory).resolver Graph.twinsTree).byteSize, _,
    compile_eq_ok_iff.mpr ⟨hfree, _, _, rfl, hvisit _, rfl, Nat.le_refl _⟩, ?_, ?_⟩
  · simp [scriptOf, Script.ofWalk, Graph.twinsTree, Visit.steps, Exits.steps, ScriptStep.outline,
      depthBehind, Node.opensArm, Node.kind, Node.ofStep, Step.kind, Kind.isBranching, Kind.ports]
  · decide

end Compiler

end Runbook
