import Mathlib.Tactic.Common
import Runbook.Proofs.BackEdges

/-!
What comes of the shape of a graph alone. The ids and the kinds of the nodes and the edges between
them decide which errors a graph has, where the walk goes, which limit it breaks, which steps a
script has and where it warns of a turn; what the nodes hold beside shows in texts and other
warnings only, and where they stand on the drawing surface shows nowhere. A map of nodes that
leaves the shape alone commutes with every look-up, and so with the walk: the tree of the mapped
graph is the mapped tree. Two graphs of one shape become the same graph under such a map.
-/
namespace Runbook

namespace Node

def shape (node : Node) : NodeId × Kind := (node.id, node.kind)

def ofShape (shape : NodeId × Kind) : Node := .ofStep shape.1 (.ofKind shape.2) .origin

def bare (node : Node) : Node := ofShape node.shape

def unplaced (node : Node) : Node := { node with position := .origin }

/-- A map of nodes that the walk does not notice. -/
structure KeepsShape (f : Node → Node) : Prop where
  id : ∀ node, (f node).id = node.id
  kind : ∀ node, (f node).kind = node.kind

theorem keepsShape_bare : KeepsShape bare := ⟨fun _ => rfl, fun node => Step.kind_ofKind node.kind⟩

theorem keepsShape_unplaced : KeepsShape unplaced := ⟨fun _ => rfl, fun _ => rfl⟩

theorem KeepsShape.opensArm {f : Node → Node} (hf : KeepsShape f) (node : Node) (e : Edge) :
    (f node).opensArm e = node.opensArm e := by
  rw [Node.opensArm, Node.opensArm, hf.kind]

end Node

mutual

def Visit.mapNodes (f : Node → Node) : Visit → Visit
  | .mk node exits => .mk (f node) (exits.mapNodes f)

def Exits.mapNodes (f : Node → Node) : Exits → Exits
  | .nil => .nil
  | .onward e visit rest => .onward e (visit.mapNodes f) (rest.mapNodes f)
  | .stopped e stop rest => .stopped e stop (rest.mapNodes f)

end

section

variable {f : Node → Node} (hf : Node.KeepsShape f)

include hf

theorem loopsBehind_mapNodes (loops : List NodeId) (node : Node) (e : Edge) :
    loopsBehind loops (f node) e = loopsBehind loops node e := by
  rw [loopsBehind, loopsBehind, hf.kind, hf.id]

theorem depthBehind_mapNodes (depth : Nat) (node : Node) (e : Edge) :
    depthBehind depth (f node) e = depthBehind depth node e := by
  rw [depthBehind, depthBehind, hf.opensArm]

end

namespace Graph

def mapNodes (f : Node → Node) (g : Graph) : Graph := { g with nodes := g.nodes.map f }

section

variable {f : Node → Node} (hf : Node.KeepsShape f) (g : Graph)

include hf

theorem node?_mapNodes (id : NodeId) : (g.mapNodes f).node? id = (g.node? id).map f := by
  simp only [node?, mapNodes, List.find?_map, Function.comp_def, hf.id]

theorem hasNode_mapNodes (id : NodeId) : (g.mapNodes f).hasNode id = g.hasNode id := by
  simp [hasNode, mapNodes, List.any_map, Function.comp_def, hf.id]

theorem kind?_mapNodes (id : NodeId) : (g.mapNodes f).kind? id = g.kind? id := by
  simp [kind?, node?_mapNodes hf, Function.comp_def, hf.kind]

theorem filter_nodes_mapNodes (p : Kind → Bool) :
    ((g.mapNodes f).nodes.filter fun n => p n.kind) = (g.nodes.filter fun n => p n.kind).map f := by
  simp [mapNodes, List.filter_map, Function.comp_def, hf.kind]

theorem ofKind_mapNodes (kind : Kind) : (g.mapNodes f).ofKind kind = (g.ofKind kind).map f :=
  g.filter_nodes_mapNodes hf fun k => k = kind

theorem liveEdges_mapNodes (node : Node) :
    (g.mapNodes f).liveEdges (f node) = g.liveEdges node := by
  simp only [liveEdges, hf.kind, hf.id]
  rfl

theorem errorChecks_mapNodes : (g.mapNodes f).errorChecks = g.errorChecks := by
  have hstart : (g.mapNodes f).startFindings = g.startFindings := by
    simp [startFindings, ofKind_mapNodes hf, ← List.map_drop, Function.comp_def, hf.id]
  have hterminal : (g.mapNodes f).terminalFindings = g.terminalFindings := by
    simp only [terminalFindings, kind?_mapNodes hf]
    rfl
  have hconnection : (g.mapNodes f).connectionFindings = g.connectionFindings := by
    have hfilter := g.filter_nodes_mapNodes hf fun k => k ≠ .start ∧ k ≠ .finish
    rw [connectionFindings, hfilter, List.flatMap_map]
    simp only [hf.id]
    rfl
  have hbranch : (g.mapNodes f).branchFindings = g.branchFindings := by
    have hfilter := g.filter_nodes_mapNodes hf fun k => k = .condition ∨ k = .loop
    rw [branchFindings, hfilter, List.flatMap_map]
    simp only [hf.id, hf.kind]
    rfl
  have hdangling : (g.mapNodes f).danglingFindings = g.danglingFindings := by
    simp only [danglingFindings, hasNode_mapNodes hf]
    rfl
  have hport : (g.mapNodes f).portFindings = g.portFindings := by
    simp only [portFindings, kind?_mapNodes hf]
    rfl
  simp only [errorChecks, hstart, hterminal, hconnection, hbranch, hdangling, hport]

theorem errors_mapNodes :
    (g.mapNodes f).findings.filter Finding.isError = g.findings.filter Finding.isError := by
  rw [filter_isError_findings, filter_isError_findings, errorChecks_mapNodes hf]

theorem reachFrom_mapNodes (reached queue : List NodeId) :
    (g.mapNodes f).reachFrom reached queue = g.reachFrom reached queue := by
  have hfresh : ∀ reached id, (g.mapNodes f).fresh reached id = g.fresh reached id := by
    intro reached id
    have hhas : (g.mapNodes f).hasNode = g.hasNode := funext (g.hasNode_mapNodes hf)
    simp only [fresh, successors, hhas]
    rfl
  -- The recursion is that of the graph before the map: what is fresh ends it in the same places.
  induction reached, queue using reachFrom.induct g with
  | case1 reached => rw [reachFrom, reachFrom]
  | case2 reached id queue hnone ih =>
    rw [reachFrom, dif_pos ((hfresh reached id).trans hnone), ih]
    conv_rhs => rw [reachFrom, dif_pos hnone]
  | case3 reached id queue hsome ih =>
    rw [reachFrom, dif_neg ((hfresh reached id) ▸ hsome), hfresh, ih]
    conv_rhs => rw [reachFrom, dif_neg hsome]

omit hf in
theorem peel_mapNodes (counters : List (NodeId × Nat)) (queue removed : List NodeId) :
    (g.mapNodes f).peel counters queue removed = g.peel counters queue removed := by
  induction counters, queue, removed using peel.induct g with
  | case1 counters removed => rw [peel, peel]
  | case2 counters removed id queue hnone =>
    rw [peel_cons, peel_cons, hnone, Option.bind_none]
    exact congrArg (Option.bind · _) hnone
  | case3 counters removed id queue later after hsome ih =>
    rw [peel_cons, peel_cons, hsome, Option.bind_some, ← ih]
    exact congrArg (Option.bind · _) hsome

theorem hasStrayCycle_mapNodes : (g.mapNodes f).hasStrayCycle = g.hasStrayCycle := by
  have hids : (g.mapNodes f).plainIds = g.plainIds := by
    have hfilter := g.filter_nodes_mapNodes hf fun k => k ≠ .loop
    rw [plainIds, hfilter, List.map_map]
    simp only [Function.comp_def, hf.id]
    rfl
  simp only [hasStrayCycle, startQueue, startCounters, hids, peel_mapNodes]
  rfl

/-- Which steps have gaps is a matter of their settings, and all other findings are one of shape. -/
theorem findings_mapNodes (hsettings : ∀ node, (f node).settings = node.settings) :
    (g.mapNodes f).findings = g.findings := by
  have hduplicate : (g.mapNodes f).duplicateFindings = g.duplicateFindings := by
    rw [duplicateFindings, g.filter_nodes_mapNodes hf Kind.isBranching, List.flatMap_map]
    simp only [hf.id]
    rfl
  have hfan : (g.mapNodes f).fanOutFindings = g.fanOutFindings := by
    simp [fanOutFindings, mapNodes, List.filter_map, Function.comp_def, hf.id, hf.kind, outgoing]
  have hreach : (g.mapNodes f).reachFindings = g.reachFindings := by
    have hreached : ∀ id, (g.mapNodes f).reach id = g.reach id :=
      fun id => g.reachFrom_mapNodes hf [id] [id]
    simp only [reachFindings, ofKind_mapNodes hf, List.head?_map, hreached]
    cases (g.ofKind .start).head? with
    | none => rfl
    | some start => simp [mapNodes, List.filter_map, Function.comp_def, hf.id, hf.kind]
  have hcycle : (g.mapNodes f).cycleFindings = g.cycleFindings := by
    rw [cycleFindings, hasStrayCycle_mapNodes hf, cycleFindings]
  have hstep : (g.mapNodes f).stepFindings = g.stepFindings := by
    rw [stepFindings, mapNodes, List.flatMap_map]
    simp only [hf.id, hf.kind, hsettings]
    rfl
  rw [findings_eq, findings_eq, errorChecks_mapNodes hf]
  simp only [adviceChecks, hduplicate, hfan, hreach, hcycle, hstep]

/-- The walk in the mapped graph is the mapped walk, also where it breaks off, under all limits with
the same bounds on steps and depth. -/
theorem exits_mapNodes {limits limits' : Limits} (hsteps : limits'.steps = limits.steps)
    (hdepth : limits'.depth = limits.depth) (path loops : List NodeId) (depth : Nat) (last : Node)
    (edges : List Edge) (count : Nat) :
    (g.mapNodes f).exits limits' path loops depth (f last) edges count =
      (g.exits limits path loops depth last edges count).map fun r => (r.1.mapNodes f, r.2) := by
  have harm : ∀ depth last e, checkArm limits' depth (f last) e = checkArm limits depth last e := by
    intro depth last e
    rw [checkArm, checkArm, hf.opensArm, hdepth]
  induction path, loops, depth, last, edges, count using Graph.exits.induct g with
  | case1 path loops depth last count =>
    rw [Graph.exits, Graph.exits]
    rfl
  | case2 path loops depth last count e rest ihrest ihbehind ihothers =>
    by_cases hseen : e.target ∈ path
    · rw [exits_cons_seen (g.mapNodes f) limits' loops depth (f last) rest count hseen,
        exits_cons_seen g limits loops depth last rest count hseen, ihrest, harm,
        loopsBehind_mapNodes hf]
      cases checkArm limits depth last e with
      | error _ => rfl
      | ok _ => cases g.exits limits path loops depth last rest count <;> rfl
    · cases hnode : g.node? e.target with
      | none =>
        have hmapped : (g.mapNodes f).node? e.target = none := by
          rw [node?_mapNodes hf, hnode]
          rfl
        rw [exits_cons_nowhere (g.mapNodes f) limits' loops depth (f last) rest count hseen hmapped,
          exits_cons_nowhere g limits loops depth last rest count hseen hnode, ihrest, harm]
        cases checkArm limits depth last e with
        | error _ => rfl
        | ok _ => cases g.exits limits path loops depth last rest count <;> rfl
      | some node =>
        have hmapped : (g.mapNodes f).node? e.target = some (f node) := by
          rw [node?_mapNodes hf, hnode]
          rfl
        rw [exits_cons_onward (g.mapNodes f) limits' loops depth (f last) rest count hseen hmapped,
          exits_cons_onward g limits loops depth last rest count hseen hnode, harm, hsteps, hf.id,
          liveEdges_mapNodes hf, loopsBehind_mapNodes hf, depthBehind_mapNodes hf,
          ihbehind hseen node hnode]
        cases checkArm limits depth last e with
        | error _ => rfl
        | ok _ =>
          cases checkBound limits.steps .tooManySteps (count + 1) with
          | error _ => rfl
          | ok _ =>
            cases g.exits limits (node.id :: path) (loopsBehind loops last e)
                (depthBehind depth last e) node (g.liveEdges node) (count + 1) with
            | error _ => rfl
            | ok behind =>
              -- The edges after this one go on from the count that the walk behind it came to.
              show ((g.mapNodes f).exits limits' path loops depth (f last) rest behind.2 >>= _) = _
              rw [ihothers behind.2]
              cases hothers : g.exits limits path loops depth last rest behind.2 with
              | error _ => simp [bind, Except.bind, Except.map, hothers]
              | ok _ =>
                simp [bind, Except.bind, Except.map, hothers, Exits.mapNodes, Visit.mapNodes]

theorem visit_mapNodes {limits limits' : Limits} (hsteps : limits'.steps = limits.steps)
    (hdepth : limits'.depth = limits.depth) (start : Node) :
    (g.mapNodes f).visit limits' (f start) = (g.visit limits start).map (Visit.mapNodes f) := by
  rw [visit, visit, hsteps, hf.id, liveEdges_mapNodes hf, exits_mapNodes hf g hsteps hdepth]
  cases checkBound limits.steps .tooManySteps 1 with
  | error _ => rfl
  | ok _ => cases g.exits limits [start.id] [] 0 start (g.liveEdges start) 1 <;> rfl

end

end Graph

mutual

theorem Visit.turns_mapNodes (f : Node → Node) (visit : Visit) :
    (visit.mapNodes f).turns = visit.turns := by
  cases visit with
  | mk node exits => exact exits.turns_mapNodes f

theorem Exits.turns_mapNodes (f : Node → Node) (exits : Exits) :
    (exits.mapNodes f).turns = exits.turns := by
  cases exits with
  | nil => rfl
  | onward e visit rest =>
    rw [Exits.mapNodes, Exits.turns, Exits.turns, visit.turns_mapNodes, rest.turns_mapNodes]
  | stopped e stop rest => rw [Exits.mapNodes, Exits.turns, Exits.turns, rest.turns_mapNodes]

end

section

variable {f : Node → Node} (hf : Node.KeepsShape f)

include hf

theorem blockText_mapNodes (own : Node → String) (indent : String) (node : Node) (depth : Nat)
    (behind : Behind) :
    blockText own indent (f node) depth behind = blockText (own ∘ f) indent node depth behind := by
  rw [blockText, blockText, hf.kind, hf.id]
  rfl

mutual

theorem Visit.steps_mapNodes (own : Node → String) (indent : String) (parent : Option NodeId)
    (depth : Nat) (visit : Visit) :
    (visit.mapNodes f).steps own indent parent depth =
      visit.steps (own ∘ f) indent parent depth := by
  cases visit with
  | mk node exits =>
    rw [Visit.mapNodes, Visit.steps, Visit.steps, exits.steps_mapNodes, hf.id,
      blockText_mapNodes hf]

theorem Exits.steps_mapNodes (own : Node → String) (indent : String) (last : Node) (depth : Nat)
    (exits : Exits) :
    (exits.mapNodes f).steps own indent (f last) depth =
      exits.steps (own ∘ f) indent last depth := by
  cases exits with
  | nil => rfl
  | onward e visit rest =>
    rw [Exits.mapNodes, Exits.steps, Exits.steps, visit.steps_mapNodes, rest.steps_mapNodes, hf.id,
      depthBehind_mapNodes hf]
  | stopped e stop rest => rw [Exits.mapNodes, Exits.steps, Exits.steps, rest.steps_mapNodes]

end

end

mutual

theorem Visit.notes_mapNodes {f : Node → Node} (hid : ∀ node, (f node).id = node.id)
    (hsettings : ∀ node, (f node).settings = node.settings) (resolver : Resolver)
    (visit : Visit) : (visit.mapNodes f).notes resolver = visit.notes resolver := by
  cases visit with
  | mk node exits =>
    rw [Visit.mapNodes, Visit.notes, Visit.notes, exits.notes_mapNodes hid hsettings, hsettings,
      hid]

theorem Exits.notes_mapNodes {f : Node → Node} (hid : ∀ node, (f node).id = node.id)
    (hsettings : ∀ node, (f node).settings = node.settings) (resolver : Resolver)
    (exits : Exits) : (exits.mapNodes f).notes resolver = exits.notes resolver := by
  cases exits with
  | nil => rfl
  | onward e visit rest =>
    rw [Exits.mapNodes, Exits.notes, Exits.notes, visit.notes_mapNodes hid hsettings,
      rest.notes_mapNodes hid hsettings]
  | stopped e stop rest =>
    have hrest := rest.notes_mapNodes hid hsettings resolver
    cases stop with
    | turnsBack => exact congrArg (Note.turnsBack e.id e.source e.target :: ·) hrest
    | nextRound => exact hrest
    | nowhere => exact hrest

end

mutual

/-- Which steps there are does not depend on their texts. -/
theorem Visit.outline_steps (own own' : Node → String) (indent indent' : String)
    (parent : Option NodeId) (depth : Nat) (visit : Visit) :
    (visit.steps own indent parent depth).map ScriptStep.outline =
      (visit.steps own' indent' parent depth).map ScriptStep.outline := by
  cases visit with
  | mk node exits =>
    rw [Visit.steps, Visit.steps, List.map_cons, List.map_cons,
      exits.outline_steps own own' indent indent' node depth]
    simp only [ScriptStep.outline]

theorem Exits.outline_steps (own own' : Node → String) (indent indent' : String) (last : Node)
    (depth : Nat) (exits : Exits) :
    ((exits.steps own indent last depth).flatMap Prod.snd).map ScriptStep.outline =
      ((exits.steps own' indent' last depth).flatMap Prod.snd).map ScriptStep.outline := by
  cases exits with
  | nil => rfl
  | onward e visit rest =>
    rw [Exits.steps, Exits.steps, List.flatMap_cons, List.flatMap_cons, List.map_append,
      List.map_append, visit.outline_steps own own' indent indent',
      rest.outline_steps own own' indent indent']
  | stopped e stop rest =>
    rw [Exits.steps, Exits.steps, List.flatMap_cons, List.flatMap_cons]
    exact rest.outline_steps own own' indent indent' last depth

end

/-- Outcomes of two compilations that differ in texts at most, and in advice on the graph. -/
inductive SameUpToTexts : Except CompileError Script → Except CompileError Script → Prop
  | refused {findings findings' : List Finding}
      (herrors : findings.filter Finding.isError = findings'.filter Finding.isError) :
      SameUpToTexts (.error (.notCompilable findings)) (.error (.notCompilable findings'))
  | limit (e : LimitError) : SameUpToTexts (.error (.limit e)) (.error (.limit e))
  | made {script script' : Script}
      (hsteps : script.steps.map ScriptStep.outline = script'.steps.map ScriptStep.outline)
      (hturns : script.diagnostics.filter (fun f => f.topic = .truncatedPath) =
        script'.diagnostics.filter fun f => f.topic = .truncatedPath) :
      SameUpToTexts (.ok script) (.ok script')

namespace Compiler

/-- Whether a compilation does not fail on the bytes of its texts. -/
def HasRoom (c : Compiler) (g : Graph) (resolver : Resolver) : Prop :=
  ∀ bytes, c.compile g resolver ≠ .error (.limit (.tooManyBytes bytes))

theorem HasRoom.compile_eq_ok {c : Compiler} {g : Graph} {resolver : Resolver} {start : Node}
    {visit : Visit} (hroom : c.HasRoom g resolver) (hfree : g.IsErrorFree)
    (hstart : g.ofKind .start = [start]) (hvisit : g.visit c.options.limits start = .ok visit) :
    c.compile g resolver = .ok (c.scriptOf resolver visit) := by
  have hmade := c.compile_of_visit resolver hfree hstart hvisit
  split at hmade
  · exact hmade
  · exact absurd hmade (hroom _)

/-- Where nodes are drawn shows in no script. -/
theorem compile_mapNodes_unplaced (c : Compiler) (g : Graph) (resolver : Resolver) :
    c.compile (g.mapNodes Node.unplaced) resolver = c.compile g resolver := by
  have hfindings : (g.mapNodes Node.unplaced).findings = g.findings :=
    g.findings_mapNodes Node.keepsShape_unplaced fun _ => rfl
  have hscript : ∀ start : Node,
      c.scriptFrom c.options.limits (g.mapNodes Node.unplaced) resolver start.unplaced =
        c.scriptFrom c.options.limits g resolver start := by
    intro start
    have hplaced : (g.mapNodes Node.unplaced).visit c.options.limits start.unplaced =
        (g.visit c.options.limits start).map (Visit.mapNodes Node.unplaced) :=
      g.visit_mapNodes Node.keepsShape_unplaced rfl rfl start
    cases hvisit : g.visit c.options.limits start with
    | error e =>
      rw [hvisit] at hplaced
      rw [scriptFrom, scriptFrom, hvisit, hplaced]
      rfl
    | ok visit =>
      rw [hvisit] at hplaced
      have hsame : c.scriptOf resolver (visit.mapNodes Node.unplaced) =
          c.scriptOf resolver visit := by
        rw [scriptOf, scriptOf, Script.ofWalk, Script.ofWalk,
          visit.notes_mapNodes Node.keepsShape_unplaced.id fun _ => rfl,
          visit.steps_mapNodes Node.keepsShape_unplaced]
        rfl
      rw [c.scriptFrom_of_visit resolver hvisit, c.scriptFrom_of_visit resolver hplaced, hsame]
  rw [compile, compileWithin, compile, compileWithin, hfindings,
    g.ofKind_mapNodes Node.keepsShape_unplaced]
  cases g.ofKind .start with
  | nil => rfl
  | cons start rest => simp only [List.map_cons, List.head?_cons, hscript]

/-- Scripts of trees of the same shape differ in texts at most. -/
theorem sameUpToTexts_scriptOf {visit visit' : Visit}
    (hvisit : visit.mapNodes Node.bare = visit'.mapNodes Node.bare) (c c' : Compiler)
    (resolver resolver' : Resolver) :
    SameUpToTexts (.ok (c.scriptOf resolver visit)) (.ok (c'.scriptOf resolver' visit')) := by
  refine .made ?_ ?_
  · have hbare : ∀ (c : Compiler) (resolver : Resolver) (visit : Visit),
        (c.scriptOf resolver visit).steps.map ScriptStep.outline =
          ((visit.mapNodes Node.bare).steps (fun _ => "") "" none 0).map ScriptStep.outline := by
      intro c resolver visit
      rw [visit.steps_mapNodes Node.keepsShape_bare]
      exact visit.outline_steps _ _ _ _ none 0
    rw [hbare, hbare, hvisit]
  · have hturns : visit.turns = visit'.turns := by
      rw [← visit.turns_mapNodes Node.bare, hvisit, visit'.turns_mapNodes]
    rw [filter_diagnostics_scriptOf, filter_diagnostics_scriptOf, hturns]

section

variable {g g' : Graph} (hbare : g.mapNodes Node.bare = g'.mapNodes Node.bare)

include hbare

theorem errors_eq_of_bare_eq :
    g.findings.filter Finding.isError = g'.findings.filter Finding.isError := by
  rw [← g.errors_mapNodes Node.keepsShape_bare, hbare, g'.errors_mapNodes Node.keepsShape_bare]

theorem isErrorFree_iff_of_bare_eq : g.IsErrorFree ↔ g'.IsErrorFree := by
  rw [Graph.isErrorFree_iff_filter, errors_eq_of_bare_eq hbare, ← Graph.isErrorFree_iff_filter]

/-- Where two graphs become one without what their nodes hold beside the shape, so do their walks,
and the walks break the same limits. -/
theorem walks_eq_of_bare_eq {start start' : Node} (hstart : g.ofKind .start = [start])
    (hstart' : g'.ofKind .start = [start']) {limits limits' : Limits}
    (hsteps : limits.steps = limits'.steps) (hdepth : limits.depth = limits'.depth) :
    (g.visit limits start).map (Visit.mapNodes Node.bare) =
      (g'.visit limits' start').map (Visit.mapNodes Node.bare) := by
  -- The starts are two nodes, and only their shapes are known to be the same.
  have hsame : start.bare = start'.bare := by
    have hkind := g.ofKind_mapNodes Node.keepsShape_bare .start
    rw [hbare, g'.ofKind_mapNodes Node.keepsShape_bare, hstart, hstart'] at hkind
    exact (List.singleton_inj.mp hkind).symm
  rw [← g.visit_mapNodes Node.keepsShape_bare rfl rfl, hbare, hsame]
  exact g'.visit_mapNodes Node.keepsShape_bare hsteps hdepth _

theorem sameUpToTexts_compile {c c' : Compiler} {resolver resolver' : Resolver}
    (hsteps : c.options.maxSteps = c'.options.maxSteps)
    (hdepth : c.options.maxDepth = c'.options.maxDepth) (hroom : c.HasRoom g resolver)
    (hroom' : c'.HasRoom g' resolver') :
    SameUpToTexts (c.compile g resolver) (c'.compile g' resolver') := by
  by_cases hfree : g.IsErrorFree
  · have hfree' : g'.IsErrorFree := (isErrorFree_iff_of_bare_eq hbare).mp hfree
    obtain ⟨start, hstart⟩ := hfree.exists_start
    obtain ⟨start', hstart'⟩ := hfree'.exists_start
    have hwalk : (g.visit c.options.limits start).map (Visit.mapNodes Node.bare) =
        (g'.visit c'.options.limits start').map (Visit.mapNodes Node.bare) :=
      walks_eq_of_bare_eq hbare hstart hstart' (congrArg some hsteps) (congrArg some hdepth)
    cases hvisit : g.visit c.options.limits start with
    | error e =>
      cases hvisit' : g'.visit c'.options.limits start' with
      | error e' =>
        rw [hvisit, hvisit'] at hwalk
        obtain rfl : e = e' := Except.error.inj hwalk
        rw [c.compile_of_visit_error _ hfree hstart hvisit,
          c'.compile_of_visit_error _ hfree' hstart' hvisit']
        exact .limit e
      | ok visit' =>
        rw [hvisit, hvisit'] at hwalk
        cases hwalk
    | ok visit =>
      cases hvisit' : g'.visit c'.options.limits start' with
      | error e' =>
        rw [hvisit, hvisit'] at hwalk
        cases hwalk
      | ok visit' =>
        rw [hvisit, hvisit'] at hwalk
        rw [hroom.compile_eq_ok hfree hstart hvisit, hroom'.compile_eq_ok hfree' hstart' hvisit']
        exact sameUpToTexts_scriptOf (Except.ok.inj hwalk) c c' resolver resolver'
  · have hfree' : ¬ g'.IsErrorFree := mt (isErrorFree_iff_of_bare_eq hbare).mpr hfree
    have hrefused : ∀ (c : Compiler) (g : Graph) (resolver : Resolver), ¬ g.IsErrorFree →
        c.compile g resolver = .error (.notCompilable g.findings) := fun c g resolver hfree =>
      (c.compile_eq_notCompilable_iff resolver).mpr ⟨(Bool.not_eq_false _).mp hfree, rfl⟩
    rw [hrefused c g resolver hfree, hrefused c' g' resolver' hfree']
    exact .refused (errors_eq_of_bare_eq hbare)

end

/-- Steps are a matter of shape. Graphs whose nodes have the same ids and kinds and which have the
same edges have the same errors, and under the same limits on steps and nesting they compile to the
same steps with the same warnings about turns, or fail on the same limit, whatever else their nodes
hold and whatever table and resolver fill in the texts. No answer of a resolver turns success into
failure, but for the bytes of its text. Where nodes are drawn makes no difference at all. -/
theorem outcome_depends_on_shape {g g' : Graph}
    (hnodes : g.nodes.map Node.shape = g'.nodes.map Node.shape) (hedges : g.edges = g'.edges) :
    g.findings.filter Finding.isError = g'.findings.filter Finding.isError ∧
    (∀ (c c' : Compiler) (resolver resolver' : Resolver),
      c.options.maxSteps = c'.options.maxSteps → c.options.maxDepth = c'.options.maxDepth →
      c.HasRoom g resolver → c'.HasRoom g' resolver' →
      SameUpToTexts (c.compile g resolver) (c'.compile g' resolver')) ∧
    (∀ (c : Compiler) (resolver resolver' : Resolver) (script : Script),
      c.compile g resolver = .ok script → c.HasRoom g resolver' →
      ∃ script', c.compile g resolver' = .ok script' ∧
        script'.steps.map ScriptStep.outline = script.steps.map ScriptStep.outline) ∧
    (g.nodes.map Node.unplaced = g'.nodes.map Node.unplaced →
      g.findings = g'.findings ∧
      ∀ (c : Compiler) (resolver : Resolver), c.compile g resolver = c.compile g' resolver) := by
  have hbare : g.mapNodes Node.bare = g'.mapNodes Node.bare := by
    have hlists := congrArg (List.map Node.ofShape) hnodes
    rw [List.map_map, List.map_map] at hlists
    exact congrArg₂ Graph.mk hlists hedges
  refine ⟨?_, ?_, ?_, ?_⟩
  · exact errors_eq_of_bare_eq hbare
  · exact fun c c' resolver resolver' => sameUpToTexts_compile hbare
  · intro c resolver resolver' script hscript hroom
    have hroomy : c.HasRoom g resolver := fun bytes h => by
      rw [hscript] at h
      cases h
    have hsame := sameUpToTexts_compile (g := g) rfl rfl rfl hroomy hroom
    rw [hscript] at hsame
    generalize houtcome : c.compile g resolver' = outcome at hsame
    cases hsame with
    | made hsteps hturns => exact ⟨_, rfl, hsteps.symm⟩
  · intro hplaces
    have hunplaced : g.mapNodes Node.unplaced = g'.mapNodes Node.unplaced :=
      congrArg₂ Graph.mk hplaces hedges
    constructor
    · rw [← g.findings_mapNodes Node.keepsShape_unplaced fun _ => rfl, hunplaced,
        g'.findings_mapNodes Node.keepsShape_unplaced fun _ => rfl]
    · intro c resolver
      rw [← c.compile_mapNodes_unplaced g, hunplaced, c.compile_mapNodes_unplaced g']

end Compiler

def Graph.patrolElsewhere : Graph where
  nodes := [
    .ofStep "begin" .start .origin,
    ⟨"rounds", "Every site", .origin, { step := .loop {}, timeoutSeconds := some 30 }⟩,
    .ofStep "login" (.connect {}) .origin,
    ⟨"probe", "Line test", .origin, { step := .check {}, policy := some { retryCount := 2 } }⟩,
    .ofStep "repair" (.deploy {}) .origin,
    .ofStep "done" .finish .origin]
  edges := patrol.edges

namespace Compiler

theorem exists_compile_patrolElsewhere : ∃ bytes script,
    (⟨.standard, { maxBytes := bytes }⟩ : Compiler).compile .patrolElsewhere
      ({} : Inventory).resolver = .ok script := by
  have hfree : Graph.patrolElsewhere.IsErrorFree := Graph.isErrorFree_iff.mpr (by decide +kernel)
  have hvisit : ∃ visit, ∀ bytes, Graph.patrolElsewhere.visit ⟨some 10000, some 64, some bytes⟩
      (.ofStep "begin" .start .origin) = .ok visit := by
    refine ⟨?_, fun bytes => ?_⟩
    rotate_left
    cbv
    rfl
  obtain ⟨visit, hvisit⟩ := hvisit
  exact exists_compile_of_visit .standard false ({} : Inventory).resolver hfree rfl hvisit

theorem outcome_depends_on_shape_patrol :
    Graph.patrol.nodes.map Node.shape = Graph.patrolElsewhere.nodes.map Node.shape ∧
    Graph.patrol.edges = Graph.patrolElsewhere.edges ∧
    (∃ (bytes bytes' : Nat) (script script' : Script),
      (⟨.standard, { maxBytes := bytes }⟩ : Compiler).compile .patrol ({} : Inventory).resolver =
        .ok script ∧
      (⟨.standard, { maxBytes := bytes' }⟩ : Compiler).compile .patrolElsewhere
        ({} : Inventory).resolver = .ok script' ∧
      SameUpToTexts (.ok script) (.ok script')) ∧
    ∀ position : Position,
      (Graph.patrol.mapNodes fun node => { node with position }).findings =
        Graph.patrol.findings := by
  have hshape : Graph.patrol.nodes.map Node.shape =
      Graph.patrolElsewhere.nodes.map Node.shape := rfl
  refine ⟨hshape, rfl, ?_, fun position => ?_⟩
  · obtain ⟨bytes, script, hscript⟩ :=
      exists_compile_patrol .standard false ({} : Inventory).resolver
    obtain ⟨bytes', script', hscript'⟩ := exists_compile_patrolElsewhere
    refine ⟨bytes, bytes', script, script', hscript, hscript', ?_⟩
    rw [← hscript, ← hscript']
    refine (outcome_depends_on_shape hshape rfl).2.1 _ _ _ _ rfl rfl ?_ ?_
    · intro _ hbytes
      rw [hscript] at hbytes
      cases hbytes
    · intro _ hbytes
      rw [hscript'] at hbytes
      cases hbytes
  · have hmoved : (Graph.patrol.mapNodes fun node => { node with position }).nodes.map Node.shape =
        Graph.patrol.nodes.map Node.shape := by
      rw [Graph.mapNodes, List.map_map]
      rfl
    refine ((outcome_depends_on_shape hmoved rfl).2.2.2 ?_).1
    rw [Graph.mapNodes, List.map_map]
    rfl

end Compiler

end Runbook
