import Runbook.Text.Blank
import Runbook.Text.Numeral
import Runbook.Validation.Finding
import Runbook.Validation.Peeling
import Runbook.Validation.Reach

/-!
The checks of a graph. Every check lists all it finds in the order of the nodes or edges, and the
findings of a graph are those of all checks in a fixed order.
-/
namespace Runbook.Graph

def startFindings (g : Graph) : List Finding :=
  (if (g.ofKind .start).isEmpty then
    [{ severity := .error, topic := .missingStart, message := "Workflow has no start node" }]
  else []) ++
  (if (g.ofKind .finish).isEmpty then
    [{ severity := .error, topic := .missingEnd, message := "Workflow has no end node" }]
  else []) ++
  ((g.ofKind .start).drop 1).map fun n =>
    { severity := .error, topic := .multipleStarts, node := some n.id
      message := "Start node " ++ quotedName n.id ++
        " is one of several; a workflow has exactly one" }

def kind? (g : Graph) (id : NodeId) : Option Kind := (g.node? id).map Node.kind

def terminalFindings (g : Graph) : List Finding :=
  g.edges.flatMap fun e =>
    (if g.kind? e.target = some .start then
      [{ severity := .error, topic := .edgeIntoStart, node := some e.target, edge := some e.id
         message := "Start node " ++ quotedName e.target ++ " cannot have incoming edges" }]
    else []) ++
    (if g.kind? e.source = some .finish then
      [{ severity := .error, topic := .edgeOutOfEnd, node := some e.source, edge := some e.id
         message := "End node " ++ quotedName e.source ++ " cannot have outgoing edges" }]
    else [])

def connectionFindings (g : Graph) : List Finding :=
  (g.nodes.filter fun n => n.kind ≠ .start ∧ n.kind ≠ .finish).flatMap fun n =>
    (if (g.incoming n.id).isEmpty then
      [{ severity := .error, topic := .noIncomingEdge, node := some n.id
         message := "Node " ++ quotedName n.id ++ " has no incoming edge" }]
    else []) ++
    (if (g.outgoing n.id).isEmpty then
      [{ severity := .error, topic := .noOutgoingEdge, node := some n.id
         message := "Node " ++ quotedName n.id ++ " has no outgoing edge" }]
    else [])

def isWired (g : Graph) (id : NodeId) (port : Port) : Bool :=
  (g.outgoing id).any fun e => e.port = some port

def branchFindings (g : Graph) : List Finding :=
  (g.nodes.filter fun n => n.kind = .condition ∨ n.kind = .loop).flatMap fun n =>
    (n.kind.ports.filter fun port => !g.isWired n.id port).map fun port =>
      { severity := .error, topic := .missingBranch, node := some n.id, port := some port
        message := n.kind.name ++ " node " ++ quotedName n.id ++ " is missing its " ++
          quotedName port.name ++ " branch" }

def danglingFindings (g : Graph) : List Finding :=
  g.edges.flatMap fun e =>
    ([e.source, e.target].filter fun id => !g.hasNode id).map fun id =>
      { severity := .error, topic := .danglingEdge, edge := some e.id
        message := "Edge " ++ quotedName e.id ++ " references unknown node " ++ quotedName id }

def portMessage (e : Edge) (kind : Kind) : String :=
  match e.port with
  | some port =>
    "Edge " ++ quotedName e.id ++ " uses port " ++ quotedName port.name ++ ", which a " ++
      kind.name ++ " node does not have"
  | none =>
    "Edge " ++ quotedName e.id ++ " leaves " ++ kind.name ++ " node " ++ quotedName e.source ++
      " without naming a port"

def portFindings (g : Graph) : List Finding :=
  g.edges.flatMap fun e =>
    match g.kind? e.source with
    | none => []
    | some kind =>
      if kind.accepts e.port then []
      else
        [{ severity := .error, topic := .illegalPort, node := some e.source, edge := some e.id
           port := e.port, message := portMessage e kind }]

/-- The edges that name a port which an earlier one or one of `seen` names. -/
def repeatedPorts (seen : List Port) : List Edge → List (Edge × Port)
  | [] => []
  | e :: rest =>
    match e.port with
    | none => repeatedPorts seen rest
    | some port =>
      if port ∈ seen then (e, port) :: repeatedPorts seen rest
      else repeatedPorts (port :: seen) rest

def duplicateFindings (g : Graph) : List Finding :=
  (g.nodes.filter fun n => n.kind.isBranching).flatMap fun n =>
    (repeatedPorts [] (g.outgoing n.id)).map fun r =>
      { severity := .warning, topic := .duplicatePort, node := some n.id, edge := some r.1.id
        port := some r.2
        message := "Edge " ++ quotedName r.1.id ++ " is a second " ++ quotedName r.2.name ++
          " branch of " ++ quotedName n.id ++ "; only the first is compiled" }

def fanOutFindings (g : Graph) : List Finding :=
  (g.nodes.filter fun n => !n.kind.isBranching ∧ 1 < (g.outgoing n.id).length).map fun n =>
    { severity := .warning, topic := .fanOut, node := some n.id
      message := "Node " ++ quotedName n.id ++ " has " ++ Text.numeral (g.outgoing n.id).length ++
        " outgoing edges; their paths are emitted one after another in edge order" }

def reachFindings (g : Graph) : List Finding :=
  match (g.ofKind .start).head? with
  | none => []
  | some start =>
    let reached := g.reach start.id
    (g.nodes.filter fun n => n.kind ≠ .start ∧ n.id ∉ reached).map fun n =>
      { severity := .warning, topic := .unreachable, node := some n.id
        message := "Node " ++ quotedName n.id ++ " cannot be reached from the start node" }

def cycleFindings (g : Graph) : List Finding :=
  if g.hasStrayCycle then
    [{ severity := .warning, topic := .cycleOutsideLoop
       message := "Cycle detected that does not pass through a loop node; " ++
        "the compiler stops such paths where they repeat" }]
  else []

/-- What a step lacks to be of any use. -/
def gaps : Step → List String
  | .condition c => if Text.IsAllBlank c.expression then ["has an empty expression"] else []
  | .loop l => if l.maxIterations = 0 then ["allows zero iterations"] else []
  | .connect c =>
    (if c.credential = none then ["has no credential"] else []) ++
      (if c.target = none then ["has no target"] else [])
  | .deploy d =>
    if d.template = none ∧ d.commands = [] then ["has neither a template nor commands"] else []
  | .execute e => if e.template = none ∧ e.commands = [] then ["has no commands"] else []
  | .check c => if Text.IsAllBlank c.command then ["has no command"] else []
  | _ => []

def stepFindings (g : Graph) : List Finding :=
  g.nodes.flatMap fun n =>
    (gaps n.settings.step).map (fun gap =>
      { severity := .warning, topic := .incompleteConfig, node := some n.id
        message := n.kind.name ++ " node " ++ quotedName n.id ++ " " ++ gap }) ++
    (if n.kind = .check ∧ !g.isWired n.id .failure then
      [{ severity := .info, topic := .noFailureBranch, node := some n.id, port := some .failure
         message := "Status check " ++ quotedName n.id ++
          " has no failure branch; a failed check aborts the run" }]
    else [])

def findings (g : Graph) : List Finding :=
  g.startFindings ++ g.terminalFindings ++ g.connectionFindings ++ g.branchFindings ++
    g.danglingFindings ++ g.portFindings ++ g.duplicateFindings ++ g.fanOutFindings ++
    g.reachFindings ++ g.cycleFindings ++ g.stepFindings

end Runbook.Graph
