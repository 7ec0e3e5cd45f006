import Runbook.Workflow.Step

/-!
Runbook graphs. Nodes and edges stand in the order in which they were added, and every edit gives
a new graph or says why it can not be made. An edit keeps ids apart and ties edges to nodes that
are there; a graph from elsewhere may break both rules, and nothing else is asked of either.
-/
namespace Runbook

abbrev NodeId := String

abbrev EdgeId := String

structure Position where
  x : Binary64
  y : Binary64
deriving DecidableEq, Repr

namespace Position

def origin : Position := ⟨.zero, .zero⟩

def format : Json.Format Position :=
  (Json.Format.pair .binary64 .binary64).map (fun p => ⟨p.1, p.2⟩) fun p => (p.x, p.y)

end Position

structure Node where
  id : NodeId
  label : String
  position : Position
  settings : Settings
deriving DecidableEq, Repr

namespace Node

def kind (node : Node) : Kind := node.settings.step.kind

def ofStep (id : NodeId) (step : Step) (position : Position) : Node :=
  ⟨id, id, position, { step := step }⟩

def record : Json.Record Node where
  title := "struct WorkflowNode"
  blank := ⟨"", "", .origin, { step := .start }⟩
  fields := [
    .needed "id" .text id fun x n => { n with id := x },
    .lenient "label" .text label fun x n => { n with label := x },
    .lenient "position" Position.format position fun x n => { n with position := x },
    .needed "config" Settings.format settings fun x n => { n with settings := x }]

def format : Json.Format Node := record.format

end Node

/-- A connection from one node to another. It names a port when its source branches. -/
structure Edge where
  id : EdgeId
  source : NodeId
  target : NodeId
  port : Option Port
deriving DecidableEq, Repr

namespace Edge

def record : Json.Record Edge where
  title := "struct WorkflowEdge"
  blank := ⟨"", "", "", none⟩
  fields := [
    .needed "id" .text id fun x e => { e with id := x },
    .needed "source" .text source fun x e => { e with source := x },
    .needed "target" .text target fun x e => { e with target := x },
    .option "sourcePort" Port.format port fun x e => { e with port := x }]

def format : Json.Format Edge := record.format

end Edge

/-- Whether what lies behind an edge out of the node is nested under it. Only a branching node has
arms, whatever port an edge names. -/
def Node.opensArm (node : Node) (edge : Edge) : Bool :=
  node.kind.isBranching && edge.port.any Port.opensArm

structure Graph where
  nodes : List Node
  edges : List Edge
deriving DecidableEq, Repr

inductive EditError where
  | duplicateId (id : String)
  | unknownEndpoint (edge : EdgeId) (node : NodeId)
  | notFound (id : String)
  | invalidPatch (node : NodeId) (reason : String)
deriving DecidableEq, Repr

def EditError.message : EditError → String
  | duplicateId id => "Duplicate id: '" ++ id ++ "' is already present in the graph"
  | unknownEndpoint edge node => "Edge '" ++ edge ++ "' references unknown node '" ++ node ++ "'"
  | notFound id => "Not found: '" ++ id ++ "'"
  | invalidPatch node reason =>
    "Invalid config patch for node '" ++ node ++ "': " ++ reason

namespace Graph

def empty : Graph := ⟨[], []⟩

def record : Json.Record Graph where
  title := "struct GraphDocument"
  blank := empty
  fields := [
    .lenient "nodes" Node.format.list nodes fun x g => { g with nodes := x },
    .lenient "edges" Edge.format.list edges fun x g => { g with edges := x }]

def format : Json.Format Graph := record.format

/-- The form in which both lists have to be given. -/
def strictRecord : Json.Record Graph where
  title := "struct GraphModel"
  blank := empty
  fields := [
    .needed "nodes" Node.format.list nodes fun x g => { g with nodes := x },
    .needed "edges" Edge.format.list edges fun x g => { g with edges := x }]

def strictFormat : Json.Format Graph := strictRecord.format

/-- The first node of an id. -/
def node? (g : Graph) (id : NodeId) : Option Node := g.nodes.find? fun n => n.id = id

def edge? (g : Graph) (id : EdgeId) : Option Edge := g.edges.find? fun e => e.id = id

def hasNode (g : Graph) (id : NodeId) : Bool := g.nodes.any fun n => n.id = id

def hasEdge (g : Graph) (id : EdgeId) : Bool := g.edges.any fun e => e.id = id

def incoming (g : Graph) (id : NodeId) : List Edge := g.edges.filter fun e => e.target = id

def outgoing (g : Graph) (id : NodeId) : List Edge := g.edges.filter fun e => e.source = id

def ofKind (g : Graph) (kind : Kind) : List Node := g.nodes.filter fun n => n.kind = kind

def isEmpty (g : Graph) : Bool := g.nodes.isEmpty && g.edges.isEmpty

def addNode (g : Graph) (node : Node) : Except EditError Graph :=
  if g.hasNode node.id then .error (.duplicateId node.id)
  else .ok { g with nodes := g.nodes ++ [node] }

/-- Takes out a node and every edge at it. -/
def removeNode (g : Graph) (id : NodeId) : Except EditError Graph :=
  if g.hasNode id then
    .ok ⟨g.nodes.filter fun n => n.id ≠ id,
      g.edges.filter fun e => e.source ≠ id ∧ e.target ≠ id⟩
  else .error (.notFound id)

def addEdge (g : Graph) (edge : Edge) : Except EditError Graph :=
  if !g.hasNode edge.source then .error (.unknownEndpoint edge.id edge.source)
  else if !g.hasNode edge.target then .error (.unknownEndpoint edge.id edge.target)
  else if g.hasEdge edge.id then .error (.duplicateId edge.id)
  else .ok { g with edges := g.edges ++ [edge] }

def removeEdge (g : Graph) (id : EdgeId) : Except EditError Graph :=
  if g.hasEdge id then .ok { g with edges := g.edges.filter fun e => e.id ≠ id }
  else .error (.notFound id)

def changeFirst (id : NodeId) (change : Node → Node) : List Node → List Node
  | [] => []
  | n :: rest => if n.id = id then change n :: rest else n :: changeFirst id change rest

def changeNode (g : Graph) (id : NodeId) (change : Node → Node) : Graph :=
  { g with nodes := changeFirst id change g.nodes }

def moveNode (g : Graph) (id : NodeId) (position : Position) : Except EditError Graph :=
  if g.hasNode id then .ok (g.changeNode id fun n => { n with position := position })
  else .error (.notFound id)

def renameNode (g : Graph) (id : NodeId) (label : String) : Except EditError Graph :=
  if g.hasNode id then .ok (g.changeNode id fun n => { n with label := label })
  else .error (.notFound id)

end Graph

end Runbook
