import Runbook.Workflow.Graph

/-!
Drafts: graphs put together piece by piece without any check. Each node is placed to the right of
the one before it, and edges that are not given an id are numbered.
-/
namespace Runbook

structure Draft where
  graph : Graph := .empty
  numbered : Nat := 0
deriving DecidableEq, Repr

namespace Draft

def spacing : Nat := 200

def addStep (d : Draft) (id : NodeId) (step : Step) : Draft :=
  let position : Position := ⟨.ofInt (d.graph.nodes.length * spacing), .zero⟩
  { d with graph :=
    { d.graph with nodes := d.graph.nodes ++ [Node.ofStep id step position] } }

def changeLastIn (change : Node → Node) : List Node → List Node
  | [] => []
  | [n] => [change n]
  | n :: m :: rest => n :: changeLastIn change (m :: rest)

def changeLast (d : Draft) (change : Node → Node) : Draft :=
  { d with graph := { d.graph with nodes := changeLastIn change d.graph.nodes } }

def withLabel (d : Draft) (label : String) : Draft :=
  d.changeLast fun n => { n with label := label }

def withPolicy (d : Draft) (policy : Policy) : Draft :=
  d.changeLast fun n => { n with settings := { n.settings with policy := some policy } }

def withTimeout (d : Draft) (seconds : UInt32) : Draft :=
  d.changeLast fun n => { n with settings := { n.settings with timeoutSeconds := some seconds } }

def addEdge (d : Draft) (edge : Edge) : Draft :=
  { d with graph := { d.graph with edges := d.graph.edges ++ [edge] } }

def connect (d : Draft) (source : NodeId) (port : Option Port) (target : NodeId) : Draft :=
  { d with numbered := d.numbered + 1 }.addEdge
    ⟨"edge-" ++ Text.numeral (d.numbered + 1), source, target, port⟩

end Draft

end Runbook
