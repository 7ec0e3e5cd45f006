import Runbook.Compiler.Options
import Runbook.Workflow.Unseen

/-!
The paths of a graph as a tree. A visit is a node at the end of one path, with what becomes of the
path along each edge that leaves the node: it goes on to a node that is not on it yet, or it
stops. A path that comes back to the loop it is in has finished a round of the loop; one that
comes back anywhere else turns back. No path holds a node twice, so the tree is finite, and the
limits on the count of visits and on their depth only keep it small.
-/
namespace Runbook

inductive Stop where
  | nextRound
  | turnsBack
  | nowhere
deriving DecidableEq, Repr

mutual

inductive Visit where
  | mk (node : Node) (exits : Exits)

/-- The edges out of a visit in order, each with what becomes of the path along it. -/
inductive Exits where
  | nil
  | onward (edge : Edge) (visit : Visit) (rest : Exits)
  | stopped (edge : Edge) (stop : Stop) (rest : Exits)

end

namespace Graph

/-- The edges along which paths leave a node: the first one on each port of a branching node, and
every edge of any other. -/
def liveEdges (g : Graph) (node : Node) : List Edge :=
  if node.kind.isBranching then
    node.kind.ports.filterMap fun port => (g.outgoing node.id).find? fun e => e.port = some port
  else g.outgoing node.id

end Graph

/-- The loops around what lies behind an edge out of a node, innermost first. -/
def loopsBehind (loops : List NodeId) (node : Node) (e : Edge) : List NodeId :=
  if node.kind = .loop ∧ e.port = some .body then node.id :: loops else loops

def depthBehind (depth : Nat) (node : Node) (e : Edge) : Nat :=
  if node.opensArm e then depth + 1 else depth

def stopBefore (loops : List NodeId) (target : NodeId) : Stop :=
  if loops.head? = some target then .nextRound else .turnsBack

def checkArm (limits : Limits) (depth : Nat) (node : Node) (e : Edge) :
    Except LimitError Unit :=
  if node.opensArm e then checkBound limits.depth .tooDeep (depth + 1) else .ok ()

namespace Graph

/-- What becomes of a path along each of the edges out of its last node, and the count of visits
after `count` earlier ones. The path holds its ids in reverse. -/
def exits (g : Graph) (limits : Limits) (path loops : List NodeId) (depth : Nat) (last : Node)
    (edges : List Edge) (count : Nat) : Except LimitError (Exits × Nat) :=
  match edges with
  | [] => .ok (.nil, count)
  | e :: rest => do
    checkArm limits depth last e
    let loopsThere := loopsBehind loops last e
    if _hpath : e.target ∈ path then
      let (others, count) ← g.exits limits path loops depth last rest count
      return (.stopped e (stopBefore loopsThere e.target) others, count)
    else
      match _hnode : g.node? e.target with
      | none =>
        let (others, count) ← g.exits limits path loops depth last rest count
        return (.stopped e .nowhere others, count)
      | some node =>
        checkBound limits.steps .tooManySteps (count + 1)
        let (behind, count) ← g.exits limits (node.id :: path) loopsThere
          (depthBehind depth last e) node (g.liveEdges node) (count + 1)
        let (others, count) ← g.exits limits path loops depth last rest count
        return (.onward e (.mk node behind) others, count)
termination_by (g.unseen path, edges.length)
decreasing_by
  · exact Prod.Lex.right _ (by simp)
  · exact Prod.Lex.right _ (by simp)
  · refine Prod.Lex.left _ _ (unseen_cons_lt (mem_nodes_of_node? _hnode) ?_)
    rw [id_of_node? _hnode]
    exact _hpath
  · exact Prod.Lex.right _ (by simp)

def visit (g : Graph) (limits : Limits) (start : Node) : Except LimitError Visit := do
  checkBound limits.steps .tooManySteps 1
  let (exits, _) ← g.exits limits [start.id] [] 0 start (g.liveEdges start) 1
  return .mk start exits

end Graph

end Runbook
