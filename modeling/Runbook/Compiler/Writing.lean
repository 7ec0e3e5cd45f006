import Runbook.Compiler.Script

/-!
Writing the steps of a path tree under a budget of bytes. The text of a step holds the texts of
its arms, so these are written first; each text is paid for as soon as it is whole, and the first
one that the budget does not cover ends the writing.
-/
namespace Runbook

structure TextBudget where
  limit : Option Nat
  used : Nat

/-- Writing uses up a budget, and gives nothing once the budget is broken. -/
abbrev Writing := StateT TextBudget (Except LimitError)

namespace Writing

def pay (bytes : Nat) : Writing Unit := fun budget => do
  let used := budget.used + bytes
  checkBound budget.limit .tooManyBytes used
  return ((), { budget with used })

def all (rows : List (Edge × Writing (List ScriptStep))) : Writing Behind :=
  rows.mapM fun row => do return (row.1, ← row.2)

end Writing

mutual

/-- Writes a visit and all visits behind it. What follows at its own level comes after it is paid
for. -/
def Visit.write (own : Node → String) (indent : String) (parent : Option NodeId) (depth : Nat) :
    Visit → Writing (List ScriptStep)
  | .mk node exits => do
    let rows := exits.writers own indent node depth
    let nested ← Writing.all (rows.filter fun row => node.opensArm row.1)
    let text := blockText own indent node depth nested
    Writing.pay text.utf8ByteSize
    let onward ← Writing.all (rows.filter fun row => !node.opensArm row.1)
    return ⟨node.id, text, parent.toList, depth⟩ ::
      (nested.flatMap Prod.snd ++ onward.flatMap Prod.snd)

def Exits.writers (own : Node → String) (indent : String) (last : Node) (depth : Nat) :
    Exits → List (Edge × Writing (List ScriptStep))
  | .nil => []
  | .onward e visit rest =>
    (e, visit.write own indent (some last.id) (depthBehind depth last e)) ::
      rest.writers own indent last depth
  | .stopped e _ rest => (e, pure []) :: rest.writers own indent last depth

end

end Runbook
