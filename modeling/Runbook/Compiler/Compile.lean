import Runbook.Compiler.Writing
import Runbook.Validation.Check

/-!
Compilation. A graph with errors is refused with all its findings; otherwise the paths from its
start become a script, unless the script breaks a limit.
-/
namespace Runbook

inductive CompileError where
  | notCompilable (findings : List Finding)
  | limit (e : LimitError)
deriving DecidableEq, Repr

def CompileError.message : CompileError → String
  | notCompilable findings =>
    "Graph is not compilable: " ++ Text.numeral (findings.countP Finding.isError) ++
      " validation error(s)"
  | limit e => e.message

structure Compiler where
  table : Template.Table := .standard
  options : Options := {}

namespace Compiler

def scriptFrom (c : Compiler) (limits : Limits) (g : Graph) (resolver : Resolver)
    (start : Node) : Except LimitError Script := do
  let visit ← g.visit limits start
  let (steps, _) ← visit.write (Node.ownText c.table resolver c.options.redactSecrets)
    c.options.indent none 0 |>.run ⟨limits.bytes, 0⟩
  return Script.ofWalk steps (visit.notes resolver)

def compileWithin (c : Compiler) (limits : Limits) (g : Graph) (resolver : Resolver) :
    Except CompileError Script :=
  let findings := g.findings
  if hasErrors findings then .error (.notCompilable findings)
  else
    match (g.ofKind .start).head? with
    | none => .error (.notCompilable findings)
    | some start =>
      match c.scriptFrom limits g resolver start with
      | .error e => .error (.limit e)
      | .ok script => .ok script

def compile (c : Compiler) (g : Graph) (resolver : Resolver) : Except CompileError Script :=
  c.compileWithin c.options.limits g resolver

end Compiler

end Runbook
