import Runbook.Compiler.Fields
import Runbook.Compiler.Visit
import Runbook.Validation.Finding

/-!
Scripts. Each visit of the path tree is a step, in the order in which the paths are walked; the
text of a step holds the text of its arms, one level deeper. What the walk has to tell, a
reference without an answer or a path that turns back, becomes a diagnostic once however often
paths come by it, and the missing references are listed with the nodes that need them.
-/
namespace Runbook

/-- A node as one path comes to it. The text includes what is nested under the step, and `depth`
counts the arms around it. -/
structure ScriptStep where
  node : NodeId
  text : String
  dependsOn : List NodeId
  depth : Nat
deriving DecidableEq, Repr

namespace ScriptStep

def record : Json.Record ScriptStep where
  title := "struct CompiledStep"
  blank := ⟨"", "", [], 0⟩
  fields := [
    .needed "nodeId" .text node fun x s => { s with node := x },
    .needed "emittedText" .text text fun x s => { s with text := x },
    .needed "dependsOn" Json.Format.text.list dependsOn fun x s => { s with dependsOn := x },
    .needed "depth" .count depth fun x s => { s with depth := x }]

def format : Json.Format ScriptStep := record.format

end ScriptStep

structure Missing where
  kind : ResourceKind
  id : String
  referencedBy : List NodeId
deriving DecidableEq, Repr

namespace Missing

def record : Json.Record Missing where
  title := "struct ResourceReference"
  blank := ⟨.credential, "", []⟩
  fields := [
    .needed "kind" ResourceKind.format kind fun x m => { m with kind := x },
    .needed "id" .text id fun x m => { m with id := x },
    .needed "referencedBy" Json.Format.text.list referencedBy
      fun x m => { m with referencedBy := x }]

def format : Json.Format Missing := record.format

def add (node : NodeId) (r : Reference) : List Missing → List Missing
  | [] => [⟨r.kind, r.id, [node]⟩]
  | m :: rest =>
    if m.kind = r.kind ∧ m.id = r.id then
      { m with referencedBy := m.referencedBy ++ [node] } :: rest
    else m :: add node r rest

end Missing

structure Script where
  steps : List ScriptStep
  resources : List Missing
  diagnostics : List Finding
deriving DecidableEq, Repr

/-- An arm of a block: the line that opens it, unless the block's own text does, and its port. -/
structure Arm where
  heading : Option String
  port : Port
deriving DecidableEq, Repr

def Kind.arms : Kind → List Arm
  | condition => [⟨none, .whenTrue⟩, ⟨some "else:", .whenFalse⟩]
  | loop => [⟨none, .body⟩]
  | check => [⟨none, .success⟩, ⟨some "else:", .failure⟩]
  | _ => []

abbrev Behind := List (Edge × List ScriptStep)

namespace Arm

/-- The line of an arm without steps. A status check without an edge for failure ends the run. -/
def filler (arm : Arm) (id : NodeId) (behind : Behind) : String :=
  if arm.port = .failure ∧ behind.all (fun b => b.1.port ≠ some .failure) then
    "raise StepFailed(" ++ (Expression.text id).render ++ ")"
  else "pass"

def steps (arm : Arm) (behind : Behind) : List ScriptStep :=
  ((behind.find? fun b => b.1.port = some arm.port).map Prod.snd).getD []

def lines (arm : Arm) (indent : String) (id : NodeId) (depth : Nat) (behind : Behind) :
    List String :=
  let steps := arm.steps behind
  arm.heading.toList ++
    if steps.isEmpty then [indent ++ arm.filler id behind]
    else
      (steps.filter fun s => s.depth = depth + 1).flatMap fun s =>
        (Text.lines s.text).map (Text.indentLine indent)

end Arm

/-- The text of a visit: the node's own text, then the lines of its arms. -/
def blockText (own : Node → String) (indent : String) (node : Node) (depth : Nat)
    (behind : Behind) : String :=
  (node.kind.arms.flatMap fun arm => arm.lines indent node.id depth behind).foldl
    (fun text line => text ++ "\n" ++ line) (own node)

inductive Note where
  | unresolved (node : NodeId) (reference : Reference)
  | turnsBack (edge : EdgeId) (source target : NodeId)
deriving DecidableEq, Repr

namespace Note

def finding : Note → Finding
  | unresolved node r =>
    { severity := .warning, topic := .unresolvedResource, node := some node
      message := "Node " ++ quotedName node ++ " references unresolved " ++ r.kind.name ++ " " ++
        quotedName r.id }
  | turnsBack edge source target =>
    { severity := .warning, topic := .truncatedPath, node := some source, edge := some edge
      message := "Edge " ++ quotedName edge ++ " from " ++ quotedName source ++ " returns to " ++
        quotedName target ++ " outside a loop body; the path stops there" }

/-- The missing references among notes, each with its nodes in the order of the notes. -/
def missing (notes : List Note) : List Missing :=
  notes.foldl (fun entries note =>
    match note with
    | unresolved node r => Missing.add node r entries
    | turnsBack _ _ _ => entries) []

end Note

mutual

def Visit.notes (resolver : Resolver) : Visit → List Note
  | .mk node exits =>
    (node.settings.step.unresolved resolver).map (Note.unresolved node.id) ++
      exits.notes resolver

def Exits.notes (resolver : Resolver) : Exits → List Note
  | .nil => []
  | .onward _ visit rest => visit.notes resolver ++ rest.notes resolver
  | .stopped e .turnsBack rest => .turnsBack e.id e.source e.target :: rest.notes resolver
  | .stopped _ _ rest => rest.notes resolver

end

namespace Script

def record : Json.Record Script where
  title := "struct CompiledScript"
  blank := ⟨[], [], []⟩
  fields := [
    .needed "steps" ScriptStep.format.list steps fun x s => { s with steps := x },
    .needed "resources" Missing.format.list resources fun x s => { s with resources := x },
    .needed "diagnostics" Finding.format.list diagnostics
      fun x s => { s with diagnostics := x }]

def format : Json.Format Script := record.format

/-- The script of a walk: its steps, and its notes without repeats. -/
def ofWalk (steps : List ScriptStep) (notes : List Note) : Script :=
  let notes := notes.eraseDups
  ⟨steps, Note.missing notes, notes.map Note.finding⟩

def topLevel (s : Script) : List ScriptStep := s.steps.filter fun step => step.depth = 0

def stepsOf (s : Script) (id : NodeId) : List ScriptStep :=
  s.steps.filter fun step => step.node = id

def isFullyResolved (s : Script) : Bool := s.resources.isEmpty

def bodyLines (s : Script) (indent : String) : List String :=
  s.topLevel.flatMap fun step => (Text.lines step.text).map (Text.indentLine indent)

def headerLines (comment : String) : List String :=
  if comment = "" then []
  else (Text.lines comment).map (fun line => "# " ++ line) ++ [""]

def render (s : Script) (o : Options) : String :=
  String.join ((headerLines o.headerComment ++
    ["from " ++ o.runtimeModule ++ " import StepFailed", "", "",
      "def " ++ o.functionName ++ "(ctx):"] ++
    s.bodyLines o.indent ++ [o.indent ++ "return ctx"]).map fun line => line ++ "\n")

end Script

end Runbook
