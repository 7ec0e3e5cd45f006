import Runbook.Compiler.Compile
import Runbook.Editor.Event
import Runbook.Editor.History
import Runbook.Workflow.Patch

/-!
Editing sessions. A session owns the history of one graph, whose current snapshot is the graph
being edited. An edit that can be made is recorded and told; one that can not is refused before
anything is. Checking and compiling tell their outcome and change nothing.
-/
namespace Runbook

structure UndoState where
  canUndo : Bool
  canRedo : Bool
  position : Nat
  snapshotCount : Nat
deriving DecidableEq, Repr

namespace UndoState

def record : Json.Record UndoState where
  title := "struct UndoRedoState"
  blank := ⟨false, false, 0, 0⟩
  fields := [
    .needed "canUndo" .bool canUndo fun x s => { s with canUndo := x },
    .needed "canRedo" .bool canRedo fun x s => { s with canRedo := x },
    .needed "position" .count position fun x s => { s with position := x },
    .needed "snapshotCount" .count snapshotCount fun x s => { s with snapshotCount := x }]

def format : Json.Format UndoState := record.format

end UndoState

structure Session (σ : Type := Outbox) where
  history : History Graph
  compiler : Compiler := {}
  outbox : σ

namespace Session

variable {σ : Type}

def ofGraph (g : Graph) : Session := { history := .ofInitial g, outbox := .discarding }

def withHistoryLimit (s : Session σ) (limit : Nat) : Session σ :=
  { s with history := .withLimit s.history.current limit }

def withSink {τ : Type} (s : Session σ) (sink : τ) : Session τ :=
  { history := s.history, compiler := s.compiler, outbox := sink }

def withCompiler (s : Session σ) (compiler : Compiler) : Session σ :=
  { s with compiler := compiler }

def graph (s : Session σ) : Graph := s.history.current

def undoState (s : Session σ) : UndoState :=
  ⟨s.history.canUndo, s.history.canRedo, s.history.cursor, s.history.size⟩

variable [Sink σ]

/-- Sends an event. One that the sink refuses is lost. -/
def tell (s : Session σ) (event : Event) : Session σ :=
  { s with outbox := (Sink.send event s.outbox).1 }

def changeEvent (h : History Graph) : Event :=
  .graphChanged h.canUndo h.canRedo h.current.nodes.length h.current.edges.length

def continueWith (s : Session σ) (h : History Graph) : Session σ :=
  { s with history := h }.tell (changeEvent h)

def edit (change : Graph → Except EditError Graph) : EStateM EditError (Session σ) Unit := fun s =>
  match change s.graph with
  | .error e => .error e s
  | .ok g => .ok () (s.continueWith (s.history.record g))

def addNode (node : Node) : EStateM EditError (Session σ) Unit := edit (·.addNode node)

def removeNode (id : NodeId) : EStateM EditError (Session σ) Unit := edit (·.removeNode id)

def addEdge (edge : Edge) : EStateM EditError (Session σ) Unit := edit (·.addEdge edge)

/-- Adds an edge under an id that the caller has made for it. -/
def connect (id : EdgeId) (source target : NodeId) (port : Option Port) :
    EStateM EditError (Session σ) EdgeId := do
  addEdge ⟨id, source, target, port⟩
  return id

def removeEdge (id : EdgeId) : EStateM EditError (Session σ) Unit := edit (·.removeEdge id)

def updateSettings (id : NodeId) (patch : Json.Value) : EStateM EditError (Session σ) Unit :=
  edit (·.updateSettings id patch)

def moveNode (id : NodeId) (position : Position) : EStateM EditError (Session σ) Unit :=
  edit (·.moveNode id position)

def renameNode (id : NodeId) (label : String) : EStateM EditError (Session σ) Unit :=
  edit (·.renameNode id label)

def undo? (s : Session σ) : Option (Session σ) := s.history.undo?.map s.continueWith

def redo? (s : Session σ) : Option (Session σ) := s.history.redo?.map s.continueWith

def validatedEvent (findings : List Finding) : Event :=
  let count (severity : Severity) := findings.countP fun f => f.severity = severity
  .validated (count .error) (count .warning) (count .info)

def validate (s : Session σ) : List Finding × Session σ :=
  let findings := s.graph.findings
  (findings, s.tell (validatedEvent findings))

def compiledEvent : Except CompileError Script → Event
  | .ok script => .compiled script.steps.length script.resources.length
  | .error e => .compileFailed e.message

def compile (s : Session σ) (resolver : Resolver) : Except CompileError Script × Session σ :=
  let outcome := s.compiler.compile s.graph resolver
  (outcome, s.tell (compiledEvent outcome))

end Session

end Runbook
