import Runbook.Library.Folder
import Runbook.Workflow.Graph

/-!
Runbooks as they are saved: a graph under an id, with a name and a description. What is read from
a file may fail as a file or as a text.
-/
namespace Runbook

inductive StorageError where
  | unusableId (id : String)
  | file (error : FileError)
  | malformed (fault : Json.Fault)
deriving DecidableEq, Repr

def StorageError.message : StorageError → String
  | unusableId id => "I/O error: workflow id '" ++ id ++ "' is not usable as a file name"
  | file error => "I/O error: " ++ error.message
  | malformed fault => "Serialization error: " ++ fault.message

namespace Json.Format

def ofFile {α : Type} (f : Format α) : Except FileError String → Except StorageError α
  | .error e => .error (.file e)
  | .ok content =>
    match f.ofText content with
    | .error fault => .error (.malformed fault)
    | .ok a => .ok a

end Json.Format

structure Saved where
  id : String
  name : String
  description : String := ""
  graph : Graph
deriving DecidableEq, Repr

namespace Saved

def record : Json.Record Saved where
  title := "struct StoredWorkflow"
  blank := { id := "", name := "", graph := .empty }
  fields := [
    .needed "id" .text id fun x s => { s with id := x },
    .needed "name" .text name fun x s => { s with name := x },
    .lenient "description" .text description fun x s => { s with description := x },
    .needed "graph" Graph.format graph fun x s => { s with graph := x }]

def format : Json.Format Saved := record.format

end Saved

structure Summary where
  id : String
  name : String
  description : String
  nodeCount : Nat
  edgeCount : Nat
deriving DecidableEq, Repr

namespace Summary

def record : Json.Record Summary where
  title := "struct WorkflowMetadata"
  blank := ⟨"", "", "", 0, 0⟩
  fields := [
    .needed "id" .text id fun x s => { s with id := x },
    .needed "name" .text name fun x s => { s with name := x },
    .needed "description" .text description fun x s => { s with description := x },
    .needed "nodeCount" .count nodeCount fun x s => { s with nodeCount := x },
    .needed "edgeCount" .count edgeCount fun x s => { s with edgeCount := x }]

def format : Json.Format Summary := record.format

end Summary

def Saved.summary (s : Saved) : Summary :=
  ⟨s.id, s.name, s.description, s.graph.nodes.length, s.graph.edges.length⟩

end Runbook
