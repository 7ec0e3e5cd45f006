import Runbook.Workflow.Graph

/-!
Findings about a graph: how serious one is, what it is about, its wording, and the node, the edge
and the port it points at. Errors keep a graph from being compiled, warnings and notes do not.
-/
namespace Runbook

inductive Severity where
  | info
  | warning
  | error
deriving DecidableEq, Repr

namespace Severity

def all : List Severity := [info, warning, error]

def name : Severity → String
  | info => "info"
  | warning => "warning"
  | error => "error"

def format : Json.Format Severity := .names all name

end Severity

inductive Topic where
  | missingStart
  | missingEnd
  | multipleStarts
  | edgeIntoStart
  | edgeOutOfEnd
  | noIncomingEdge
  | noOutgoingEdge
  | missingBranch
  | danglingEdge
  | illegalPort
  | duplicatePort
  | fanOut
  | unreachable
  | cycleOutsideLoop
  | incompleteConfig
  | noFailureBranch
  | unresolvedResource
  | truncatedPath
deriving DecidableEq, Repr

namespace Topic

def all : List Topic :=
  [missingStart, missingEnd, multipleStarts, edgeIntoStart, edgeOutOfEnd, noIncomingEdge,
    noOutgoingEdge, missingBranch, danglingEdge, illegalPort, duplicatePort, fanOut, unreachable,
    cycleOutsideLoop, incompleteConfig, noFailureBranch, unresolvedResource, truncatedPath]

def name : Topic → String
  | missingStart => "missing_start"
  | missingEnd => "missing_end"
  | multipleStarts => "multiple_starts"
  | edgeIntoStart => "edge_into_start"
  | edgeOutOfEnd => "edge_out_of_end"
  | noIncomingEdge => "no_incoming_edge"
  | noOutgoingEdge => "no_outgoing_edge"
  | missingBranch => "missing_branch"
  | danglingEdge => "dangling_edge"
  | illegalPort => "illegal_port"
  | duplicatePort => "duplicate_port"
  | fanOut => "fan_out"
  | unreachable => "unreachable"
  | cycleOutsideLoop => "cycle_outside_loop"
  | incompleteConfig => "incomplete_config"
  | noFailureBranch => "no_failure_branch"
  | unresolvedResource => "unresolved_resource"
  | truncatedPath => "truncated_path"

def format : Json.Format Topic := .names all name

end Topic

structure Finding where
  severity : Severity
  topic : Topic
  message : String
  node : Option NodeId := none
  edge : Option EdgeId := none
  port : Option Port := none
deriving DecidableEq, Repr

namespace Finding

def record : Json.Record Finding where
  title := "struct ValidationIssue"
  blank := { severity := .info, topic := .missingStart, message := "" }
  fields := [
    .needed "severity" Severity.format severity fun x f => { f with severity := x },
    .needed "code" Topic.format topic fun x f => { f with topic := x },
    .needed "message" .text message fun x f => { f with message := x },
    .option "nodeId" .text node fun x f => { f with node := x },
    .option "edgeId" .text edge fun x f => { f with edge := x },
    .option "port" Port.format port fun x f => { f with port := x }]

def format : Json.Format Finding := record.format

def isError (f : Finding) : Bool := f.severity = .error

def line (f : Finding) : String := "[" ++ f.severity.name ++ "] " ++ f.message

end Finding

def hasErrors (findings : List Finding) : Bool := findings.any Finding.isError

def quotedName (name : String) : String := "'" ++ name ++ "'"

end Runbook
