import Runbook.CommandLine.Arguments
import Runbook.Compiler.Compile
import Runbook.Library.Path
import Runbook.Library.Saved
import Runbook.Text.Plain

/-!
What a command reports: an exit code, what it prints on both streams, and at most one file that it
writes. Everything it reads comes from files, so a report can be worked out before anything is
written. A failure leaves one line on the error stream. The program also logs notices and warnings
there while it works, such as the count of the compiled steps or a path that turns back; these
lines are left out of a report, which has only the logged error that ends a failed command.
-/
namespace Runbook.CommandLine

inductive RunError where
  | storage (error : StorageError)
  | limit (error : LimitError)
deriving DecidableEq, Repr

def RunError.message : RunError → String
  | storage error => error.message
  | limit error => error.message

abbrev Reader := String → Except FileError String

structure Report where
  code : Nat
  stdout : String := ""
  stderr : String := ""
  output : Option (String × String) := none
deriving DecidableEq, Repr

def hanging (message : String) : String :=
  String.ofList (message.toList.flatMap fun c => if c = '\n' then "\n    ".toList else [c])

/-- A command that breaks off has done nothing but tell why, in a line that steers no terminal. -/
def Report.failure (error : RunError) : Report :=
  { code := 1, stderr := Text.plain ("[ERROR netflow] " ++ hanging error.message ++ "\n") }

/-- The graph that a value holds, bare or saved as a runbook. -/
def graphOfValue (v : Json.Value) : Except Json.Fault Graph :=
  match v with
  | .object members =>
    if (Json.Value.member? "graph" members).isSome then Saved.graph <$> Saved.format.ofValue v
    else Graph.format.ofValue v
  | _ => Graph.format.ofValue v

def loadGraph (read : Reader) (path : String) : Except StorageError Graph :=
  match read path with
  | .error e => .error (.file e)
  | .ok content =>
    match Json.Value.ofText content >>= graphOfValue with
    | .error fault => .error (.malformed fault)
    | .ok g => .ok g

def loadOr {α : Type} (f : Json.Format α) (absent : α) (read : Reader) :
    Option String → Except StorageError α
  | none => .ok absent
  | some path => f.ofFile (read path)

def location (f : Finding) : String :=
  match f.node, f.edge with
  | some node, some edge => " (node " ++ node ++ ", edge " ++ edge ++ ")"
  | some node, none => " (node " ++ node ++ ")"
  | none, some edge => " (edge " ++ edge ++ ")"
  | none, none => ""

def findingLines (findings : List Finding) : String :=
  String.join (findings.map fun f => f.line ++ location f ++ "\n")

def reportFindings (path : String) (json : Bool) (g : Graph) : Report :=
  let findings := g.findings
  let code := if hasErrors findings then 1 else 0
  if json then
    { code := code, stdout := Finding.format.list.pretty findings ++ "\n" }
  else if findings.isEmpty then { code := code, stdout := path ++ ": no findings\n" }
  else { code := code, stderr := findingLines findings }

def padded (width : Nat) (s : String) : String :=
  s ++ String.ofList (List.replicate (width - s.length) ' ')

def nodeLine (node : Node) : String :=
  "  " ++ padded 24 node.id ++ " " ++ node.kind.name ++ " " ++ node.label ++ "\n"

def edgeLine (edge : Edge) : String :=
  let port := match edge.port with
    | some port => " [" ++ port.name ++ "]"
    | none => ""
  "  " ++ edge.source ++ " -> " ++ edge.target ++ port ++ "  (" ++ edge.id ++ ")\n"

def reportContents (g : Graph) : Report where
  code := 0
  stdout :=
    Text.numeral g.nodes.length ++ " node(s), " ++ Text.numeral g.edges.length ++ " edge(s)\n" ++
      String.join (g.nodes.map nodeLine) ++ String.join (g.edges.map edgeLine)

def manifest (script : Script) : String :=
  (Json.Value.sorted (.object [
    ("diagnostics", Finding.format.list.write script.diagnostics),
    ("resources", Missing.format.list.write script.resources)])).pretty ++ "\n"

/-- The report on a script. The script goes to the output file if there is one, and a manifest
goes where the script does not. -/
def reportScript (output : Option String) (withManifest : Bool) (options : Options)
    (script : Script) : Report :=
  let text := script.render options
  let manifest := if withManifest then manifest script else ""
  match output with
  | some path => { code := 0, stdout := manifest, output := some (path, text) }
  | none => { code := 0, stdout := text, stderr := manifest }

def reportRefusal (path : String) (findings : List Finding) : Report where
  code := 1
  stderr := path ++ ": not compilable\n" ++ findingLines findings

namespace Command

def attempt (read : Reader) : Command → Except RunError Report
  | validate graph json =>
    match loadGraph read graph with
    | .error e => .error (.storage e)
    | .ok g => .ok (reportFindings graph json g)
  | inspect graph =>
    match loadGraph read graph with
    | .error e => .error (.storage e)
    | .ok g => .ok (reportContents g)
  | compile graph resolved config output withManifest =>
    let loaded := do
      let g ← loadGraph read graph
      let inventory ← loadOr Inventory.format {} read resolved
      let options ← loadOr Options.format {} read config
      return (g, inventory, options)
    match loaded with
    | .error e => .error (.storage e)
    | .ok (g, inventory, options) =>
      match ({ options := options } : Compiler).compile g inventory.resolver with
      | .error (.notCompilable findings) => .ok (reportRefusal graph findings)
      | .error (.limit e) => .error (.limit e)
      | .ok script => .ok (reportScript output withManifest options script)

def report (read : Reader) (command : Command) : Report :=
  match command.attempt read with
  | .error e => .failure e
  | .ok report => report

end Command

def usage : String :=
  "Usage: netflow validate GRAPH [--json]\n" ++
  "       netflow inspect GRAPH\n" ++
  "       netflow compile GRAPH [--resolved PATH] [--config PATH] [-o PATH] [--manifest]\n"

def reportRequest (read : Reader) : Except UsageError Request → Report
  | .error e => { code := 2, stderr := "error: " ++ e.message ++ "\n\n" ++ usage }
  | .ok .version => { code := 0, stdout := "netflow-cli 0.1.0\n" }
  | .ok .help => { code := 0, stdout := usage }
  | .ok (.run command) => command.report read

/-- What a command line reports in a folder, and the folder that it leaves. An output file that
can not be written makes the whole command fail. -/
def runIn (f : Folder) (words : List String) : Report × Folder :=
  let report := reportRequest f.readPath (Request.ofWords words)
  match report.output with
  | none => (report, f)
  | some (path, text) =>
    match f.writePath path text with
    | .error e => (.failure (.storage (.file e)), f)
    | .ok f => (report, f)

end Runbook.CommandLine
