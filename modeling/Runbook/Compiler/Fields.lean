import Runbook.Compiler.Expression
import Runbook.Compiler.Inventory
import Runbook.Template.Table
import Runbook.Text.Lines
import Runbook.Workflow.Graph

/-!
The fields of a node: what the tokens of its template are filled with, and the references that a
resolver has to answer for that. A reference without an answer leaves a placeholder and is never
an error. Secrets can be kept out of the script, which then looks them up while it runs.
-/
namespace Runbook

/-- The value of a variable, or the placeholder that stands for it. -/
def Resolver.variableText (resolver : Resolver) (name : String) : String :=
  (resolver.parameter name).getD (Reference.placeholder ⟨.parameter, name⟩)

def Resolver.fill (resolver : Resolver) (line : String) : String :=
  Template.substitute resolver.variableText line

/-- The lines of a template of commands: blanks at their ends do not count, nor do lines without
anything else. -/
def commandLines (text : String) : List String :=
  ((Text.lines text).map fun line => String.ofList (Text.trimEnd line.toList)).filter (· ≠ "")

namespace Resolver

def templateCommands (resolver : Resolver) (template : Option String) : List String :=
  match template with
  | none => []
  | some name =>
    match resolver.template name with
    | some text => (commandLines text).map resolver.fill
    | none => [Reference.placeholder ⟨.template, name⟩]

def commands (resolver : Resolver) (template : Option String) (own : List String) :
    List String :=
  resolver.templateCommands template ++ own.map resolver.fill

def hosts (resolver : Resolver) : Option Target → List String
  | none => []
  | some (.host name) => [name]
  | some (.group name) =>
    match resolver.deviceGroup name with
    | some group => group.hosts
    | none => [Reference.placeholder ⟨.deviceGroup, name⟩]

end Resolver

def variableReferences (line : String) : List Reference :=
  (Template.names line).map fun name => ⟨.parameter, name⟩

def templateReferences (resolver : Resolver) : Option String → List Reference
  | none => []
  | some name =>
    ⟨.template, name⟩ ::
      (((resolver.template name).map commandLines).getD []).flatMap variableReferences

namespace Step

def references (resolver : Resolver) : Step → List Reference
  | connect c =>
    (match c.target with
      | some (.group name) => [⟨.deviceGroup, name⟩]
      | _ => []) ++
    (match c.credential with
      | some name => [⟨.credential, name⟩]
      | none => [])
  | deploy d => templateReferences resolver d.template ++ d.commands.flatMap variableReferences
  | execute e => templateReferences resolver e.template ++ e.commands.flatMap variableReferences
  | check c => variableReferences c.command
  | _ => []

def unresolved (resolver : Resolver) (step : Step) : List Reference :=
  (step.references resolver).filter fun r => !r.isResolved resolver

end Step

def secretExpression (redact : Bool) (credential name value : String) : Expression :=
  if redact then .secret credential name else .text value

namespace Connection

def credentialFields (resolver : Resolver) (redact : Bool) (credential : Option String) :
    List (String × Expression) :=
  match credential with
  | none =>
    [("device_type", .none), ("username", .none), ("password", .none), ("secret", .none),
      ("port", .none), ("conn_timeout", .none), ("global_delay_factor", .none)]
  | some name =>
    match resolver.credential name with
    | some c =>
      [("device_type", .text c.deviceType),
        ("username", .text c.username),
        ("password", secretExpression redact name "password" c.password),
        ("secret", (c.secret.map (secretExpression redact name "secret")).getD .none),
        ("port", .natural c.port.toNat),
        ("conn_timeout", (c.connTimeout.map fun n => .natural n.toNat).getD .none),
        ("global_delay_factor", (c.delayFactor.map .decimal).getD .none)]
    | none =>
      let token : Expression := .text (Reference.placeholder ⟨.credential, name⟩)
      [("device_type", token), ("username", token), ("password", token), ("secret", token),
        ("port", token), ("conn_timeout", .none), ("global_delay_factor", .none)]

def expressions (resolver : Resolver) (redact : Bool) (c : Connection) :
    List (String × Expression) :=
  ("hosts", .texts (resolver.hosts c.target)) :: ("credential", .ofText? c.credential) ::
    credentialFields resolver redact c.credential

end Connection

def backupCommand : String := "show running-config"

def Step.expressions (resolver : Resolver) (redact : Bool) : Step → List (String × Expression)
  | .start | .finish => []
  | .task t => [("action", .ofText? t.action), ("description", .ofText? t.description)]
  | .condition c => [("expression", .text c.expression)]
  | .loop l =>
    [("max_iterations", .natural l.maxIterations.toNat), ("until", .ofText? l.untilExpression)]
  | .connect c => c.expressions resolver redact
  | .deploy d =>
    [("commands", .texts (resolver.commands d.template d.commands)),
      ("save_config", .truth d.save),
      ("template", .ofText? d.template)]
  | .execute e => [("commands", .texts (resolver.commands e.template e.commands))]
  | .backup b =>
    [("command", .text (b.command.getD backupCommand)), ("destination", .ofText? b.destination)]
  | .check c => [("command", .text (resolver.fill c.command)), ("expect", .text c.expect)]

namespace Node

/-- Every field of a node. -/
def expressions (resolver : Resolver) (redact : Bool) (node : Node) :
    List (String × Expression) :=
  ("id", .text node.id) :: ("label", .text node.label) ::
    ("policy", .policy (node.settings.policy.getD {}) node.settings.timeoutSeconds) ::
      node.settings.step.expressions resolver redact

/-- The text that a node leaves in a script. -/
def ownText (table : Template.Table) (resolver : Resolver) (redact : Bool) (node : Node) :
    String :=
  table.render node.kind
    ((node.expressions resolver redact).map fun f => (f.1, f.2.render))

end Node

end Runbook
