import Runbook.Template.Token
import Runbook.Workflow.Kind

/-!
The text that each kind of step leaves in a script. A template is a text whose tokens name fields
of its kind, and the table takes no template with another token in it. The templates of a
condition, a loop and a status check head a block.
-/
namespace Runbook

structure UnknownField where
  kind : Kind
  field : String
deriving DecidableEq, Repr

def UnknownField.message (e : UnknownField) : String :=
  "Template for '" ++ e.kind.name ++ "' references unknown field '" ++ e.field ++ "'"

namespace Kind

def commonFields : List String := ["id", "label", "policy"]

def fields : Kind → List String
  | start | finish => []
  | task => ["action", "description"]
  | condition => ["expression"]
  | loop => ["max_iterations", "until"]
  | connect =>
    ["credential", "hosts", "device_type", "username", "password", "secret", "port",
      "conn_timeout", "global_delay_factor"]
  | deploy => ["commands", "save_config", "template"]
  | execute => ["commands"]
  | backup => ["command", "destination"]
  | check => ["command", "expect"]

def hasField (kind : Kind) (field : String) : Bool :=
  commonFields.contains field || kind.fields.contains field

end Kind

namespace Template

def written (name : String) : String := "\x7b\x7b" ++ name ++ "\x7d\x7d"

def ofKind : Kind → String
  | .start => "ctx.begin(" ++ written "id" ++ ")"
  | .finish => "ctx.finish(" ++ written "id" ++ ")"
  | .task =>
    "ctx.run_task(" ++ written "id" ++ ", action=" ++ written "action" ++ ", " ++
      written "policy" ++ ")"
  | .condition => "if ctx.evaluate(" ++ written "id" ++ ", " ++ written "expression" ++ "):"
  | .loop =>
    "for iteration in ctx.iterations(" ++ written "id" ++ ", max_iterations=" ++
      written "max_iterations" ++ ", until=" ++ written "until" ++ "):"
  | .connect =>
    "ctx.connect(\n" ++
      "    " ++ written "id" ++ ",\n" ++
      "    hosts=" ++ written "hosts" ++ ",\n" ++
      "    device_type=" ++ written "device_type" ++ ",\n" ++
      "    username=" ++ written "username" ++ ",\n" ++
      "    password=" ++ written "password" ++ ",\n" ++
      "    secret=" ++ written "secret" ++ ",\n" ++
      "    port=" ++ written "port" ++ ",\n" ++
      "    conn_timeout=" ++ written "conn_timeout" ++ ",\n" ++
      "    global_delay_factor=" ++ written "global_delay_factor" ++ ",\n" ++
      "    " ++ written "policy" ++ ",\n" ++
      ")"
  | .deploy =>
    "ctx.deploy_config(" ++ written "id" ++ ", commands=" ++ written "commands" ++
      ", save_config=" ++ written "save_config" ++ ", " ++ written "policy" ++ ")"
  | .execute =>
    "ctx.execute(" ++ written "id" ++ ", commands=" ++ written "commands" ++ ", " ++
      written "policy" ++ ")"
  | .backup =>
    "ctx.backup_config(" ++ written "id" ++ ", command=" ++ written "command" ++
      ", destination=" ++ written "destination" ++ ", " ++ written "policy" ++ ")"
  | .check =>
    "if ctx.check_status(" ++ written "id" ++ ", command=" ++ written "command" ++
      ", expect=" ++ written "expect" ++ ", " ++ written "policy" ++ "):"

structure Table where
  text : Kind → String

namespace Table

def standard : Table := ⟨ofKind⟩

def unknown? (kind : Kind) (text : String) : Option String :=
  (names text).find? fun name => !kind.hasField name

def set (kind : Kind) (text : String) : EStateM UnknownField Table Unit := fun t =>
  match unknown? kind text with
  | some field => .error ⟨kind, field⟩ t
  | none => .ok () ⟨fun k => if k = kind then text else t.text k⟩

/-- Replaces templates in the order of a list, up to the first one that is refused. -/
def setAll : List (Kind × String) → EStateM UnknownField Table Unit
  | [] => return
  | (kind, text) :: rest => do
    set kind text
    setAll rest

def same (t u : Table) : Bool := Kind.all.all fun kind => t.text kind = u.text kind

/-- The template of a kind with its tokens replaced by fields. A field without a value leaves
nothing. -/
def render (t : Table) (kind : Kind) (fields : List (String × String)) : String :=
  substitute (fun name => (fields.lookup name).getD "") (t.text kind)

end Table

end Template

end Runbook
