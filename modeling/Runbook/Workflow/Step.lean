import Runbook.Workflow.Kind

/-!
Steps with their parameters. A step has the parameters of its kind and no others; its settings
add what every kind may have, a retry policy and a time limit.
-/
namespace Runbook

inductive OnError where
  | stop
  | proceed
  | rollback
deriving DecidableEq, Repr

namespace OnError

def all : List OnError := [stop, proceed, rollback]

def name : OnError → String
  | stop => "stop"
  | proceed => "continue"
  | rollback => "rollback"

def format : Json.Format OnError := .names all name

end OnError

structure Policy where
  retryCount : UInt32 := 0
  retryIntervalSeconds : UInt32 := 0
  onError : OnError := .stop
deriving DecidableEq, Repr

namespace Policy

def record : Json.Record Policy where
  title := "struct ErrorHandling"
  blank := {}
  fields := [
    .lenient "retryCount" .uint32 retryCount fun n p => { p with retryCount := n },
    .lenient "retryIntervalSeconds" .uint32 retryIntervalSeconds
      fun n p => { p with retryIntervalSeconds := n },
    .lenient "onError" OnError.format onError fun e p => { p with onError := e }]

def format : Json.Format Policy := record.format

end Policy

/-- The devices a connection reaches: one host, or a group that is looked up by name. -/
inductive Target where
  | host (name : String)
  | group (name : String)
deriving DecidableEq, Repr

namespace Target

def hostName? : Target → Option String
  | host name => some name
  | group _ => none

def groupName? : Target → Option String
  | host _ => none
  | group name => some name

def hostRecord : Json.Record String where
  title := "struct variant TargetSelector::Host"
  blank := ""
  fields := [.needed "host" .text id fun name _ => name]

def groupRecord : Json.Record String where
  title := "struct variant TargetSelector::DeviceGroup"
  blank := ""
  fields := [.needed "groupRef" .text id fun name _ => name]

def tagged : Json.Tagged Target where
  tag := "type"
  title := "internally tagged enum TargetSelector"
  variants := [
    .record "host" hostRecord host hostName?,
    .record "deviceGroup" groupRecord group groupName?]

def format : Json.Format Target := tagged.format

end Target

structure Task where
  action : Option String := none
  description : Option String := none
deriving DecidableEq, Repr

def Task.record : Json.Record Task where
  title := "struct TaskConfig"
  blank := {}
  fields := [
    .option "action" .text action fun x t => { t with action := x },
    .option "description" .text description fun x t => { t with description := x }]

structure Condition where
  expression : String := ""
deriving DecidableEq, Repr

def Condition.record : Json.Record Condition where
  title := "struct ConditionConfig"
  blank := {}
  fields := [.lenient "expression" .text expression fun x c => { c with expression := x }]

/-- A bound on the rounds, and an expression that ends them early. -/
structure Loop where
  maxIterations : UInt32 := 1
  untilExpression : Option String := none
deriving DecidableEq, Repr

def Loop.record : Json.Record Loop where
  title := "struct LoopConfig"
  blank := {}
  fields := [
    .lenient "maxIterations" .uint32 maxIterations fun n l => { l with maxIterations := n },
    .option "until" .text untilExpression fun x l => { l with untilExpression := x }]

structure Connection where
  credential : Option String := none
  target : Option Target := none
deriving DecidableEq, Repr

def Connection.record : Json.Record Connection where
  title := "struct DeviceConnectConfig"
  blank := {}
  fields := [
    .option "credentialRef" .text credential fun x c => { c with credential := x },
    .option "target" Target.format target fun x c => { c with target := x }]

structure Deployment where
  template : Option String := none
  commands : List String := []
  save : Bool := false
deriving DecidableEq, Repr

def Deployment.record : Json.Record Deployment where
  title := "struct ConfigDeployConfig"
  blank := {}
  fields := [
    .option "templateRef" .text template fun x d => { d with template := x },
    .many "commands" .text commands fun x d => { d with commands := x },
    .lenient "saveConfig" .bool save fun x d => { d with save := x }]

structure Execution where
  commands : List String := []
  template : Option String := none
deriving DecidableEq, Repr

def Execution.record : Json.Record Execution where
  title := "struct CommandExecuteConfig"
  blank := {}
  fields := [
    .many "commands" .text commands fun x e => { e with commands := x },
    .option "templateRef" .text template fun x e => { e with template := x }]

structure Backup where
  command : Option String := none
  destination : Option String := none
deriving DecidableEq, Repr

def Backup.record : Json.Record Backup where
  title := "struct ConfigBackupConfig"
  blank := {}
  fields := [
    .option "command" .text command fun x b => { b with command := x },
    .option "destination" .text destination fun x b => { b with destination := x }]

structure StatusCheck where
  command : String := ""
  expect : String := ""
deriving DecidableEq, Repr

def StatusCheck.record : Json.Record StatusCheck where
  title := "struct StatusCheckConfig"
  blank := {}
  fields := [
    .lenient "command" .text command fun x c => { c with command := x },
    .lenient "expect" .text expect fun x c => { c with expect := x }]

inductive Step where
  | start
  | finish
  | task (task : Task)
  | condition (condition : Condition)
  | loop (loop : Loop)
  | connect (connection : Connection)
  | deploy (deployment : Deployment)
  | execute (execution : Execution)
  | backup (backup : Backup)
  | check (check : StatusCheck)
deriving DecidableEq, Repr

namespace Step

def kind : Step → Kind
  | start => .start
  | finish => .finish
  | task _ => .task
  | condition _ => .condition
  | loop _ => .loop
  | connect _ => .connect
  | deploy _ => .deploy
  | execute _ => .execute
  | backup _ => .backup
  | check _ => .check

def ofKind : Kind → Step
  | .start => start
  | .finish => finish
  | .task => task {}
  | .condition => condition {}
  | .loop => loop {}
  | .connect => connect {}
  | .deploy => deploy {}
  | .execute => execute {}
  | .backup => backup {}
  | .check => check {}

theorem kind_ofKind (kind : Kind) : (ofKind kind).kind = kind := by cases kind <;> rfl

def task? : Step → Option Task
  | task t => some t
  | _ => none

def condition? : Step → Option Condition
  | condition c => some c
  | _ => none

def loop? : Step → Option Loop
  | loop l => some l
  | _ => none

def connect? : Step → Option Connection
  | connect c => some c
  | _ => none

def deploy? : Step → Option Deployment
  | deploy d => some d
  | _ => none

def execute? : Step → Option Execution
  | execute e => some e
  | _ => none

def backup? : Step → Option Backup
  | backup b => some b
  | _ => none

def check? : Step → Option StatusCheck
  | check c => some c
  | _ => none

def tagged : Json.Tagged Step where
  tag := "kind"
  title := "internally tagged enum StepConfig"
  variants := [
    .bare "start" start (· = start),
    .bare "end" finish (· = finish),
    .record "task" Task.record task task?,
    .record "condition" Condition.record condition condition?,
    .record "loop" Loop.record loop loop?,
    .record "deviceConnect" Connection.record connect connect?,
    .record "configDeploy" Deployment.record deploy deploy?,
    .record "commandExecute" Execution.record execute execute?,
    .record "configBackup" Backup.record backup backup?,
    .record "statusCheck" StatusCheck.record check check?]

def format : Json.Format Step := tagged.format

end Step

structure Settings where
  step : Step
  policy : Option Policy := none
  timeoutSeconds : Option UInt32 := none
deriving DecidableEq, Repr

namespace Settings

def shared : List (Json.Field Settings) := [
  .option "errorHandling" Policy.format policy fun x s => { s with policy := x },
  .option "timeoutSeconds" .uint32 timeoutSeconds fun x s => { s with timeoutSeconds := x }]

def members (settings : Settings) : List (String × Json.Value) :=
  Step.tagged.members settings.step ++
    shared.filterMap fun f => (f.write settings).map fun v => (f.name, v)

/-- Fills in the shared fields as they are met and keeps every other member for the step. -/
def fill (setting : Json.Setting) (seen : List String) (settings : Settings) :
    List (Json.Leaf String × Json.Source) →
      Except Json.Fault (Settings × List (String × Json.Value))
  | [] => .ok (settings, [])
  | (name, s) :: rest => do
    let name ← name.read
    match shared.find? fun f => f.name = name with
    | none =>
      let v ← s.value (Json.Tagged.valueDepth setting)
      let (settings, buffered) ← fill setting seen settings rest
      return (settings, (name, v) :: buffered)
    | some f =>
      if name ∈ seen then throw (.duplicateField name)
      let set ← f.read setting s
      fill setting (name :: seen) (set settings) rest

/-- The members of the step stand among the shared ones, so the step is read once all have been
seen. -/
def read : Json.Decoder Settings
  | setting, .object members closing => do
    let inner ← setting.enter
    let (settings, buffered) ← fill inner [] ⟨.start, none, none⟩ members
    closing.readMembers
    let step ← Step.tagged.readMembers Json.Tagged.buffer (Json.Source.ofMembers buffered) .closed
    return { settings with step := step }
  | _, s => Json.wrongType "struct NodeConfig" s

def format : Json.Format Settings := ⟨fun settings => .object settings.members, read⟩

end Settings

end Runbook
