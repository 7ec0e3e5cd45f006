import Runbook.Json.Format

/-!
The kinds of step a runbook is made of, and the ports by which the branching kinds are left. A
kind without ports has one plain way out.
-/
namespace Runbook

/-- A named way out of a branching step. A condition has `whenTrue` and `whenFalse`, a loop
`body` and `exit`, a status check `success` and `failure`. -/
inductive Port where
  | whenTrue
  | whenFalse
  | body
  | exit
  | success
  | failure
deriving DecidableEq, Repr

namespace Port

def all : List Port := [whenTrue, whenFalse, body, exit, success, failure]

def name : Port → String
  | whenTrue => "true"
  | whenFalse => "false"
  | body => "continue"
  | exit => "break"
  | success => "success"
  | failure => "failure"

/-- Whether what lies behind the port is nested under the step it leaves. The way out of a loop
goes on at the level of the loop. -/
def opensArm : Port → Bool
  | exit => false
  | _ => true

def format : Json.Format Port := .names all name

end Port

inductive Kind where
  | start
  | finish
  | task
  | condition
  | loop
  | connect
  | deploy
  | execute
  | backup
  | check
deriving DecidableEq, Repr

namespace Kind

def all : List Kind :=
  [start, finish, task, condition, loop, connect, deploy, execute, backup, check]

def name : Kind → String
  | start => "start"
  | finish => "end"
  | task => "task"
  | condition => "condition"
  | loop => "loop"
  | connect => "deviceConnect"
  | deploy => "configDeploy"
  | execute => "commandExecute"
  | backup => "configBackup"
  | check => "statusCheck"

def ports : Kind → List Port
  | condition => [.whenTrue, .whenFalse]
  | loop => [.body, .exit]
  | check => [.success, .failure]
  | _ => []

def isBranching (kind : Kind) : Bool := !kind.ports.isEmpty

/-- Whether an edge that leaves the kind may name this port, or none. -/
def accepts (kind : Kind) : Option Port → Bool
  | some port => kind.ports.contains port
  | none => !kind.isBranching

def format : Json.Format Kind := .names all name

theorem mem_all (kind : Kind) : kind ∈ all := by cases kind <;> decide

end Kind

end Runbook
