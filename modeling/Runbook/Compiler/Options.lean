import Runbook.Json.Format

/-!
Options of the compiler: the shape of the script, whether secrets stay out of it, and the limits
on its size.
-/
namespace Runbook

structure Options where
  indentWidth : Nat := 4
  functionName : String := "run_workflow"
  runtimeModule : String := "netflow_runtime"
  headerComment : String := "Generated by netflow. Do not edit by hand."
  redactSecrets : Bool := false
  maxSteps : Nat := 10000
  maxBytes : Nat := 16 * 1024 * 1024
  maxDepth : Nat := 64
deriving DecidableEq, Repr

namespace Options

def record : Json.Record Options where
  title := "struct CompilerOptions"
  blank := {}
  fields := [
    .lenient "indentWidth" .count indentWidth fun x o => { o with indentWidth := x },
    .lenient "functionName" .text functionName fun x o => { o with functionName := x },
    .lenient "runtimeModule" .text runtimeModule fun x o => { o with runtimeModule := x },
    .lenient "headerComment" .text headerComment fun x o => { o with headerComment := x },
    .lenient "redactSecrets" .bool redactSecrets fun x o => { o with redactSecrets := x },
    .lenient "maxEmittedSteps" .count maxSteps fun x o => { o with maxSteps := x },
    .lenient "maxEmittedBytes" .count maxBytes fun x o => { o with maxBytes := x },
    .lenient "maxNestingDepth" .count maxDepth fun x o => { o with maxDepth := x }]

def format : Json.Format Options := record.format

def indent (o : Options) : String := String.ofList (List.replicate o.indentWidth ' ')

end Options

/-- Bounds on a script. An absent bound is none. -/
structure Limits where
  steps : Option Nat
  depth : Option Nat
  bytes : Option Nat
deriving DecidableEq, Repr

namespace Limits

def unbounded : Limits := ⟨none, none, none⟩

end Limits

def Options.limits (o : Options) : Limits := ⟨some o.maxSteps, some o.maxDepth, some o.maxBytes⟩

inductive LimitError where
  | tooManySteps (limit : Nat)
  | tooManyBytes (limit : Nat)
  | tooDeep (limit : Nat)
deriving DecidableEq, Repr

def LimitError.message : LimitError → String
  | tooManySteps limit =>
    "Compilation exceeded the limit of " ++ Text.numeral limit ++ " emitted steps"
  | tooManyBytes limit =>
    "Compilation exceeded the limit of " ++ Text.numeral limit ++ " bytes of emitted text"
  | tooDeep limit =>
    "Branch nesting exceeded the limit of " ++ Text.numeral limit ++ " levels"

def checkBound (bound : Option Nat) (error : Nat → LimitError) (n : Nat) :
    Except LimitError Unit :=
  match bound with
  | none => .ok ()
  | some limit => if limit < n then .error (error limit) else .ok ()

end Runbook
