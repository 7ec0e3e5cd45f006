import Runbook.CommandLine.Report

/-!
The program. It reads the files that a command line names, works out the report on it, writes the
output file and prints the rest.
-/
namespace Runbook.CommandLine

/-- The reason behind a failure of the system, which numbers its reasons under either sign. -/
def fileErrorOf (e : IO.Error) : FileError :=
  match e with
  | .noFileOrDirectory .. => .notFound
  | .inappropriateType _ code _ | .invalidArgument _ code _ =>
    match code.toInt32.toInt.natAbs with
    | 20 => .notFolder
    | 21 => .isFolder
    | 36 => .nameTooLong
    | _ => .other e.toString
  | e => .other e.toString

def tryAction {α : Type} (act : IO α) : IO (Except FileError α) := do
  try return .ok (← act) catch e => return .error (fileErrorOf e)

def readText (path : String) : IO (Except FileError String) := do
  match ← tryAction (IO.FS.readBinFile path) with
  | .error e => return .error e
  | .ok bytes =>
    match Entry.ofBytes bytes.toList with
    | .text content => return .ok content
    | _ => return .error .notText

def writeOutput (report : Report) : IO Report := do
  match report.output with
  | none => return report
  | some (path, text) =>
    match ← tryAction (IO.FS.writeFile path text) with
    | .error e => return .failure (.storage (.file e))
    | .ok _ => return report

end Runbook.CommandLine

open Runbook.CommandLine in
def main (words : List String) : IO UInt32 := do
  let request := Request.ofWords words
  let sources := match request with
    | .ok request => request.sources
    | .error _ => []
  let texts ← sources.mapM fun path => return (path, ← readText path)
  let read path := (texts.lookup path).getD (.error .notFound)
  let report ← writeOutput (reportRequest read request)
  IO.print report.stdout
  IO.eprint report.stderr
  return UInt32.ofNat report.code
