import Runbook.Json.Format

/-!
What an editing session tells its surroundings, and the sinks that take it. An outbox is a sink
that lists what it took: a closed one refuses every event and one without a reader drops it.
Neither stops the session.
-/
namespace Runbook

inductive Event where
  | graphChanged (canUndo canRedo : Bool) (nodeCount edgeCount : Nat)
  | validated (errors warnings infos : Nat)
  | compiled (steps unresolved : Nat)
  | compileFailed (error : String)
deriving DecidableEq, Repr

namespace Event

structure Change where
  canUndo : Bool := false
  canRedo : Bool := false
  nodeCount : Nat := 0
  edgeCount : Nat := 0

def Change.record : Json.Record Change where
  title := "struct variant SessionEvent::GraphChanged"
  blank := {}
  fields := [
    .needed "canUndo" .bool canUndo fun x c => { c with canUndo := x },
    .needed "canRedo" .bool canRedo fun x c => { c with canRedo := x },
    .needed "nodeCount" .count nodeCount fun x c => { c with nodeCount := x },
    .needed "edgeCount" .count edgeCount fun x c => { c with edgeCount := x }]

structure Tally where
  errors : Nat := 0
  warnings : Nat := 0
  infos : Nat := 0

def Tally.record : Json.Record Tally where
  title := "struct variant SessionEvent::Validated"
  blank := {}
  fields := [
    .needed "errorCount" .count errors fun x t => { t with errors := x },
    .needed "warningCount" .count warnings fun x t => { t with warnings := x },
    .needed "infoCount" .count infos fun x t => { t with infos := x }]

structure Yield where
  steps : Nat := 0
  unresolved : Nat := 0

def Yield.record : Json.Record Yield where
  title := "struct variant SessionEvent::Compiled"
  blank := {}
  fields := [
    .needed "stepCount" .count steps fun x y => { y with steps := x },
    .needed "unresolvedCount" .count unresolved fun x y => { y with unresolved := x }]

def failureRecord : Json.Record String where
  title := "struct variant SessionEvent::CompileFailed"
  blank := ""
  fields := [.needed "error" .text id fun x _ => x]

def change? : Event → Option Change
  | graphChanged u r n e => some ⟨u, r, n, e⟩
  | _ => none

def tally? : Event → Option Tally
  | validated e w i => some ⟨e, w, i⟩
  | _ => none

def yield? : Event → Option Yield
  | compiled s u => some ⟨s, u⟩
  | _ => none

def failure? : Event → Option String
  | compileFailed error => some error
  | _ => none

def tagged : Json.Tagged Event where
  tag := "type"
  title := "internally tagged enum SessionEvent"
  variants := [
    .record "graphChanged" Change.record
      (fun c => graphChanged c.canUndo c.canRedo c.nodeCount c.edgeCount) change?,
    .record "validated" Tally.record (fun t => validated t.errors t.warnings t.infos) tally?,
    .record "compiled" Yield.record (fun y => compiled y.steps y.unresolved) yield?,
    .record "compileFailed" failureRecord compileFailed failure?]

def format : Json.Format Event := tagged.format

end Event

/-- What takes the events of a session. A sink may refuse an event, and either way change. -/
class Sink (σ : Type) where
  /-- The sink after an event, and whether it took the event. -/
  send : Event → σ → σ × Bool

inductive Outbox where
  | closed
  | discarding
  | keeping (events : List Event)
deriving DecidableEq, Repr

namespace Outbox

def send (event : Event) : Outbox → Outbox × Bool
  | closed => (closed, false)
  | discarding => (discarding, true)
  | keeping events => (keeping (events ++ [event]), true)

instance : Sink Outbox := ⟨send⟩

def events : Outbox → List Event
  | keeping events => events
  | _ => []

def clear : Outbox → Outbox
  | keeping _ => keeping []
  | outbox => outbox

end Outbox

end Runbook
