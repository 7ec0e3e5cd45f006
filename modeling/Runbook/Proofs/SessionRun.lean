import Mathlib.Tactic.Common
import Runbook.Editor.Session
import Runbook.Proofs.Zipper

/-!
Runs of editing sessions. What a request does to a history and what it answers is told without any
sink; a session does just that, and besides it sends its sink one event for each answer that has
one. So a sink has no say in a session: it is sent the same events in the same order whatever it
does with them. An edit that is refused leaves the whole session as it was, and one that is made
can be undone and redone.
-/
namespace Runbook

def Sink.sendAll {σ : Type} [Sink σ] (sink : σ) (events : List Event) : σ :=
  events.foldl (fun sink event => (send event sink).1) sink

theorem Sink.sendAll_append {σ : Type} [Sink σ] (sink : σ) (events more : List Event) :
    sendAll sink (events ++ more) = sendAll (sendAll sink events) more :=
  List.foldl_append

/-- An outbox that keeps events has them all, after the ones it had. -/
theorem Outbox.sendAll_keeping (kept events : List Event) :
    Sink.sendAll (keeping kept) events = keeping (kept ++ events) := by
  induction events generalizing kept with
  | nil => rw [List.append_nil]; rfl
  | cons event rest ih =>
    have hrest := ih (kept ++ [event])
    rw [List.append_assoc] at hrest
    exact hrest

inductive Edit where
  | addNode (node : Node)
  | removeNode (id : NodeId)
  | addEdge (edge : Edge)
  | connect (id : EdgeId) (source target : NodeId) (port : Option Port)
  | removeEdge (id : EdgeId)
  | updateSettings (id : NodeId) (patch : Json.Value)
  | moveNode (id : NodeId) (position : Position)
  | renameNode (id : NodeId) (label : String)

def Edit.apply : Edit → Graph → Except EditError Graph
  | addNode node, g => g.addNode node
  | removeNode id, g => g.removeNode id
  | addEdge edge, g => g.addEdge edge
  | connect id source target port, g => g.addEdge ⟨id, source, target, port⟩
  | removeEdge id, g => g.removeEdge id
  | updateSettings id patch, g => g.updateSettings id patch
  | moveNode id position, g => g.moveNode id position
  | renameNode id label, g => g.renameNode id label

namespace Session

inductive Request where
  | edit (e : Edit)
  | undo
  | redo
  | validate
  | compile (resolver : Resolver)

inductive Answer where
  | done
  | connected (id : EdgeId)
  | refused (e : EditError)
  | moved (happened : Bool)
  | checked (findings : List Finding)
  | compiled (outcome : Except CompileError Script)

end Session

def Edit.answer : Edit → Session.Answer
  | connect id _ _ _ => .connected id
  | _ => .done

namespace Session

section

variable {σ : Type} [Sink σ]

def make : Edit → EStateM EditError (Session σ) Answer
  | .addNode node => do addNode node; return .done
  | .removeNode id => do removeNode id; return .done
  | .addEdge edge => do addEdge edge; return .done
  | .connect id source target port => do return .connected (← connect id source target port)
  | .removeEdge id => do removeEdge id; return .done
  | .updateSettings id patch => do updateSettings id patch; return .done
  | .moveNode id position => do moveNode id position; return .done
  | .renameNode id label => do renameNode id label; return .done

def perform (s : Session σ) : Request → Session σ × Answer
  | .edit e =>
    match make e s with
    | .error err next => (next, .refused err)
    | .ok answer next => (next, answer)
  | .undo => (s.undo?.getD s, .moved s.undo?.isSome)
  | .redo => (s.redo?.getD s, .moved s.redo?.isSome)
  | .validate => (s.validate.2, .checked s.validate.1)
  | .compile resolver => ((s.compile resolver).2, .compiled (s.compile resolver).1)

end

def advance (compiler : Compiler) (h : History Graph) : Request → History Graph × Answer
  | .edit e =>
    match e.apply h.current with
    | .error err => (h, .refused err)
    | .ok g => (h.record g, e.answer)
  | .undo => (h.undo?.getD h, .moved h.canUndo)
  | .redo => (h.redo?.getD h, .moved h.canRedo)
  | .validate => (h, .checked h.current.findings)
  | .compile resolver => (h, .compiled (compiler.compile h.current resolver))

/-- The event of an answer, with the history after it: one for each change, check and compilation,
and none for an edit that is refused or an undo or redo that does not happen. -/
def Answer.event? (after : History Graph) : Answer → Option Event
  | .done | .connected _ | .moved true =>
    some (.graphChanged after.canUndo after.canRedo after.current.nodes.length
      after.current.edges.length)
  | .refused _ | .moved false => none
  | .checked findings =>
    some (.validated (findings.countP fun f => f.severity = .error)
      (findings.countP fun f => f.severity = .warning)
      (findings.countP fun f => f.severity = .info))
  | .compiled (.ok script) => some (.compiled script.steps.length script.resources.length)
  | .compiled (.error e) => some (.compileFailed e.message)

def told (compiler : Compiler) (h : History Graph) : List Request → List Event
  | [] => []
  | r :: rest =>
    let next := advance compiler h r
    (next.2.event? next.1).toList ++ told compiler next.1 rest

variable {σ : Type}

def opened (document : Graph) (limit : Option Nat) (compiler : Compiler) (sink : σ) : Session σ :=
  let s := ofGraph document
  ((limit.elim s s.withHistoryLimit).withCompiler compiler).withSink sink

theorem history_opened (document : Graph) (limit : Option Nat) (compiler : Compiler) (sink : σ) :
    (opened document limit compiler sink).history = .opened document limit := by
  cases limit <;> rfl

variable [Sink σ]

/-- What follows an edit sees the session that goes on with its result. If the edit is refused,
nothing follows and the session is as it was. -/
theorem edit_bind (s : Session σ) (change : Graph → Except EditError Graph) {α : Type}
    (next : Unit → EStateM EditError (Session σ) α) :
    (edit change >>= next) s =
      match change s.graph with
      | .error err => .error err s
      | .ok g => next () (s.continueWith (s.history.record g)) := by
  show EStateM.bind (edit change) next s = _
  rw [EStateM.bind, edit]
  cases change s.graph <;> rfl

theorem make_eq (s : Session σ) (e : Edit) :
    make e s =
      match e.apply s.graph with
      | .error err => .error err s
      | .ok g => .ok e.answer (s.continueWith (s.history.record g)) := by
  cases e with
  | connect id source target port =>
    rw [make, connect, bind_assoc]
    exact s.edit_bind _ _
  | _ => exact s.edit_bind _ _

theorem event?_answer (e : Edit) (after : History Graph) :
    e.answer.event? after = some (changeEvent after) := by
  cases e <;> rfl

theorem isSome_undo? (h : History Graph) : h.undo?.isSome = h.canUndo := by
  unfold History.undo? History.canUndo
  by_cases hpos : 0 < h.cursor <;> simp [hpos]

theorem isSome_redo? (h : History Graph) : h.redo?.isSome = h.canRedo := by
  unfold History.redo? History.canRedo
  by_cases hnext : h.cursor + 1 < h.snapshots.length <;> simp [hnext]

def after (s : Session σ) (step : History Graph × Answer) : Session σ :=
  { s with history := step.1, outbox := Sink.sendAll s.outbox (step.2.event? step.1).toList }

/-- One request: the sink is sent the event of the answer, if it has one, and nothing else. -/
theorem perform_eq (s : Session σ) (r : Request) :
    s.perform r =
      (s.after (advance s.compiler s.history r), (advance s.compiler s.history r).2) := by
  cases r with
  | edit e =>
    simp only [perform, advance, make_eq, graph]
    cases e.apply s.history.current with
    | error err => rfl
    | ok g =>
      show (_, _) = (_, _)
      simp only [after, event?_answer]
      rfl
  | undo =>
    have hsome := isSome_undo? s.history
    simp only [perform, advance, undo?, Option.isSome_map, ← hsome]
    cases s.history.undo? <;> rfl
  | redo =>
    have hsome := isSome_redo? s.history
    simp only [perform, advance, redo?, Option.isSome_map, ← hsome]
    cases s.history.redo? <;> rfl
  | validate => rfl
  | compile resolver =>
    show (_, _) = (_, _)
    simp only [after, advance, compile, graph]
    cases s.compiler.compile s.history.current resolver <;> rfl

/-- A run: the sink is sent the events of the run in order, and has no say in anything else. -/
theorem runAll_eq (s : Session σ) (requests : List Request) :
    let spec := runAll (advance s.compiler) s.history requests
    runAll perform s requests =
      ({ s with history := spec.1,
                outbox := Sink.sendAll s.outbox (told s.compiler s.history requests) },
        spec.2) := by
  induction requests generalizing s with
  | nil => rfl
  | cons r rest ih =>
    have hrest := ih (s.after (advance s.compiler s.history r))
    simp only [runAll, told, perform_eq, hrest, Sink.sendAll_append]
    rfl

/-- Every request leaves a history that keeps its limit. -/
theorem follows_advance {limit : Option Nat} {h : History Graph} {z : Zipper Graph}
    (hz : h.Follows limit z) (compiler : Compiler) (r : Request) :
    ∃ z, (advance compiler h r).1.Follows limit z := by
  cases r with
  | edit e =>
    simp only [advance]
    cases e.apply h.current with
    | error err => exact ⟨z, hz⟩
    | ok g => exact ⟨_, (hz.perform (.record g)).2⟩
  | undo => exact ⟨_, (hz.perform .undo).2⟩
  | redo => exact ⟨_, (hz.perform .redo).2⟩
  | validate => exact ⟨z, hz⟩
  | compile resolver => exact ⟨z, hz⟩

theorem follows_runAll_advance {limit : Option Nat} {h : History Graph} {z : Zipper Graph}
    (hz : h.Follows limit z) (compiler : Compiler) (requests : List Request) :
    ∃ z, (runAll (advance compiler) h requests).1.Follows limit z := by
  induction requests generalizing h z with
  | nil => exact ⟨z, hz⟩
  | cons r rest ih =>
    obtain ⟨next, hnext⟩ := follows_advance hz compiler r
    exact ih hnext

theorem perform_edit_of_error {s : Session σ} {e : Edit} {err : EditError}
    (h : e.apply s.graph = .error err) : s.perform (.edit e) = (s, .refused err) := by
  simp only [perform, make_eq, h]

theorem perform_edit_of_ok {s : Session σ} {e : Edit} {g : Graph} (h : e.apply s.graph = .ok g) :
    s.perform (.edit e) = (s.continueWith (s.history.record g), e.answer) := by
  simp only [perform, make_eq, h]

theorem perform_undo_of_some {s : Session σ} {back : History Graph}
    (h : s.history.undo? = some back) : s.perform .undo = (s.continueWith back, .moved true) := by
  rw [perform, undo?, h]
  rfl

theorem perform_redo_of_some {s : Session σ} {ahead : History Graph}
    (h : s.history.redo? = some ahead) : s.perform .redo = (s.continueWith ahead, .moved true) := by
  rw [perform, redo?, h]
  rfl

theorem perform_undo_of_not {s : Session σ} (h : s.history.canUndo = false) :
    s.perform .undo = (s, .moved false) := by
  have hnone : s.history.undo? = none := by
    rw [← Option.not_isSome_iff_eq_none, isSome_undo?, h]
    exact Bool.false_ne_true
  rw [perform, undo?, hnone]
  rfl

theorem perform_redo_of_not {s : Session σ} (h : s.history.canRedo = false) :
    s.perform .redo = (s, .moved false) := by
  have hnone : s.history.redo? = none := by
    rw [← Option.not_isSome_iff_eq_none, isSome_redo?, h]
    exact Bool.false_ne_true
  rw [perform, redo?, hnone]
  rfl

/-- An edit that is made drops what could be redone. It can be undone and then redone if the
history keeps more than one graph. -/
theorem perform_edit_reversible {limit : Option Nat} {z : Zipper Graph} {s : Session σ}
    (hz : s.history.Follows limit z) {e : Edit} {g : Graph} (happly : e.apply s.graph = .ok g) :
    let made := s.perform (.edit e)
    made.2 = e.answer ∧ made.1.graph = g ∧ made.1.history.future = [] ∧
      ((∀ n, limit = some n → 1 < n) →
        let undone := made.1.perform .undo
        let redone := undone.1.perform .redo
        undone.2 = .moved true ∧ undone.1.graph = s.graph ∧
          redone.2 = .moved true ∧ redone.1.graph = g) := by
  intro made
  obtain ⟨-, hrecord⟩ := hz.perform (.record g)
  have hgraph : (s.history.record g).current = g := hrecord.flat.current_eq
  have hmade : made = (s.continueWith (s.history.record g), e.answer) := perform_edit_of_ok happly
  rw [hmade]
  refine ⟨rfl, hgraph, hrecord.flat.future_eq, fun hlimit => ?_⟩
  obtain ⟨back, hback, hcurrent, hagain⟩ :=
    hz.undo?_record (fun n hn => Nat.lt_of_lt_of_le (hlimit n hn) (Nat.le_max_left n 1)) g
  intro undone redone
  have hundone : undone = ((s.continueWith (s.history.record g)).continueWith back, .moved true) :=
    perform_undo_of_some hback
  have hredone : redone = (undone.1.continueWith (s.history.record g), .moved true) := by
    apply perform_redo_of_some
    rw [hundone]
    exact hagain
  rw [hredone, hundone]
  exact ⟨rfl, hcurrent, rfl, hgraph⟩

/-- A session does the same whatever its sink does, and sends it one event for each change, check
and compilation. An edit that can not be made leaves all as it was; one that is made drops what
could be redone, and is undone and redone at will if the history keeps more than one graph. -/
theorem tells_each_change_once (document : Graph) (limit : Option Nat) (compiler : Compiler)
    (sink : σ) (requests : List Request) :
    let run := runAll perform (opened document limit compiler sink) requests
    let spec := runAll (advance compiler) (.opened document limit) requests
    let events := told compiler (.opened document limit) requests
    let s := run.1
    run.2 = spec.2 ∧ s.history = spec.1 ∧ s.outbox = Sink.sendAll sink events ∧
      (∀ kept, (runAll perform (opened document limit compiler (Outbox.keeping kept))
        requests).1.outbox = .keeping (kept ++ events)) ∧
      (∀ e err, e.apply s.graph = .error err → s.perform (.edit e) = (s, .refused err)) ∧
      (∀ e g, e.apply s.graph = .ok g →
        let made := s.perform (.edit e)
        made.2 = e.answer ∧ made.1.graph = g ∧ made.1.history.future = [] ∧
          ((∀ n, limit = some n → 1 < n) →
            let undone := made.1.perform .undo
            let redone := undone.1.perform .redo
            undone.2 = .moved true ∧ undone.1.graph = s.graph ∧
              redone.2 = .moved true ∧ redone.1.graph = g)) ∧
      (s.perform .undo).2 = .moved s.history.canUndo ∧
      (s.history.canUndo = false → (s.perform .undo).1 = s) ∧
      (s.perform .redo).2 = .moved s.history.canRedo ∧
      (s.history.canRedo = false → (s.perform .redo).1 = s) ∧
      (s.perform .validate).1.history = s.history ∧
      ∀ resolver, (s.perform (.compile resolver)).1.history = s.history := by
  intro run spec events s
  have hrun : run = ({ opened document limit compiler sink with
      history := spec.1, outbox := Sink.sendAll sink events }, spec.2) := by
    have h := runAll_eq (opened document limit compiler sink) requests
    rw [history_opened] at h
    exact h
  have hhistory : s.history = spec.1 := by
    show run.1.history = _
    rw [hrun]
  obtain ⟨z, hz⟩ : ∃ z, s.history.Follows limit z := by
    rw [hhistory]
    exact follows_runAll_advance (History.follows_opened document limit) compiler requests
  refine ⟨by rw [hrun], hhistory, by show run.1.outbox = _; rw [hrun], fun kept => ?_,
    fun e err => perform_edit_of_error, fun e g => perform_edit_reversible hz,
    by rw [perform_eq]; rfl, fun h => by rw [perform_undo_of_not h],
    by rw [perform_eq]; rfl, fun h => by rw [perform_redo_of_not h], rfl, fun resolver => rfl⟩
  have h := runAll_eq (opened document limit compiler (Outbox.keeping kept)) requests
  rw [history_opened] at h
  rw [h]
  exact Outbox.sendAll_keeping kept events

end Session

end Runbook
