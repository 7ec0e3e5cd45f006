import Mathlib.Algebra.Order.BigOperators.Group.List
import Mathlib.Algebra.Order.Group.Nat
import Mathlib.Tactic.Common
import Runbook.Compiler.Compile
import Runbook.Proofs.ErrorFree
import Runbook.Proofs.TextBudget

/-!
What the walk along the paths of a graph leaves behind. A compiled script is the script of one
path tree, whose texts keep the limit on bytes. A resolver has no say in the tree: it only answers
for the nodes on it.
-/
namespace Runbook

mutual

def Visit.nodes : Visit → List Node
  | .mk node exits => node :: exits.nodes

def Exits.nodes : Exits → List Node
  | .nil => []
  | .onward _ visit rest => visit.nodes ++ rest.nodes
  | .stopped _ _ rest => rest.nodes

end

section

variable {own other : Node → String}

mutual

/-- The steps of a tree are made of the texts of its nodes. -/
theorem Visit.steps_congr (indent : String) (parent : Option NodeId) (depth : Nat) (visit : Visit)
    (h : ∀ node ∈ visit.nodes, own node = other node) :
    visit.steps own indent parent depth = visit.steps other indent parent depth := by
  cases visit with
  | mk node exits =>
    obtain ⟨hnode, hexits⟩ := List.forall_mem_cons.mp h
    rw [Visit.steps, Visit.steps, exits.steps_congr indent node depth hexits, blockText, blockText,
      hnode]

theorem Exits.steps_congr (indent : String) (last : Node) (depth : Nat) (exits : Exits)
    (h : ∀ node ∈ exits.nodes, own node = other node) :
    exits.steps own indent last depth = exits.steps other indent last depth := by
  cases exits with
  | nil => rfl
  | onward e visit rest =>
    obtain ⟨hvisit, hrest⟩ := List.forall_mem_append.mp h
    rw [Exits.steps, Exits.steps, visit.steps_congr indent _ _ hvisit,
      rest.steps_congr indent last depth hrest]
  | stopped e stop rest => rw [Exits.steps, Exits.steps, rest.steps_congr indent last depth h]

end

variable {r s : Resolver}

mutual

/-- The notes of a tree are made of the references of its nodes. -/
theorem Visit.notes_congr (visit : Visit) (h : ∀ node ∈ visit.nodes,
    node.settings.step.unresolved r = node.settings.step.unresolved s) :
    visit.notes r = visit.notes s := by
  cases visit with
  | mk node exits =>
    obtain ⟨hnode, hexits⟩ := List.forall_mem_cons.mp h
    rw [Visit.notes, Visit.notes, hnode, exits.notes_congr hexits]

theorem Exits.notes_congr (exits : Exits) (h : ∀ node ∈ exits.nodes,
    node.settings.step.unresolved r = node.settings.step.unresolved s) :
    exits.notes r = exits.notes s := by
  cases exits with
  | nil => rfl
  | onward e visit rest =>
    obtain ⟨hvisit, hrest⟩ := List.forall_mem_append.mp h
    rw [Exits.notes, Exits.notes, visit.notes_congr hvisit, rest.notes_congr hrest]
  | stopped e stop rest =>
    cases stop with
    | turnsBack => rw [Exits.notes, Exits.notes, rest.notes_congr h]
    | nextRound => rw [Exits.notes, Exits.notes, rest.notes_congr h] <;> simp
    | nowhere => rw [Exits.notes, Exits.notes, rest.notes_congr h] <;> simp

end

end

namespace Compiler

def scriptOf (c : Compiler) (resolver : Resolver) (visit : Visit) : Script :=
  Script.ofWalk (visit.steps (Node.ownText c.table resolver c.options.redactSecrets)
    c.options.indent none 0) (visit.notes resolver)

/-- Resolvers with the same answers for the nodes of a tree make the same script of it. -/
theorem scriptOf_congr (c : Compiler) {r s : Resolver} {visit : Visit}
    (htext : ∀ node ∈ visit.nodes, node.ownText c.table r c.options.redactSecrets =
      node.ownText c.table s c.options.redactSecrets)
    (hopen : ∀ node ∈ visit.nodes,
      node.settings.step.unresolved r = node.settings.step.unresolved s) :
    c.scriptOf r visit = c.scriptOf s visit := by
  rw [scriptOf, scriptOf, visit.notes_congr hopen, visit.steps_congr _ _ _ htext]

section

variable (c : Compiler) {g : Graph} (resolver : Resolver) {start : Node} {visit : Visit}

theorem compileWithin_of_isErrorFree (hfree : g.IsErrorFree)
    (hstart : g.ofKind .start = [start]) (limits : Limits) :
    c.compileWithin limits g resolver =
      (c.scriptFrom limits g resolver start).mapError .limit := by
  have hnone : ¬ hasErrors g.findings = true := Bool.eq_false_iff.mp hfree
  rw [compileWithin]
  simp only [if_neg hnone, hstart, List.head?_cons]
  cases c.scriptFrom limits g resolver start <;> rfl

/-- Once the walk has come to its end, the script of its tree is given if all its texts are
covered. -/
theorem scriptFrom_of_visit {limits : Limits} (hvisit : g.visit limits start = .ok visit) :
    c.scriptFrom limits g resolver start =
      (checkBound limits.bytes .tooManyBytes (c.scriptOf resolver visit).byteSize >>= fun _ =>
        .ok (c.scriptOf resolver visit)) := by
  rw [scriptFrom, hvisit]
  show (visit.write _ _ none 0 ⟨limits.bytes, 0⟩ >>= fun written =>
    .ok (Script.ofWalk written.1 (visit.notes resolver))) = _
  rw [Graph.write_of_visit hvisit, bind_assoc]
  rfl

theorem compile_of_visit_error (hfree : g.IsErrorFree) (hstart : g.ofKind .start = [start])
    {e : LimitError} (hvisit : g.visit c.options.limits start = .error e) :
    c.compile g resolver = .error (.limit e) := by
  rw [compile, c.compileWithin_of_isErrorFree resolver hfree hstart, scriptFrom, hvisit]
  rfl

/-- Once the walk has come to its end only the bytes of the texts can break a limit. -/
theorem compile_of_visit (hfree : g.IsErrorFree) (hstart : g.ofKind .start = [start])
    (hvisit : g.visit c.options.limits start = .ok visit) :
    c.compile g resolver =
      if (c.scriptOf resolver visit).byteSize ≤ c.options.maxBytes then
        .ok (c.scriptOf resolver visit)
      else .error (.limit (.tooManyBytes c.options.maxBytes)) := by
  rw [compile, c.compileWithin_of_isErrorFree resolver hfree hstart,
    c.scriptFrom_of_visit resolver hvisit]
  by_cases hbytes : (c.scriptOf resolver visit).byteSize ≤ c.options.maxBytes
  · have hroom : checkBound c.options.limits.bytes .tooManyBytes
        (c.scriptOf resolver visit).byteSize = .ok () := if_neg (Nat.not_lt.mpr hbytes)
    rw [hroom, if_pos hbytes]
    rfl
  · have hover : checkBound c.options.limits.bytes .tooManyBytes
        (c.scriptOf resolver visit).byteSize = .error (.tooManyBytes c.options.maxBytes) :=
      if_pos (Nat.lt_of_not_le hbytes)
    rw [hover, if_neg hbytes]
    rfl

end

/-- A graph compiles if it is free of errors, its walk keeps the limits and so do the texts. -/
theorem compile_eq_ok_iff {c : Compiler} {g : Graph} {resolver : Resolver} {script : Script} :
    c.compile g resolver = .ok script ↔ g.IsErrorFree ∧ ∃ start visit,
      g.ofKind .start = [start] ∧ g.visit c.options.limits start = .ok visit ∧
      script = c.scriptOf resolver visit ∧ script.byteSize ≤ c.options.maxBytes := by
  by_cases hfree : g.IsErrorFree
  · obtain ⟨start, hstart⟩ := hfree.exists_start
    have hone : ∀ other, g.ofKind .start = [other] ↔ start = other := by simp [hstart]
    simp only [hfree, hone, true_and, exists_and_left, exists_eq_left']
    cases hvisit : g.visit c.options.limits start with
    | error e => simp [c.compile_of_visit_error resolver hfree hstart hvisit]
    | ok visit =>
      simp only [c.compile_of_visit resolver hfree hstart hvisit, Except.ok.injEq, exists_eq_left']
      by_cases hbytes : (c.scriptOf resolver visit).byteSize ≤ c.options.maxBytes
      · rw [if_pos hbytes, Except.ok.injEq, eq_comm]
        exact ⟨fun h => ⟨h, h ▸ hbytes⟩, And.left⟩
      · rw [if_neg hbytes]
        exact ⟨fun h => (by cases h), fun h => absurd (h.1 ▸ h.2) hbytes⟩
  · have herrors : hasErrors g.findings = true := by simpa [Graph.IsErrorFree] using hfree
    simp [compile, compileWithin, herrors, hfree]

/-- A compiled script is the script of the path tree of an error-free graph. -/
theorem exists_tree_of_compile {c : Compiler} {g : Graph} {resolver : Resolver}
    {script : Script} (h : c.compile g resolver = .ok script) :
    g.IsErrorFree ∧ ∃ start exits, g.ofKind .start = [start] ∧
      g.Unfolds [start.id] [] start (g.liveEdges start) exits ∧
      script = c.scriptOf resolver (.mk start exits) := by
  obtain ⟨hfree, start, visit, hstart, hvisit, hscript, -⟩ := compile_eq_ok_iff.mp h
  obtain ⟨exits, htree, rfl⟩ := Graph.exists_unfolds_of_visit hvisit
  exact ⟨hfree, start, exits, hstart, htree, hscript⟩

/-- With room enough for its texts a graph compiles under each of some resolvers if its walk keeps
the usual limits. -/
theorem exists_bytes_of_visit (table : Template.Table) (redact : Bool) (resolvers : List Resolver)
    {g : Graph} {start : Node} {visit : Visit} (hfree : g.IsErrorFree)
    (hstart : g.ofKind .start = [start])
    (hvisit : ∀ bytes, g.visit ⟨some 10000, some 64, some bytes⟩ start = .ok visit) :
    ∃ bytes, ∀ resolver ∈ resolvers, ∃ script,
      (⟨table, { redactSecrets := redact, maxBytes := bytes }⟩ : Compiler).compile g resolver =
        .ok script := by
  let c : Compiler := ⟨table, { redactSecrets := redact }⟩
  let sizes := resolvers.map fun resolver => (c.scriptOf resolver visit).byteSize
  refine ⟨sizes.sum, fun resolver hmem => ⟨c.scriptOf resolver visit, compile_eq_ok_iff.mpr
    ⟨hfree, start, visit, hstart, hvisit _, rfl, ?_⟩⟩⟩
  exact List.le_sum_of_mem (List.mem_map_of_mem hmem)

theorem exists_compile_of_visit (table : Template.Table) (redact : Bool) (resolver : Resolver)
    {g : Graph} {start : Node} {visit : Visit} (hfree : g.IsErrorFree)
    (hstart : g.ofKind .start = [start])
    (hvisit : ∀ bytes, g.visit ⟨some 10000, some 64, some bytes⟩ start = .ok visit) :
    ∃ bytes script, (⟨table, { redactSecrets := redact, maxBytes := bytes }⟩ : Compiler).compile g
      resolver = .ok script := by
  obtain ⟨bytes, h⟩ := exists_bytes_of_visit table redact [resolver] hfree hstart hvisit
  exact ⟨bytes, h resolver List.mem_cons_self⟩

end Compiler

/-- A loop that logs in to devices, probes them and repairs what fails. Both the way back from the
repair and the end come up on several paths. -/
def Graph.patrol : Graph where
  nodes := [
    .ofStep "begin" .start .origin,
    .ofStep "rounds" (.loop { maxIterations := 3 }) .origin,
    .ofStep "login" (.connect ⟨some "lab", some (.group "core")⟩) .origin,
    .ofStep "probe" (.check { command := "ping " ++ Template.written "gateway" }) .origin,
    .ofStep "repair" (.deploy ⟨some "base", ["mtu " ++ Template.written "mtu"], false⟩) .origin,
    .ofStep "done" .finish .origin]
  edges := [
    ⟨"e1", "begin", "rounds", none⟩, ⟨"e2", "rounds", "login", some .body⟩,
    ⟨"e3", "rounds", "done", some .exit⟩, ⟨"e4", "login", "probe", none⟩,
    ⟨"e5", "probe", "rounds", some .success⟩, ⟨"e6", "probe", "repair", some .failure⟩,
    ⟨"e7", "repair", "login", none⟩, ⟨"e8", "repair", "done", none⟩]

theorem Graph.patrol_ids_nodup : (patrol.nodes.map Node.id).Nodup := by decide

theorem Graph.patrol_isErrorFree : patrol.IsErrorFree := isErrorFree_iff.mpr (by decide +kernel)

theorem Graph.exists_visit_patrol : ∃ visit, ∀ bytes,
    patrol.visit ⟨some 10000, some 64, some bytes⟩ (.ofStep "begin" .start .origin) =
      .ok visit := by
  refine ⟨?_, fun bytes => ?_⟩
  rotate_left
  cbv
  rfl

/-- With room enough for its texts the patrol compiles under any table and resolver. -/
theorem Compiler.exists_compile_patrol (table : Template.Table) (redact : Bool)
    (resolver : Resolver) : ∃ bytes script,
      (⟨table, { redactSecrets := redact, maxBytes := bytes }⟩ : Compiler).compile .patrol
        resolver = .ok script := by
  obtain ⟨visit, hvisit⟩ := Graph.exists_visit_patrol
  exact exists_compile_of_visit table redact resolver Graph.patrol_isErrorFree rfl hvisit

end Runbook
