import Mathlib.Tactic.Common
import Runbook.Proofs.WalkCalls
import Runbook.Proofs.WalkTree

/-!
Every walk comes to an end, whatever its limits, with the result of the tree of paths and nothing
left on its stacks. What a script holds is what the walk came by, and its steps are no deeper than
there are blocks on the paths to them.
-/
namespace Runbook

namespace Walk

variable {g : Graph} {limits : Limits}

/-- How a walk has ended: nothing is left on its stacks, it has the result of the tree of paths, and
if there is such a tree, it has come by what the tree holds. -/
structure HasEnded (g : Graph) (limits : Limits) (start : Node) (w : Walk) : Prop where
  phase : w.phase = .ended ((g.visit limits start).map fun _ => ())
  path : w.path = []
  loops : w.loops = []
  callers : w.callers = []
  sights : ∀ visit, g.visit limits start = .ok visit → w.sights.reverse = visit.sights [] 0

theorem Leads.ended {w : Walk} {longer : List Node} {waiting : List Waiting} {count : Nat}
    {sights : List Sight} {result : Except LimitError Unit}
    (h : Leads g limits w ⟨.back result, longer, [], ⟨0, 0, waiting⟩, [], count, sights⟩) :
    Leads g limits w ⟨.ended result, [], [], ⟨0, 0, waiting⟩, [], count, sights⟩ := by
  refine h.trans (.head ?_ .refl)
  simp only [next, Walk.comeBack, List.rtake_zero]

/-- A walk that breaks off on its way ends with the error that the tree of paths fails with. -/
theorem exists_hasEnded_of_error {node : Node} {longer : List Node} {waiting : List Waiting}
    {count : Nat} {sights : List Sight} {e : LimitError} (hvisit : g.visit limits node = .error e)
    (h : Leads g limits (start node)
      ⟨.back (.error e), longer, [], ⟨0, 0, waiting⟩, [], count, sights⟩) :
    ∃ w, Leads g limits (start node) w ∧ w.HasEnded g limits node := by
  refine ⟨_, h.ended, ?_, rfl, rfl, rfl, ?_⟩
  · rw [hvisit]
    rfl
  · intro visit htree
    rw [hvisit] at htree
    cases htree

/-- Every walk comes to an end, whatever its limits. -/
theorem exists_hasEnded (g : Graph) (limits : Limits) (node : Node) :
    ∃ w, Leads g limits (start node) w ∧ w.HasEnded g limits node := by
  cases hroom : checkBound limits.steps .tooManySteps 1 with
  | error e =>
    have hvisit : g.visit limits node = .error e := by
      rw [Graph.visit, hroom]
      rfl
    exact exists_hasEnded_of_error hvisit (.head (next_enter_of_error hroom) .refl)
  | ok _ =>
    have hwalk := (plays_exits g limits [node.id] [] 0 node (g.liveEdges node) 1).2 [node] 0 [] []
      [.arrived node [] 0] _ rfl (fun port => id) (g.liveEdges_eq node)
    have hvisit : g.visit limits node = g.exits limits [node.id] [] 0 node (g.liveEdges node) 1 >>=
        fun behind => .ok (.mk node behind.1) := by
      rw [Graph.visit, hroom]
      rfl
    have hfirst : Leads g limits (start node) _ := .head (next_enter_of_room hroom) .refl
    generalize g.exits limits [node.id] [] 0 node (g.liveEdges node) 1 = made at hwalk hvisit
    cases hwalk with
    | failed _ hfailed => exact exists_hasEnded_of_error hvisit (hfirst.trans hfailed)
    | @done exits count _ _ hdone =>
      have hback := hdone.trans (.head (next_onward_of_nil rfl) .refl)
      refine ⟨_, (hfirst.trans hback).ended, ?_, rfl, rfl, rfl, ?_⟩
      · rw [hvisit]
        rfl
      · intro visit htree
        rw [hvisit] at htree
        obtain rfl := Except.ok.inj htree
        simp [Visit.sights]

theorem HasEnded.next {limits : Limits} {node : Node} {w : Walk} (h : w.HasEnded g limits node) :
    w.next g limits = w := by
  rw [Walk.next, h.phase]

theorem exists_hasEnded_after (g : Graph) (limits : Limits) (node : Node) :
    ∃ steps, ∀ n, steps ≤ n → (after g limits node n).HasEnded g limits node := by
  obtain ⟨w, ⟨steps, hsteps⟩, hended⟩ := exists_hasEnded g limits node
  refine ⟨steps, fun n hn => ?_⟩
  induction n, hn using Nat.le_induction with
  | base => rw [after, hsteps]; exact hended
  | succ n hn ih => rw [after_succ, ih.next]; exact ih

def Sight.visit? : Sight → Option (Node × Nat)
  | arrived node _ depth => some (node, depth)
  | stopped _ _ => none

def Sight.notes (resolver : Resolver) : Sight → List Note
  | arrived node _ _ => (node.settings.step.unresolved resolver).map (Note.unresolved node.id)
  | stopped e .turnsBack => [.turnsBack e.id e.source e.target]
  | stopped _ _ => []

end Walk

section

variable (resolver : Resolver)

mutual

/-- What a walk comes by tells the nodes of the tree with their depths, and the notes about it. -/
theorem Visit.tell_sights (before : List Node) (depth : Nat) (visit : Visit) :
    (visit.sights before depth).filterMap Walk.Sight.visit? = visit.visits depth ∧
      (visit.sights before depth).flatMap (Walk.Sight.notes resolver) = visit.notes resolver := by
  cases visit with
  | mk node exits =>
    obtain ⟨hvisits, hnotes⟩ := exits.tell_sights (node :: before) node depth
    rw [Visit.sights, Visit.visits, Visit.notes, List.flatMap_cons, hnotes, ← hvisits]
    exact ⟨rfl, rfl⟩

theorem Exits.tell_sights (path : List Node) (last : Node) (depth : Nat) (exits : Exits) :
    (exits.sights path last depth).filterMap Walk.Sight.visit? = exits.visits last depth ∧
      (exits.sights path last depth).flatMap (Walk.Sight.notes resolver) =
        exits.notes resolver := by
  cases exits with
  | nil => exact ⟨rfl, rfl⟩
  | onward e visit rest =>
    obtain ⟨hvisits, hnotes⟩ := visit.tell_sights path (depthBehind depth last e)
    obtain ⟨hrest, hrestnotes⟩ := rest.tell_sights path last depth
    rw [Exits.sights, Exits.visits, Exits.notes, List.filterMap_append, List.flatMap_append,
      hvisits, hnotes, hrest, hrestnotes]
    exact ⟨rfl, rfl⟩
  | stopped e stop rest =>
    obtain ⟨hrest, hrestnotes⟩ := rest.tell_sights path last depth
    rw [Exits.sights, List.flatMap_cons, hrestnotes, Exits.visits, ← hrest]
    cases stop <;> exact ⟨rfl, rfl⟩

end

end

namespace Compiler

variable (c : Compiler) {g : Graph} (resolver : Resolver) {start : Node}

/-- A script is never refused as too deep if it may be as deep as the graph has blocks. -/
theorem compile_ne_tooDeep (hfree : g.IsErrorFree) (hstart : g.ofKind .start = [start])
    (hblocks : Walk.blockCount g.nodes ≤ c.options.maxDepth) (limit : Nat) :
    c.compile g resolver ≠ .error (.limit (.tooDeep limit)) := by
  have hnode : start ∈ g.nodes := Graph.mem_nodes_of_ofKind hstart
  cases hvisit : g.visit c.options.limits start with
  | error e =>
    obtain ⟨steps, hended⟩ := Walk.exists_hasEnded_after g c.options.limits start
    have hphase := (hended steps (Nat.le_refl _)).phase
    have hroom : ∀ n, c.options.limits.depth = some n → Walk.blockCount g.nodes ≤ n :=
      fun n hn => Option.some.inj hn ▸ hblocks
    have hdeep := Walk.not_isTooDeep_after hnode hroom steps
    rw [hphase, hvisit] at hdeep
    rw [c.compile_of_visit_error resolver hfree hstart hvisit]
    rintro ⟨⟩
    exact hdeep ⟨limit, rfl⟩
  | ok visit =>
    rw [c.compile_of_visit resolver hfree hstart hvisit]
    split <;> simp

/-- The walk that makes a script needs no limits to come to an end. In an error-free graph it ends
under any limits, and without them with a script. At every moment the path holds no id twice and is
no longer than the graph, it has a block of its own for each call that is not over, and no step is
deeper than there are blocks on the path to it: so a graph with no more blocks than arms may be
nested is never refused as too deep. Each call is come back from, with a result or with an error,
and leaves the path and the loops as they were. -/
theorem walk_needs_no_limits {g : Graph} (hfree : g.IsErrorFree) :
    ∃ start, g.ofKind .start = [start] ∧
      (∀ limits, ∃ steps, ∀ n, steps ≤ n →
        (Walk.after g limits start n).HasEnded g limits start) ∧
      (∀ limits n, (Walk.after g limits start n).KeepsBounds g) ∧
      (∀ limits m n, Walk.IsCall (Walk.after g limits start) m n →
        Walk.Restores (Walk.after g limits start) m n) ∧
      (∀ limits m, (Walk.after g limits start m).callers.length <
          (Walk.after g limits start (m + 1)).callers.length →
        ∃ n, Walk.IsCall (Walk.after g limits start) m n) ∧
      ∀ (c : Compiler) (resolver : Resolver),
        (∃ visit script, g.visit .unbounded start = .ok visit ∧
          c.compileWithin .unbounded g resolver = .ok script ∧
          script.steps.map (fun s => (g.nodeOf? s, s.depth)) =
            ((visit.sights [] 0).filterMap Walk.Sight.visit?).map (fun v => (some v.1, v.2)) ∧
          (∀ node before depth, .arrived node before depth ∈ visit.sights [] 0 →
            depth ≤ Walk.blockCount before) ∧
          script.diagnostics =
            ((visit.sights [] 0).flatMap (Walk.Sight.notes resolver)).eraseDups.map
              Note.finding) ∧
        (Walk.blockCount g.nodes ≤ c.options.maxDepth →
          ∀ limit, c.compile g resolver ≠ .error (.limit (.tooDeep limit))) := by
  obtain ⟨start, hstart⟩ := hfree.exists_start
  have hnode : start ∈ g.nodes := Graph.mem_nodes_of_ofKind hstart
  refine ⟨start, hstart, fun limits => Walk.exists_hasEnded_after g limits start,
    fun limits n => ?_, fun limits m n hcall => hcall.restores hnode, fun limits m hcall => ?_,
    fun c resolver => ⟨?_, c.compile_ne_tooDeep resolver hfree hstart⟩⟩
  · obtain ⟨trail, hsound⟩ := Walk.IsSound.after hnode limits n
    exact hsound.keepsBounds
  · obtain ⟨steps, hended⟩ := Walk.exists_hasEnded_after g limits start
    refine Walk.IsCall.exists_of_callers_nil hnode hcall ⟨steps + m + 1, by omega, ?_⟩
    exact (hended _ (by omega)).callers
  · obtain ⟨visit, hvisit⟩ := g.visit_ends start
    have hwhole : g.visit .unbounded start = .ok visit := (hvisit .unbounded).eq_ok_of_unbounded
    obtain ⟨hvisits, hnotes⟩ := visit.tell_sights resolver [] 0
    refine ⟨visit, c.scriptOf resolver visit, hwhole, ?_, ?_, fun node before depth hmem => ?_, ?_⟩
    · rw [c.compileWithin_of_isErrorFree resolver hfree hstart,
        c.scriptFrom_of_visit resolver hwhole]
      rfl
    · rw [hvisits]
      exact c.steps_scriptOf resolver hstart hwhole
    · obtain ⟨steps, hended⟩ := Walk.exists_hasEnded_after g .unbounded start
      obtain ⟨trail, hsound⟩ := Walk.IsSound.after hnode .unbounded steps
      rw [← (hended steps (Nat.le_refl _)).sights visit hwhole] at hmem
      exact hsound.arrived node before depth (List.mem_reverse.mp hmem)
    · rw [hnotes]
      rfl

theorem walk_needs_no_limits_patrol :
    let moments := Walk.after .patrol ⟨some 3, none, none⟩ (.ofStep "begin" .start .origin)
    Graph.patrol.IsErrorFree ∧ Walk.IsCall moments 4 10 ∧
      (moments 9).path.map Node.id = ["login", "rounds", "begin"] ∧
      (moments 9).loops = ["rounds"] ∧
      (moments 10).phase = .back (.error (.tooManySteps 3)) ∧
      (moments 10).path = (moments 4).path ∧ (moments 10).loops = (moments 4).loops := by
  intro moments
  have hcall : Walk.IsCall moments 4 10 := by
    refine ⟨by omega, fun i hi hin => ?_, by rfl⟩
    have : i = 5 ∨ i = 6 ∨ i = 7 ∨ i = 8 ∨ i = 9 := by omega
    rcases this with rfl | rfl | rfl | rfl | rfl <;> decide
  refine ⟨Graph.patrol_isErrorFree, hcall, by decide, by decide, by rfl, ?_⟩
  obtain ⟨start, hstart, -, -, hrestores, -⟩ := walk_needs_no_limits Graph.patrol_isErrorFree
  obtain rfl : Node.ofStep "begin" .start .origin = start := List.singleton_inj.mp hstart
  have := hrestores _ 4 10 hcall
  exact ⟨this.path_around, this.loops_around⟩

end Compiler

end Runbook
