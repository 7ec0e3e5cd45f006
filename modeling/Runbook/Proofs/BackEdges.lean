import Mathlib.Tactic.Common
import Runbook.Proofs.DeadNodes
import Runbook.Proofs.FirstOccurrences

/-!
Edges on which paths turn back. A path stops where an edge returns to a node that is on it. If this
is the loop whose body the path is in, it has finished a round of the loop and nothing is said;
anywhere else the edge is reported, once however often paths come by it. Which loop a path is in is
told from the path alone: the last one on it that it leaves through its body, so that a loop left
through its way out is no longer around the path, whatever body it was in itself.
-/
namespace Runbook

mutual

/-- The edges on which the paths of a tree turn back, in the order of the walk. -/
def Visit.turns : Visit → List Edge
  | .mk _ exits => exits.turns

def Exits.turns : Exits → List Edge
  | .nil => []
  | .onward _ visit rest => visit.turns ++ rest.turns
  | .stopped e stop rest => if stop = .turnsBack then e :: rest.turns else rest.turns

end

namespace Note

def ofTurn (e : Edge) : Note := .turnsBack e.id e.source e.target

def isTurn : Note → Bool
  | unresolved _ _ => false
  | turnsBack _ _ _ => true

theorem filter_findings_turns (notes : List Note) :
    (notes.map finding).filter (fun f => f.topic = .truncatedPath) =
      (notes.filter isTurn).map finding := by
  rw [List.filter_map]
  congr 2
  funext note
  cases note <;> rfl

end Note

mutual

theorem Visit.filter_notes (resolver : Resolver) (visit : Visit) :
    (visit.notes resolver).filter Note.isTurn = visit.turns.map Note.ofTurn := by
  cases visit with
  | mk node exits =>
    have hown : ((node.settings.step.unresolved resolver).map (Note.unresolved node.id)).filter
        Note.isTurn = [] := by simp [Note.isTurn]
    rw [Visit.notes, List.filter_append, hown, List.nil_append, exits.filter_notes, Visit.turns]

theorem Exits.filter_notes (resolver : Resolver) (exits : Exits) :
    (exits.notes resolver).filter Note.isTurn = exits.turns.map Note.ofTurn := by
  cases exits with
  | nil => rfl
  | onward e visit rest =>
    rw [Exits.notes, List.filter_append, visit.filter_notes, rest.filter_notes, Exits.turns,
      List.map_append]
  | stopped e stop rest =>
    have hrest := rest.filter_notes resolver
    cases stop with
    | turnsBack =>
      rw [Exits.notes, List.filter_cons_of_pos rfl, hrest]
      rfl
    | nextRound =>
      rw [Exits.notes, hrest]
      · rfl
      · simp
    | nowhere =>
      rw [Exits.notes, hrest]
      · rfl
      · simp

end

/-- The warnings about turns in a script are those of its tree, without repeats. -/
theorem Compiler.filter_diagnostics_scriptOf (c : Compiler) (resolver : Resolver)
    (visit : Visit) :
    (c.scriptOf resolver visit).diagnostics.filter (fun f => f.topic = .truncatedPath) =
      (visit.turns.map Note.ofTurn).eraseDups.map Note.finding := by
  rw [scriptOf, Script.ofWalk, Note.filter_findings_turns, filter_eraseDups, visit.filter_notes]

namespace PlacedEdge

end PlacedEdge

open PlacedEdge

namespace Graph

variable {g : Graph}

def entersLoop (g : Graph) (a : PlacedEdge) : Bool :=
  a.1.port = some .body ∧ g.kind? a.1.source = some .loop

/-- The loops that a path leaves through their bodies, the last one first. -/
def loopsAround (g : Graph) (path : List PlacedEdge) : List NodeId :=
  (path.reverse.filter g.entersLoop).map fun a => a.1.source

theorem loopsAround_concat (hids : (g.nodes.map Node.id).Nodup) {last : Node}
    (hlast : last ∈ g.nodes) (path : List PlacedEdge) {a : PlacedEdge}
    (hsource : a.1.source = last.id) :
    g.loopsAround (path ++ [a]) = loopsBehind (g.loopsAround path) last a.1 := by
  have hkind : g.kind? a.1.source = some last.kind := by
    rw [kind?, hsource, node?_of_mem hids hlast]
    rfl
  have henters : g.entersLoop a = true ↔ last.kind = .loop ∧ a.1.port = some .body := by
    simp [entersLoop, hkind, and_comm]
  rw [loopsAround, List.reverse_append, List.reverse_singleton, List.singleton_append,
    List.filter_cons, loopsBehind]
  by_cases henter : g.entersLoop a = true
  · rw [if_pos henter, if_pos (henters.mp henter), List.map_cons, hsource]
    rfl
  · rw [if_neg henter, if_neg (mt henters.mpr henter)]
    rfl

/-- A simple live path and a live edge from its last node back to a node on it. -/
structure IsReturn (g : Graph) (start : NodeId) (path : List PlacedEdge) (a : PlacedEdge) :
    Prop where
  simple : g.IsSimpleLivePath start path
  live : g.IsLive a
  source : a.1.source = ending start path
  target : a.1.target ∈ start :: path.map fun b => b.1.target

/-- Edges one behind the other lead from the source of the first to the target of the last. -/
theorem transGen_of_leadFrom (hfree : g.IsErrorFree) {id : NodeId} {path : List PlacedEdge}
    {a : PlacedEdge} (hedges : ∀ b ∈ path ++ [a], b.1 ∈ g.edges)
    (hleads : LeadFrom id (path ++ [a])) : Relation.TransGen g.LeadsTo id a.1.target := by
  have hstep : ∀ b : PlacedEdge, b.1 ∈ g.edges → g.LeadsTo b.1.source b.1.target := fun b hb =>
    ⟨⟨b.1, hb, rfl, rfl⟩, (hfree.hasNode_of_mem hb).2⟩
  induction path generalizing id with
  | nil =>
    obtain ⟨rfl, -⟩ := hleads
    exact .single (hstep a (hedges a (by simp)))
  | cons b rest ih =>
    obtain ⟨rfl, hleads⟩ := hleads
    obtain ⟨hb, hrest⟩ := List.forall_mem_cons.mp hedges
    exact .head (hstep b hb) (ih hrest hleads)

namespace IsReturn

variable {start : NodeId} {path : List PlacedEdge} {a : PlacedEdge}

theorem leads (h : g.IsReturn start path a) : LeadFrom start (path ++ [a]) :=
  leadFrom_append.mpr ⟨h.simple.leads, h.source, trivial⟩

/-- A return closes a cycle. -/
theorem transGen (h : g.IsReturn start path a) (hfree : g.IsErrorFree) :
    Relation.TransGen g.LeadsTo a.1.target a.1.target := by
  obtain ⟨first, rest, rfl, hfirst⟩ := exists_append_of_mem h.target
  have hleads := h.leads
  rw [List.append_assoc, leadFrom_append, hfirst] at hleads
  have hedges : ∀ b ∈ rest ++ [a], b.1 ∈ g.edges := by
    intro b hb
    rcases List.mem_append.mp hb with hb | hb
    · exact List.fst_mem_of_mem_zipIdx (h.simple.live b (List.mem_append_right _ hb)).1
    · exact List.fst_mem_of_mem_zipIdx (List.mem_singleton.mp hb ▸ h.live.1)
  exact transGen_of_leadFrom hfree hedges hleads.2

end IsReturn

structure ComesTo (g : Graph) (start : NodeId) (path : List PlacedEdge) (last : NodeId)
    (seen loops : List NodeId) : Prop where
  simple : g.IsSimpleLivePath start path
  ending_eq : ending start path = last
  mem_seen : ∀ id, id ∈ seen ↔ id ∈ start :: path.map fun a => a.1.target
  loops_eq : loops = g.loopsAround path

namespace ComesTo

variable {start : NodeId} {path : List PlacedEdge} {seen loops : List NodeId} {last : Node}
  {a : PlacedEdge}

theorem nil (g : Graph) (start : NodeId) : g.ComesTo start [] start [start] [] :=
  ⟨.nil g start, rfl, by simp, rfl⟩

theorem step (h : g.ComesTo start path last.id seen loops) (hids : (g.nodes.map Node.id).Nodup)
    (hlast : last ∈ g.nodes) (ha : g.IsLive a) (hsource : a.1.source = last.id)
    (hfresh : a.1.target ∉ seen) :
    g.ComesTo start (path ++ [a]) a.1.target (a.1.target :: seen) (loopsBehind loops last a.1) where
  simple := h.simple.concat ha (hsource.trans h.ending_eq.symm) (mt (h.mem_seen _).mpr hfresh)
  ending_eq := ending_concat _ _ _
  mem_seen id := by
    rw [List.mem_cons, h.mem_seen, List.map_append, List.map_singleton, ← List.cons_append,
      List.mem_append, List.mem_singleton, or_comm]
  loops_eq := by rw [loopsAround_concat hids hlast path hsource, h.loops_eq]

end ComesTo

section

variable (hfree : g.IsErrorFree) (hids : (g.nodes.map Node.id).Nodup) {start : NodeId}
  {seen loops : List NodeId} {last : Node} {edges : List Edge} {exits : Exits}

include hfree hids

end

/-- The patrol turns back from the repair to the login, but not from the probe to its rounds. -/
example : (Graph.patrol.visit .unbounded (.ofStep "begin" .start .origin)).toOption.map
    Visit.turns = some [⟨"e7", "repair", "login", none⟩] := by cbv

end Graph

end Runbook
