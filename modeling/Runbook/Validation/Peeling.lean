import Runbook.Workflow.Graph

/-!
Cycles that pass no loop. The nodes other than loops are taken away one by one, each when no edge
from a node still there leads to it; a counter for each id holds the edges that still lead there.
What can not be taken away lies on or behind a cycle.
-/
namespace Runbook.Graph

def plainIds (g : Graph) : List NodeId :=
  ((g.nodes.filter fun n => n.kind ≠ .loop).map Node.id).eraseDups

def targetsFrom (g : Graph) (ids : List NodeId) : List NodeId :=
  (g.edges.filter fun e => ids.contains e.source).map Edge.target

def lower (id : NodeId) : List (NodeId × Nat) → List (NodeId × Nat)
  | [] => []
  | c :: rest => if c.1 = id then (c.1, c.2 - 1) :: rest else c :: lower id rest

def counterSum : List (NodeId × Nat) → Nat
  | [] => 0
  | c :: rest => c.2 + counterSum rest

theorem counterSum_lower {id : NodeId} {n : Nat} {counters : List (NodeId × Nat)}
    (h : counters.lookup id = some (n + 1)) :
    counterSum (lower id counters) + 1 = counterSum counters := by
  induction counters with
  | nil => simp at h
  | cons c rest ih =>
    obtain ⟨key, value⟩ := c
    unfold lower
    by_cases hc : key = id
    · subst hc
      rw [List.lookup_cons_self, Option.some.injEq] at h
      simp only [if_true, counterSum, h]
      omega
    · have hne : (id == key) = false := by simpa using fun e : id = key => hc e.symm
      rw [List.lookup_cons, hne] at h
      have := ih h
      simp only [if_neg hc, counterSum] at this ⊢
      omega

/-- Takes one from the counter of each target and queues those that come to zero. It gives none
if a counter would fall below zero. -/
def release (counters : List (NodeId × Nat)) (queue : List NodeId) :
    List NodeId → Option (List (NodeId × Nat) × List NodeId)
  | [] => some (counters, queue)
  | id :: rest =>
    match counters.lookup id with
    | none => release counters queue rest
    | some 0 => none
    | some 1 => release (lower id counters) (queue ++ [id]) rest
    | some (_ + 2) => release (lower id counters) queue rest

theorem release_measure {counters later : List (NodeId × Nat)} {queue after targets : List NodeId}
    (h : release counters queue targets = some (later, after)) :
    counterSum later + after.length ≤ counterSum counters + queue.length := by
  induction targets generalizing counters queue with
  | nil =>
    simp only [release, Option.some.injEq, Prod.mk.injEq] at h
    obtain ⟨rfl, rfl⟩ := h
    exact Nat.le_refl _
  | cons id rest ih =>
    unfold release at h
    split at h
    · exact ih h
    · simp at h
    · rename_i heq
      have := ih h
      have := counterSum_lower heq
      simp only [List.length_append, List.length_singleton] at *
      omega
    · rename_i heq
      have := ih h
      have := counterSum_lower heq
      omega

/-- The ids taken away, those in `removed` first. -/
def peel (g : Graph) (counters : List (NodeId × Nat)) (queue removed : List NodeId) :
    Option (List NodeId) :=
  match queue with
  | [] => some removed
  | id :: queue =>
    match _h : release counters queue ((g.outgoing id).map Edge.target) with
    | none => none
    | some (later, after) => g.peel later after (removed ++ [id])
termination_by counterSum counters + queue.length
decreasing_by
  have := release_measure _h
  simp only [List.length_cons]
  omega

theorem peel_cons (g : Graph) (counters : List (NodeId × Nat)) (id : NodeId)
    (queue removed : List NodeId) :
    g.peel counters (id :: queue) removed =
      (release counters queue ((g.outgoing id).map Edge.target)).bind fun r =>
        g.peel r.1 r.2 (removed ++ [id]) := by
  rw [peel]
  split <;> rename_i heq <;> rw [heq] <;> rfl

def startCounters (g : Graph) : List (NodeId × Nat) :=
  let ids := g.plainIds
  let targets := g.targetsFrom ids
  ids.map fun id => (id, targets.count id)

def startQueue (g : Graph) : List NodeId :=
  (g.startCounters.filter fun c => c.2 = 0).map Prod.fst

def hasStrayCycle (g : Graph) : Bool :=
  (g.peel g.startCounters g.startQueue []).any fun removed =>
    removed.length < g.plainIds.length

end Runbook.Graph
