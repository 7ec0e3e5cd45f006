import Mathlib.Algebra.Ring.Nat
import Mathlib.Data.List.Forall2
import Mathlib.Tactic.Common
import Runbook.Compiler.Writing
import Runbook.Proofs.Unfolding

/-!
What the running budget of bytes comes to. The steps of a path tree are told here without a
budget. Writing them with one pays for every text once it is whole, those of the arms of a block
before its own, and gives up at the first text that is not covered. This ends well exactly if the
bytes of all texts together are covered, and then it gives the same steps.
-/
namespace Runbook

theorem checkBound_eq_ok_iff {bound : Option Nat} {error : Nat → LimitError} {n : Nat} :
    checkBound bound error n = .ok () ↔ ∀ limit, bound = some limit → n ≤ limit := by
  cases bound with
  | none => simp [checkBound]
  | some limit =>
    by_cases hover : limit < n
    · simp [checkBound, hover]
    · simp [checkBound, hover, Nat.le_of_not_lt hover]

theorem checkBound_error_mono {bound : Option Nat} {error : Nat → LimitError} {m n : Nat}
    {e : LimitError} (h : checkBound bound error m = .error e) (hle : m ≤ n) :
    checkBound bound error n = .error e := by
  cases bound with
  | none => cases h
  | some limit =>
    by_cases hover : limit < m
    · rw [checkBound, if_pos hover] at h
      rw [checkBound, if_pos (Nat.lt_of_lt_of_le hover hle), h]
    · rw [checkBound, if_neg hover] at h
      cases h

def TextBudget.IsKept (budget : TextBudget) : Prop :=
  ∀ limit, budget.limit = some limit → budget.used ≤ limit

namespace Writing

/-- An act that gives `a` and pays for so many bytes in all, or fails for want of them, if it is
begun under a budget that has been kept so far. -/
def Pays {α : Type} (bytes : Nat) (act : Writing α) (a : α) : Prop :=
  ∀ budget : TextBudget, budget.IsKept → act budget =
    (checkBound budget.limit .tooManyBytes (budget.used + bytes) >>= fun _ =>
      .ok (a, ⟨budget.limit, budget.used + bytes⟩))

variable {α β : Type}

theorem pays_pure (a : α) : Pays 0 (pure a) a := by
  intro budget hkept
  have hroom : checkBound budget.limit .tooManyBytes (budget.used + 0) = .ok () :=
    checkBound_eq_ok_iff.mpr hkept
  rw [hroom]
  rfl

theorem pays_pay (bytes : Nat) : Pays bytes (pay bytes) () := fun _ _ => rfl

/-- Two acts in a row pay for the bytes of both. If those of the first are not covered, those of
both are not either. -/
theorem Pays.bind {m n : Nat} {act : Writing α} {next : α → Writing β} {a : α} {b : β}
    (hact : Pays m act a) (hnext : Pays n (next a) b) : Pays (m + n) (act >>= next) b := by
  intro budget hkept
  show (act budget >>= fun done => next done.1 done.2) = _
  rw [hact budget hkept, ← Nat.add_assoc]
  cases hroom : checkBound budget.limit .tooManyBytes (budget.used + m) with
  | ok _ => exact hnext ⟨budget.limit, budget.used + m⟩ (checkBound_eq_ok_iff.mp hroom)
  | error e => rw [checkBound_error_mono hroom (Nat.le_add_right _ n)]; rfl

/-- What is made of a result costs nothing more. -/
theorem Pays.map {n : Nat} {act : Writing α} {a : α} (h : Pays n act a) (f : α → β) :
    Pays n (do return f (← act)) (f a) := h.bind (n := 0) (pays_pure (f a))

end Writing

mutual

/-- The steps of a visit and of all visits behind it, where `parent` is the node before it. -/
def Visit.steps (own : Node → String) (indent : String) (parent : Option NodeId) (depth : Nat) :
    Visit → List ScriptStep
  | .mk node exits =>
    let behind := exits.steps own indent node depth
    ⟨node.id, blockText own indent node depth behind, parent.toList, depth⟩ ::
      behind.flatMap Prod.snd

def Exits.steps (own : Node → String) (indent : String) (last : Node) (depth : Nat) :
    Exits → Behind
  | .nil => []
  | .onward e visit rest =>
    (e, visit.steps own indent (some last.id) (depthBehind depth last e)) ::
      rest.steps own indent last depth
  | .stopped e _ rest => (e, []) :: rest.steps own indent last depth

end

def textBytes (steps : List ScriptStep) : Nat := (steps.map fun s => s.text.utf8ByteSize).sum

@[simp] theorem textBytes_cons (s : ScriptStep) (steps : List ScriptStep) :
    textBytes (s :: steps) = s.text.utf8ByteSize + textBytes steps := by simp [textBytes]

@[simp] theorem textBytes_append (steps more : List ScriptStep) :
    textBytes (steps ++ more) = textBytes steps + textBytes more := by simp [textBytes]

def Script.byteSize (s : Script) : Nat := textBytes s.steps

/-- Rows that write the steps behind the same edges, and pay for them. -/
def Writing.PaysEach (rows : List (Edge × Writing (List ScriptStep))) (behind : Behind) : Prop :=
  List.Forall₂ (fun row b => row.1 = b.1 ∧ Pays (textBytes b.2) row.2 b.2) rows behind

namespace Writing

theorem PaysEach.filter {rows : List (Edge × Writing (List ScriptStep))} {behind : Behind}
    (h : PaysEach rows behind) (p : Edge → Bool) :
    PaysEach (rows.filter fun row => p row.1) (behind.filter fun b => p b.1) :=
  List.rel_filter (fun row b hrow => (by rw [hrow.1] : p row.1 = true ↔ p b.1 = true)) h

theorem PaysEach.all {rows : List (Edge × Writing (List ScriptStep))} {behind : Behind}
    (h : PaysEach rows behind) :
    Pays (textBytes (behind.flatMap Prod.snd)) (Writing.all rows) behind := by
  unfold Writing.all
  induction h with
  | nil => exact pays_pure []
  | @cons row b rows behind hrow _ ih =>
    obtain ⟨hedge, hpays⟩ := hrow
    rw [List.mapM_cons, List.flatMap_cons, textBytes_append]
    have hhead := hpays.map fun steps => (row.1, steps)
    rw [hedge] at hhead ⊢
    exact hhead.bind (ih.map fun behind => b :: behind)

end Writing

theorem Node.opensArm_of_mem_arms {node : Node} {arm : Arm} (harm : arm ∈ node.kind.arms) {e : Edge}
    (hport : e.port = some arm.port) : node.opensArm e = true := by
  have hopens : ∀ kind : Kind, ∀ arm ∈ kind.arms,
      kind.isBranching = true ∧ arm.port.opensArm = true := by
    intro kind
    cases kind <;> decide
  obtain ⟨hkind, hopens⟩ := hopens node.kind arm harm
  simp [opensArm, hkind, hport, hopens]

namespace Arm

variable {node : Node} {arm : Arm} (harm : arm ∈ node.kind.arms) (behind : Behind)
include harm

theorem steps_filter_opensArm :
    arm.steps (behind.filter fun b => node.opensArm b.1) = arm.steps behind := by
  have hfound : (fun b : Edge × List ScriptStep =>
      node.opensArm b.1 && decide (b.1.port = some arm.port)) =
        fun b => decide (b.1.port = some arm.port) := by
    funext b
    by_cases hport : b.1.port = some arm.port
    · simp [hport, Node.opensArm_of_mem_arms harm hport]
    · simp [hport]
  rw [steps, steps, List.find?_filter]
  simp only [Bool.decide_and, Bool.decide_eq_true, decide_eq_true_eq, hfound]

theorem filler_filter_opensArm (id : NodeId) :
    arm.filler id (behind.filter fun b => node.opensArm b.1) = arm.filler id behind := by
  by_cases hport : arm.port = .failure
  · have hall : (behind.filter fun b => node.opensArm b.1).all (fun b => b.1.port ≠ some .failure) =
        behind.all fun b => b.1.port ≠ some .failure := by
      rw [List.all_filter]
      congr 1
      funext b
      by_cases hb : b.1.port = some .failure
      · simp [hb, Node.opensArm_of_mem_arms harm (hport ▸ hb)]
      · simp [hb]
    rw [filler, filler, hall]
  · simp [filler, hport]

theorem lines_filter_opensArm (indent : String) (id : NodeId) (depth : Nat) :
    arm.lines indent id depth (behind.filter fun b => node.opensArm b.1) =
      arm.lines indent id depth behind := by
  rw [lines, lines, steps_filter_opensArm harm, filler_filter_opensArm harm]

end Arm

/-- The text of a block is made of its arms alone. -/
theorem blockText_filter_opensArm (own : Node → String) (indent : String) (node : Node)
    (depth : Nat) (behind : Behind) :
    blockText own indent node depth (behind.filter fun b => node.opensArm b.1) =
      blockText own indent node depth behind := by
  have hlines : (node.kind.arms.flatMap fun arm => arm.lines indent node.id depth
      (behind.filter fun b => node.opensArm b.1)) =
        node.kind.arms.flatMap fun arm => arm.lines indent node.id depth behind :=
    List.flatMap_congr fun arm harm => Arm.lines_filter_opensArm harm behind indent node.id depth
  rw [blockText, blockText, hlines]

/-- A row with the nested ones first is the nested ones and then the others. -/
theorem filter_append_filter_not {α : Type} {p : α → Bool} {l : List α}
    (h : l.Pairwise fun a later => p later = true → p a = true) :
    l.filter p ++ l.filter (fun a => !p a) = l := by
  induction l with
  | nil => rfl
  | cons a rest ih =>
    obtain ⟨hfirst, hrest⟩ := List.pairwise_cons.mp h
    by_cases ha : p a = true
    · simp [ha, ih hrest]
    · have hnone : rest.filter p = [] :=
        List.filter_eq_nil_iff.mpr fun b hb hp => ha (hfirst b hb hp)
      have hothers := ih hrest
      rw [hnone, List.nil_append] at hothers
      simp [ha, hnone, hothers]

/-- A visit pays for its own text between those of its arms and those of what follows it. -/
theorem Visit.write_pays {own : Node → String} {indent : String} {parent : Option NodeId}
    {depth : Nat} {node : Node} {exits : Exits}
    (hrows : Writing.PaysEach (exits.writers own indent node depth)
      (exits.steps own indent node depth))
    (harms : (exits.steps own indent node depth).Pairwise fun b later =>
      node.opensArm later.1 = true → node.opensArm b.1 = true) :
    Writing.Pays (textBytes ((Visit.mk node exits).steps own indent parent depth))
      ((Visit.mk node exits).write own indent parent depth)
      ((Visit.mk node exits).steps own indent parent depth) := by
  rw [Visit.steps, Visit.write]
  generalize exits.steps own indent node depth = behind at hrows harms ⊢
  let nested := behind.filter fun b => node.opensArm b.1
  let onward := behind.filter fun b => !node.opensArm b.1
  let step : ScriptStep := ⟨node.id, blockText own indent node depth behind, parent.toList, depth⟩
  have hsplit : behind.flatMap Prod.snd = nested.flatMap Prod.snd ++ onward.flatMap Prod.snd := by
    rw [← List.flatMap_append, filter_append_filter_not harms]
  have hcost : textBytes (step :: behind.flatMap Prod.snd) =
      textBytes (nested.flatMap Prod.snd) +
        (step.text.utf8ByteSize + textBytes (onward.flatMap Prod.snd)) := by
    rw [hsplit, textBytes_cons, textBytes_append, Nat.add_left_comm]
  have hnested := (hrows.filter fun e => node.opensArm e).all
  have honward := (hrows.filter fun e => !node.opensArm e).all
  change Writing.Pays (textBytes (step :: behind.flatMap Prod.snd)) _
    (step :: behind.flatMap Prod.snd)
  rw [hcost, hsplit]
  refine hnested.bind ?_
  rw [blockText_filter_opensArm]
  exact (Writing.pays_pay _).bind (honward.map fun following =>
    step :: (nested.flatMap Prod.snd ++ following.flatMap Prod.snd))

namespace Graph

variable {g : Graph}

/-- A tree has an exit for each edge that it was made for. -/
theorem Unfolds.edges_steps {path loops : List NodeId} {last : Node} {edges : List Edge}
    {exits : Exits} (h : g.Unfolds path loops last edges exits) (own : Node → String)
    (indent : String) (depth : Nat) :
    (exits.steps own indent last depth).map Prod.fst = edges := by
  induction h with
  | nil => rfl
  | stopped _ _ ih => rw [Exits.steps, List.map_cons, ih]
  | nowhere _ _ _ ih => rw [Exits.steps, List.map_cons, ih]
  | onward _ _ _ _ _ ih => rw [Exits.steps, List.map_cons, ih]

/-- The edges that open the arms of a block come before the one that goes on behind it. -/
theorem liveEdges_arms_first (g : Graph) (node : Node) :
    (g.liveEdges node).Pairwise fun e later =>
      node.opensArm later = true → node.opensArm e = true := by
  have hports : ∀ kind : Kind, kind.ports.Pairwise fun port later =>
      later.opensArm = true → port.opensArm = true := by
    intro kind
    cases kind <;> decide
  unfold liveEdges
  split
  · rename_i hkind
    rw [List.pairwise_filterMap]
    refine (hports node.kind).imp fun {port later} hopens e he f hf => ?_
    have heport : e.port = some port := by simpa using List.find?_some he
    have hfport : f.port = some later := by simpa using List.find?_some hf
    simpa [Node.opensArm, hkind, heport, hfport] using hopens
  · rename_i hkind
    exact List.pairwise_of_forall fun e later hopens => by simp [Node.opensArm, hkind] at hopens

theorem Unfolds.pays {path loops : List NodeId} {node : Node} {exits : Exits}
    (h : g.Unfolds path loops node (g.liveEdges node) exits) {own : Node → String}
    {indent : String} {depth : Nat} (parent : Option NodeId)
    (hrows : Writing.PaysEach (exits.writers own indent node depth)
      (exits.steps own indent node depth)) :
    Writing.Pays (textBytes ((Visit.mk node exits).steps own indent parent depth))
      ((Visit.mk node exits).write own indent parent depth)
      ((Visit.mk node exits).steps own indent parent depth) := by
  have harms := g.liveEdges_arms_first node
  rw [← h.edges_steps own indent depth, List.pairwise_map] at harms
  exact Visit.write_pays hrows harms

theorem Unfolds.paysEach {path loops : List NodeId} {last : Node} {edges : List Edge}
    {exits : Exits} (h : g.Unfolds path loops last edges exits) (own : Node → String)
    (indent : String) (depth : Nat) :
    Writing.PaysEach (exits.writers own indent last depth) (exits.steps own indent last depth) := by
  induction h generalizing depth with
  | nil => exact .nil
  | stopped _ _ ih => exact .cons ⟨rfl, Writing.pays_pure []⟩ (ih depth)
  | nowhere _ _ _ ih => exact .cons ⟨rfl, Writing.pays_pure []⟩ (ih depth)
  | onward _ _ hbehind _ ihbehind ihrest =>
    exact .cons ⟨rfl, hbehind.pays _ (ihbehind _)⟩ (ihrest depth)

/-- Writing a tree gives its steps if the bytes of all their texts are covered, and fails
otherwise. -/
theorem write_of_visit {limits : Limits} {start : Node} {visit : Visit}
    (hvisit : g.visit limits start = .ok visit) (own : Node → String) (indent : String) :
    visit.write own indent none 0 ⟨limits.bytes, 0⟩ =
      (checkBound limits.bytes .tooManyBytes (textBytes (visit.steps own indent none 0)) >>=
        fun _ => .ok (visit.steps own indent none 0,
          ⟨limits.bytes, textBytes (visit.steps own indent none 0)⟩)) := by
  obtain ⟨exits, htree, rfl⟩ := exists_unfolds_of_visit hvisit
  have hkept : TextBudget.IsKept ⟨limits.bytes, 0⟩ := fun _ _ => Nat.zero_le _
  simpa using htree.pays none (htree.paysEach own indent 0) _ hkept

end Graph

end Runbook
