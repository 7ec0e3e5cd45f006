import Mathlib.Tactic.Common
import Runbook.Proofs.CompileOutcome
import Runbook.Proofs.Walk

/-!
The walk and the tree of paths. From the end of a path the walk follows the arms of its last node
and then the edges that go on at its level, as the tree does; it comes by what the tree holds, in
the order of the tree, and breaks off where the tree cannot be made. That is one induction along the
recursion of the tree, for any calls around it and anything that waits below.
-/
namespace Runbook

mutual

def Visit.sights (before : List Node) (depth : Nat) : Visit → List Walk.Sight
  | .mk node exits => .arrived node before depth :: exits.sights (node :: before) node depth

def Exits.sights (path : List Node) (last : Node) (depth : Nat) : Exits → List Walk.Sight
  | .nil => []
  | .onward e visit rest =>
    visit.sights path (depthBehind depth last e) ++ rest.sights path last depth
  | .stopped e stop rest => .stopped e stop :: rest.sights path last depth

end

namespace Graph

variable {g : Graph} {node : Node}

theorem continuations_of_not_branching (h : node.kind.isBranching = false) :
    g.continuations node = g.outgoing node.id := by
  unfold continuations
  cases hkind : node.kind <;> first | rfl | (rw [hkind] at h; cases h)

/-- At its own level a block goes on through the port beside those of its arms, if it has one. -/
theorem continuations_of_branching (h : node.kind.isBranching = true) :
    ∃ ports, node.kind.ports = node.kind.arms.map Arm.port ++ ports ∧
      (∀ port ∈ ports, port.opensArm = false) ∧
      g.continuations node = ports.filterMap (g.portEdge? node.id) := by
  unfold continuations
  cases hkind : node.kind with
  | condition => exact ⟨[], rfl, by simp, rfl⟩
  | check => exact ⟨[], rfl, by simp, rfl⟩
  | loop =>
    refine ⟨[.exit], rfl, by decide, ?_⟩
    cases hfound : g.portEdge? node.id .exit <;> simp [hfound]
  | _ =>
    rw [hkind] at h
    cases h

/-- Paths leave a node through the ports of its arms first and then at its own level. -/
theorem liveEdges_eq (g : Graph) (node : Node) :
    g.liveEdges node =
      (node.kind.arms.map Arm.port).filterMap (g.portEdge? node.id) ++ g.continuations node := by
  rw [liveEdges]
  cases hbranch : node.kind.isBranching with
  | true =>
    obtain ⟨ports, hports, -, hcontinue⟩ := continuations_of_branching (g := g) hbranch
    rw [if_pos rfl, hports, List.filterMap_append, hcontinue]
    rfl
  | false =>
    have harms : node.kind.arms = [] := by
      refine List.eq_nil_iff_forall_not_mem.mpr fun arm harm => ?_
      rw [(node.kind.arms_open arm harm).1] at hbranch
      cases hbranch
    rw [if_neg Bool.false_ne_true, harms, continuations_of_not_branching hbranch]
    rfl

theorem not_opensArm_of_mem_continuations {e : Edge} (he : e ∈ g.continuations node) :
    node.opensArm e = false := by
  rw [Node.opensArm]
  cases hbranch : node.kind.isBranching with
  | false => rfl
  | true =>
    obtain ⟨ports, -, hcloses, hcontinue⟩ := continuations_of_branching (g := g) hbranch
    rw [hcontinue] at he
    obtain ⟨port, hport, hfound⟩ := List.mem_filterMap.mp he
    have heport : e.port = some port := by simpa using List.find?_some hfound
    rw [heport, Option.any_some, hcloses port hport]
    rfl

end Graph

theorem loopsBehind_of_not_opensArm (loops : List NodeId) {node : Node} {e : Edge}
    (h : node.opensArm e = false) : loopsBehind loops node e = loops := by
  refine if_neg fun hbody => ?_
  rw [Node.opensArm, hbody.1, hbody.2] at h
  cases h

theorem loopsBehind_of_arm (loops : List NodeId) {node : Node} {e : Edge} {port : Port}
    (hport : port ∈ node.kind.arms.map Arm.port) (he : e.port = some port) :
    loopsBehind loops node e = loopsUnder loops node := by
  rw [loopsBehind, loopsUnder]
  by_cases hkind : node.kind = .loop
  · rw [hkind] at hport
    obtain rfl : port = .body := List.mem_singleton.mp hport
    rw [if_pos ⟨hkind, he⟩, if_pos hkind]
  · rw [if_neg fun h => hkind h.1, if_neg hkind]

namespace Walk

def Leads (g : Graph) (limits : Limits) (w later : Walk) : Prop :=
  ∃ n, Nat.iterate (next g limits) n w = later

namespace Leads

variable {g : Graph} {limits : Limits} {w later last : Walk}

theorem refl : Leads g limits w w := ⟨0, rfl⟩

theorem head (hnext : w.next g limits = later) (h : Leads g limits later last) :
    Leads g limits w last := by
  obtain ⟨n, rfl⟩ := h
  exact ⟨n + 1, by rw [Function.iterate_succ_apply, hnext]⟩

theorem trans (h : Leads g limits w later) (h' : Leads g limits later last) :
    Leads g limits w last := by
  obtain ⟨m, rfl⟩ := h
  obtain ⟨n, rfl⟩ := h'
  exact ⟨n + m, Function.iterate_add_apply _ _ _ _⟩

end Leads

/-- How a walk ends that has a row of edges to follow from the end of a path: it comes back to the
level and the loops it was at, with what it came by on the way, or it breaks off there. -/
inductive Plays (g : Graph) (limits : Limits) (w : Walk) (path : List Node) (loops : List NodeId)
    (level : Level) (callers : List Caller) (before : List Sight) (found : Exits → List Sight) :
    Except LimitError (Exits × Nat) → Prop
  | done {exits : Exits} {count : Nat} {longer : List Node} (hpath : path <:+ longer)
      (hleads : Leads g limits w
        ⟨.onward, longer, loops, level, callers, count, (found exits).reverse ++ before⟩) :
      Plays g limits w path loops level callers before found (.ok (exits, count))
  | failed {e : LimitError} {count : Nat} {longer : List Node} {waiting : List Waiting}
      {sights : List Sight} (hpath : path <:+ longer)
      (hleads : Leads g limits w
        ⟨.back (.error e), longer, loops, { level with waiting := waiting }, callers, count,
          sights⟩) :
      Plays g limits w path loops level callers before found (.error e)

namespace Plays

variable {g : Graph} {limits : Limits} {w later : Walk} {path : List Node} {loops : List NodeId}
  {level : Level} {callers : List Caller} {before : List Sight} {found : Exits → List Sight}

theorem head {x : Except LimitError (Exits × Nat)} (hleads : Leads g limits w later)
    (h : Plays g limits later path loops level callers before found x) :
    Plays g limits w path loops level callers before found x := by
  cases h with
  | done hpath hdone => exact .done hpath (hleads.trans hdone)
  | failed hpath hfailed => exact .failed hpath (hleads.trans hfailed)

/-- The rest of a row is walked after a part of it, and what is made of the rest tells of both. -/
theorem map {x : Except LimitError (Exits × Nat)} (add : Exits → Exits) (part : List Sight)
    (hfound : ∀ exits, found (add exits) = part ++ found exits)
    (h : Plays g limits w path loops level callers (part.reverse ++ before) found x) :
    Plays g limits w path loops level callers before found
      (x >>= fun others => .ok (add others.1, others.2)) := by
  cases h with
  | done hpath hdone =>
    refine .done hpath ?_
    rw [hfound, List.reverse_append, List.append_assoc]
    exact hdone
  | failed hpath hfailed => exact .failed hpath hfailed

end Plays

section

variable {g : Graph} {limits : Limits} {path : List Node} {loops : List NodeId} {level : Level}
  {callers : List Caller} {count : Nat} {sights : List Sight}

theorem next_enter_of_room {node : Node}
    (h : checkBound limits.steps .tooManySteps (count + 1) = .ok ()) :
    (⟨.enter node, path, loops, level, callers, count, sights⟩ : Walk).next g limits =
      ⟨.arms node (node.kind.arms.map Arm.port), node :: path, loops, level, callers, count + 1,
        .arrived node path level.depth :: sights⟩ := by
  simp only [next, arrive, h]

theorem next_enter_of_error {node : Node} {e : LimitError}
    (h : checkBound limits.steps .tooManySteps (count + 1) = .error e) :
    (⟨.enter node, path, loops, level, callers, count, sights⟩ : Walk).next g limits =
      ⟨.back (.error e), path, loops, level, callers, count + 1, sights⟩ := by
  simp only [next, arrive, h]

theorem next_onward_of_stop {e : Edge} {mark : Nat} {waiting : List Waiting} {stop : Stop}
    (hwaiting : level.waiting = ⟨e, mark⟩ :: waiting)
    (h : g.follow (path.rtake mark) loops e = .error stop) :
    (⟨.onward, path, loops, level, callers, count, sights⟩ : Walk).next g limits =
      ⟨.onward, path.rtake mark, loops, { level with waiting := waiting }, callers, count,
        .stopped e stop :: sights⟩ := by
  simp only [next, goOn, hwaiting, h]

theorem next_onward_of_follow {e : Edge} {mark : Nat} {waiting : List Waiting} {node : Node}
    (hwaiting : level.waiting = ⟨e, mark⟩ :: waiting)
    (h : g.follow (path.rtake mark) loops e = .ok node) :
    (⟨.onward, path, loops, level, callers, count, sights⟩ : Walk).next g limits =
      ⟨.enter node, path.rtake mark, loops, { level with waiting := waiting }, callers, count,
        sights⟩ := by
  simp only [next, goOn, hwaiting, h]

theorem next_onward_of_nil (hwaiting : level.waiting = []) :
    (⟨.onward, path, loops, level, callers, count, sights⟩ : Walk).next g limits =
      ⟨.back (.ok ()), path, loops, level, callers, count, sights⟩ := by
  simp only [next, goOn, hwaiting]

theorem next_arms_nil {node : Node} :
    (⟨.arms node [], path, loops, level, callers, count, sights⟩ : Walk).next g limits =
      ⟨.onward, path, loops,
        { level with
          waiting := (g.continuations node).map (fun e => ⟨e, path.length⟩) ++ level.waiting },
        callers, count, sights⟩ := rfl

theorem next_arms_of_none {node : Node} {port : Port} {ports : List Port}
    (h : g.portEdge? node.id port = none) :
    (⟨.arms node (port :: ports), path, loops, level, callers, count, sights⟩ : Walk).next g
        limits = ⟨.arms node ports, path, loops, level, callers, count, sights⟩ := by
  simp only [next, openArm, h]

section

variable {node : Node} {port : Port} {ports : List Port} {e : Edge}
  (hedge : g.portEdge? node.id port = some e)

include hedge

theorem next_arms_of_error {err : LimitError}
    (h : checkBound limits.depth .tooDeep (level.depth + 1) = .error err) :
    (⟨.arms node (port :: ports), path, loops, level, callers, count, sights⟩ : Walk).next g
        limits = ⟨.back (.error err), path, loops, level, callers, count, sights⟩ := by
  simp only [next, openArm, hedge, h]

theorem next_arms_of_stop {stop : Stop}
    (hdeep : checkBound limits.depth .tooDeep (level.depth + 1) = .ok ())
    (h : g.follow path (loopsUnder loops node) e = .error stop) :
    (⟨.arms node (port :: ports), path, loops, level, callers, count, sights⟩ : Walk).next g
        limits =
      ⟨.arms node ports, path, loops, level, callers, count, .stopped e stop :: sights⟩ := by
  simp only [next, openArm, hedge, hdeep, h]

theorem next_arms_of_follow {target : Node}
    (hdeep : checkBound limits.depth .tooDeep (level.depth + 1) = .ok ())
    (h : g.follow path (loopsUnder loops node) e = .ok target) :
    (⟨.arms node (port :: ports), path, loops, level, callers, count, sights⟩ : Walk).next g
        limits =
      ⟨.enter target, path, loopsUnder loops node, ⟨level.depth + 1, path.length, []⟩,
        ⟨node, ports, level⟩ :: callers, count, sights⟩ := by
  simp only [next, openArm, hedge, hdeep, h]

end

/-- A call for an arm of a block leaves the loops around the block. -/
theorem next_back_of_loopsUnder {block : Node} {ports : List Port} {outer : Level}
    {before : List Node} (result : Except LimitError Unit) (hbefore : before <:+ path)
    (hbase : level.base = before.length) :
    (⟨.back result, path, loopsUnder loops block, level, ⟨block, ports, outer⟩ :: callers, count,
        sights⟩ : Walk).next g limits =
      ⟨.afterArm block ports result, before, loops, outer, callers, count, sights⟩ := by
  have hpath : path.rtake level.base = before := by rw [hbase, rtake_of_suffix hbefore]
  have hloops : (if block.kind = .loop then (loopsUnder loops block).tail
      else loopsUnder loops block) = loops := by
    rw [loopsUnder]
    split <;> rfl
  simp only [next, comeBack, hpath, hloops]

end

end Walk

namespace Graph

variable {g : Graph} {path : List Node} {ids : List NodeId} {loops : List NodeId} {e : Edge}

theorem follow_of_seen (hids : path.map Node.id = ids) (hseen : e.target ∈ ids) :
    g.follow path loops e = .error (stopBefore loops e.target) := by
  rw [follow, hids, if_pos hseen]

theorem follow_of_nowhere (hids : path.map Node.id = ids) (hfresh : e.target ∉ ids)
    (hnode : g.node? e.target = none) : g.follow path loops e = .error .nowhere := by
  rw [follow, hids, if_neg hfresh, hnode]

theorem follow_of_node (hids : path.map Node.id = ids) (hfresh : e.target ∉ ids) {node : Node}
    (hnode : g.node? e.target = some node) : g.follow path loops e = .ok node := by
  rw [follow, hids, if_neg hfresh, hnode]

end Graph

namespace Walk

variable {g : Graph} {limits : Limits}

section

variable {path cur : List Node} {loops : List NodeId} {depth base count : Nat}
  {waiting below : List Waiting} {callers : List Caller} {before : List Sight} {last node : Node}
  {e : Edge} {stop : Stop} {port : Port} {ports : List Port}
  {x : Except LimitError (Exits × Nat)} {rest : Nat → Except LimitError (Exits × Nat)}

theorem Plays.onward_of_stop (hcur : path <:+ cur) (hfollow : g.follow path loops e = .error stop)
    (h : Plays g limits
      ⟨.onward, path, loops, ⟨depth, base, waiting⟩, callers, count, .stopped e stop :: before⟩
      path loops ⟨depth, base, below⟩ callers (.stopped e stop :: before)
      (fun exits => exits.sights path last depth) x) :
    Plays g limits
      ⟨.onward, cur, loops, ⟨depth, base, ⟨e, path.length⟩ :: waiting⟩, callers, count, before⟩
      path loops ⟨depth, base, below⟩ callers before (fun exits => exits.sights path last depth)
      (x >>= fun others => .ok (.stopped e stop others.1, others.2)) := by
  have hback : cur.rtake path.length = path := rtake_of_suffix hcur
  refine Plays.head (.head (next_onward_of_stop rfl (hback.symm ▸ hfollow)) .refl) ?_
  rw [hback]
  exact Plays.map (.stopped e stop) [.stopped e stop] (fun _ => rfl) h

theorem Plays.onward_of_node (hcur : path <:+ cur) (hfollow : g.follow path loops e = .ok node)
    (h : Plays g limits
      ⟨.arms node (node.kind.arms.map Arm.port), node :: path, loops, ⟨depth, base, waiting⟩,
        callers, count + 1, .arrived node path depth :: before⟩
      (node :: path) loops ⟨depth, base, waiting⟩ callers (.arrived node path depth :: before)
      (fun exits => exits.sights (node :: path) node depth) x)
    (hdepth : depthBehind depth last e = depth)
    (hrest : ∀ (behind : Exits) (later : Nat) (longer : List Node), path <:+ longer →
      let sights := (behind.sights (node :: path) node depth).reverse ++
        .arrived node path depth :: before
      Plays g limits ⟨.onward, longer, loops, ⟨depth, base, waiting⟩, callers, later, sights⟩
        path loops ⟨depth, base, below⟩ callers sights (fun exits => exits.sights path last depth)
        (rest later)) :
    Plays g limits
      ⟨.onward, cur, loops, ⟨depth, base, ⟨e, path.length⟩ :: waiting⟩, callers, count, before⟩
      path loops ⟨depth, base, below⟩ callers before (fun exits => exits.sights path last depth)
      (checkBound limits.steps .tooManySteps (count + 1) >>= fun _ => x >>= fun behind =>
        rest behind.2 >>= fun others =>
          .ok (.onward e (.mk node behind.1) others.1, others.2)) := by
  have hback : cur.rtake path.length = path := rtake_of_suffix hcur
  refine Plays.head (.head (next_onward_of_follow rfl (hback.symm ▸ hfollow)) .refl) ?_
  rw [hback]
  cases hroom : checkBound limits.steps .tooManySteps (count + 1) with
  | error err => exact .failed (List.suffix_refl _) (.head (next_enter_of_error hroom) .refl)
  | ok _ =>
    refine Plays.head (.head (next_enter_of_room hroom) .refl) ?_
    cases h with
    | failed hlonger hfailed => exact .failed ((List.suffix_cons _ _).trans hlonger) hfailed
    | @done behind later longer hlonger hdone =>
      refine Plays.head hdone ?_
      refine Plays.map (.onward e (.mk node behind))
        (.arrived node path depth :: behind.sights (node :: path) node depth)
        (fun others => ?_) ?_
      · rw [Exits.sights, Visit.sights, hdepth]
      · rw [List.reverse_cons, List.append_assoc]
        exact hrest behind later longer ((List.suffix_cons _ _).trans hlonger)

theorem Plays.arm_of_stop (hedge : g.portEdge? last.id port = some e)
    (hdeep : checkBound limits.depth .tooDeep (depth + 1) = .ok ())
    (hfollow : g.follow path (loopsUnder loops last) e = .error stop)
    (h : Plays g limits
      ⟨.arms last ports, path, loops, ⟨depth, base, below⟩, callers, count,
        .stopped e stop :: before⟩
      path loops ⟨depth, base, below⟩ callers (.stopped e stop :: before)
      (fun exits => exits.sights path last depth) x) :
    Plays g limits
      ⟨.arms last (port :: ports), path, loops, ⟨depth, base, below⟩, callers, count, before⟩
      path loops ⟨depth, base, below⟩ callers before (fun exits => exits.sights path last depth)
      (x >>= fun others => .ok (.stopped e stop others.1, others.2)) := by
  refine Plays.head (.head (next_arms_of_stop hedge hdeep hfollow) .refl) ?_
  exact Plays.map (.stopped e stop) [.stopped e stop] (fun _ => rfl) h

theorem Leads.comeBack {w : Walk} {level outer : Level} {longer : List Node}
    {sights : List Sight} (result : Except LimitError Unit) (hpath : path <:+ longer)
    (hbase : level.base = path.length)
    (h : Leads g limits w ⟨.back result, longer, loopsUnder loops last, level,
      ⟨last, ports, outer⟩ :: callers, count, sights⟩) :
    Leads g limits w ⟨.afterArm last ports result, path, loops, outer, callers, count, sights⟩ :=
  h.trans (.head (next_back_of_loopsUnder result hpath hbase) .refl)

/-- The call for an arm comes back to the block, with a result or with an error. -/
theorem Plays.arm_of_node (hedge : g.portEdge? last.id port = some e)
    (hdeep : checkBound limits.depth .tooDeep (depth + 1) = .ok ())
    (hfollow : g.follow path (loopsUnder loops last) e = .ok node)
    (h : Plays g limits
      ⟨.arms node (node.kind.arms.map Arm.port), node :: path, loopsUnder loops last,
        ⟨depth + 1, path.length, []⟩, ⟨last, ports, ⟨depth, base, below⟩⟩ :: callers, count + 1,
        .arrived node path (depth + 1) :: before⟩
      (node :: path) (loopsUnder loops last) ⟨depth + 1, path.length, []⟩
      (⟨last, ports, ⟨depth, base, below⟩⟩ :: callers)
      (.arrived node path (depth + 1) :: before)
      (fun exits => exits.sights (node :: path) node (depth + 1)) x)
    (hdepth : depthBehind depth last e = depth + 1)
    (hrest : ∀ (behind : Exits) (later : Nat),
      let sights := (behind.sights (node :: path) node (depth + 1)).reverse ++
        .arrived node path (depth + 1) :: before
      Plays g limits ⟨.arms last ports, path, loops, ⟨depth, base, below⟩, callers, later, sights⟩
        path loops ⟨depth, base, below⟩ callers sights (fun exits => exits.sights path last depth)
        (rest later)) :
    Plays g limits
      ⟨.arms last (port :: ports), path, loops, ⟨depth, base, below⟩, callers, count, before⟩
      path loops ⟨depth, base, below⟩ callers before (fun exits => exits.sights path last depth)
      (checkBound limits.steps .tooManySteps (count + 1) >>= fun _ => x >>= fun behind =>
        rest behind.2 >>= fun others =>
          .ok (.onward e (.mk node behind.1) others.1, others.2)) := by
  refine Plays.head (.head (next_arms_of_follow hedge hdeep hfollow) .refl) ?_
  cases hroom : checkBound limits.steps .tooManySteps (count + 1) with
  | error err =>
    exact .failed (List.suffix_refl _) (Leads.comeBack _ (List.suffix_refl _) rfl
      (.head (next_enter_of_error hroom) .refl))
  | ok _ =>
    refine Plays.head (.head (next_enter_of_room hroom) .refl) ?_
    cases h with
    | failed hlonger hfailed =>
      have hback := hfailed.comeBack _ ((List.suffix_cons _ _).trans hlonger) rfl
      exact .failed (List.suffix_refl _) hback
    | @done behind later longer hlonger hdone =>
      have hback := (hdone.trans (.head (next_onward_of_nil rfl) .refl)).comeBack _
        ((List.suffix_cons _ _).trans hlonger) rfl
      refine Plays.head hback ?_
      refine Plays.map (.onward e (.mk node behind))
        (.arrived node path (depth + 1) :: behind.sights (node :: path) node (depth + 1))
        (fun others => ?_) ?_
      · rw [Exits.sights, Visit.sights, hdepth]
      · rw [List.reverse_cons, List.append_assoc]
        exact hrest behind later

end

def PlaysOnward (g : Graph) (limits : Limits) (ids loops : List NodeId) (depth : Nat) (last : Node)
    (edges : List Edge) (count : Nat) : Prop :=
  ∀ (path cur : List Node) (base : Nat) (below : List Waiting) (callers : List Caller)
    (before : List Sight), path.map Node.id = ids → path <:+ cur →
    (∀ e ∈ edges, last.opensArm e = false) →
    Plays g limits
      ⟨.onward, cur, loops, ⟨depth, base, edges.map (fun e => ⟨e, path.length⟩) ++ below⟩,
        callers, count, before⟩
      path loops ⟨depth, base, below⟩ callers before (fun exits => exits.sights path last depth)
      (g.exits limits ids loops depth last edges count)

def PlaysArms (g : Graph) (limits : Limits) (ids loops : List NodeId) (depth : Nat) (last : Node)
    (edges : List Edge) (count : Nat) : Prop :=
  ∀ (path : List Node) (base : Nat) (below : List Waiting) (callers : List Caller)
    (before : List Sight) (ports : List Port), path.map Node.id = ids →
    (∀ port ∈ ports, port ∈ last.kind.arms.map Arm.port) →
    edges = ports.filterMap (g.portEdge? last.id) ++ g.continuations last →
    Plays g limits
      ⟨.arms last ports, path, loops, ⟨depth, base, below⟩, callers, count, before⟩
      path loops ⟨depth, base, below⟩ callers before (fun exits => exits.sights path last depth)
      (g.exits limits ids loops depth last edges count)

def PlaysBehind (g : Graph) (limits : Limits) (ids loops : List NodeId) (depth : Nat) (last : Node)
    (e : Edge) (count : Nat) : Prop :=
  ∀ node, e.target ∉ ids → g.node? e.target = some node →
    PlaysArms g limits (node.id :: ids) (loopsBehind loops last e) (depthBehind depth last e) node
      (g.liveEdges node) (count + 1)

section

variable {ids loops : List NodeId} {depth count : Nat} {last : Node} {edges rest : List Edge}
  {e : Edge}

theorem playsOnward_cons (hrest : ∀ later, PlaysOnward g limits ids loops depth last rest later)
    (hbehind : PlaysBehind g limits ids loops depth last e count) :
    PlaysOnward g limits ids loops depth last (e :: rest) count := by
  intro path cur base below callers before hids hcur hclosed
  obtain ⟨hclosed, hclosedrest⟩ := List.forall_mem_cons.mp hclosed
  have hloops : loopsBehind loops last e = loops := loopsBehind_of_not_opensArm loops hclosed
  have hdepth : depthBehind depth last e = depth := by simp [depthBehind, hclosed]
  have hroom : checkArm limits depth last e = .ok () := by simp [checkArm, hclosed]
  by_cases hseen : e.target ∈ ids
  · rw [Graph.exits_cons_seen g limits loops depth last rest count hseen, hroom, hloops]
    exact Plays.onward_of_stop hcur (Graph.follow_of_seen hids hseen)
      (hrest count path path base below callers _ hids (List.suffix_refl _) hclosedrest)
  · cases hnode : g.node? e.target with
    | none =>
      rw [Graph.exits_cons_nowhere g limits loops depth last rest count hseen hnode, hroom]
      exact Plays.onward_of_stop hcur (Graph.follow_of_nowhere hids hseen hnode)
        (hrest count path path base below callers _ hids (List.suffix_refl _) hclosedrest)
    | some node =>
      have harms := hbehind node hseen hnode
      rw [hloops, hdepth] at harms
      rw [Graph.exits_cons_onward g limits loops depth last rest count hseen hnode, hroom,
        hloops, hdepth]
      refine Plays.onward_of_node hcur (Graph.follow_of_node hids hseen hnode)
        (harms (node :: path) base _ callers _ _ (by rw [List.map_cons, hids])
          (fun port => id) (g.liveEdges_eq node)) hdepth ?_
      intro behind later longer hlonger
      exact hrest later path longer base below callers _ hids hlonger hclosedrest

/-- The call for an arm, and then the later arms. -/
theorem plays_arm {path : List Node} {base : Nat} {below : List Waiting} {callers : List Caller}
    {before : List Sight} {port : Port} {ports : List Port}
    (hrest : ∀ later, PlaysArms g limits ids loops depth last rest later)
    (hbehind : PlaysBehind g limits ids loops depth last e count)
    (hids : path.map Node.id = ids) (hport : port ∈ last.kind.arms.map Arm.port)
    (hports : ∀ port ∈ ports, port ∈ last.kind.arms.map Arm.port)
    (hedge : g.portEdge? last.id port = some e)
    (hlater : rest = ports.filterMap (g.portEdge? last.id) ++ g.continuations last) :
    Plays g limits
      ⟨.arms last (port :: ports), path, loops, ⟨depth, base, below⟩, callers, count, before⟩
      path loops ⟨depth, base, below⟩ callers before (fun exits => exits.sights path last depth)
      (g.exits limits ids loops depth last (e :: rest) count) := by
  have heport : e.port = some port := by simpa using List.find?_some hedge
  have hopens : last.opensArm e = true := by
    obtain ⟨arm, harm, rfl⟩ := List.mem_map.mp hport
    exact Node.opensArm_of_arm harm heport
  have hloops : loopsBehind loops last e = loopsUnder loops last :=
    loopsBehind_of_arm loops hport heport
  have hdepth : depthBehind depth last e = depth + 1 := if_pos hopens
  have harm : checkArm limits depth last e = checkBound limits.depth .tooDeep (depth + 1) := by
    rw [checkArm, if_pos hopens]
  cases hdeep : checkBound limits.depth .tooDeep (depth + 1) with
  | error err =>
    have herror : g.exits limits ids loops depth last (e :: rest) count = .error err := by
      rw [Graph.exits, harm, hdeep]
      rfl
    rw [herror]
    exact .failed (List.suffix_refl _) (.head (next_arms_of_error hedge hdeep) .refl)
  | ok _ =>
    by_cases hseen : e.target ∈ ids
    · rw [Graph.exits_cons_seen g limits loops depth last rest count hseen, harm, hdeep, hloops]
      exact Plays.arm_of_stop hedge hdeep (Graph.follow_of_seen hids hseen)
        (hrest count path base below callers _ ports hids hports hlater)
    · cases hnode : g.node? e.target with
      | none =>
        rw [Graph.exits_cons_nowhere g limits loops depth last rest count hseen hnode, harm, hdeep]
        exact Plays.arm_of_stop hedge hdeep (Graph.follow_of_nowhere hids hseen hnode)
          (hrest count path base below callers _ ports hids hports hlater)
      | some node =>
        have harms := hbehind node hseen hnode
        rw [hloops, hdepth] at harms
        rw [Graph.exits_cons_onward g limits loops depth last rest count hseen hnode, harm, hdeep,
          hloops, hdepth]
        refine Plays.arm_of_node hedge hdeep (Graph.follow_of_node hids hseen hnode)
          (harms (node :: path) path.length [] _ _ _ (by rw [List.map_cons, hids])
            (fun port => id) (g.liveEdges_eq node)) hdepth ?_
        intro behind later
        exact hrest later path base below callers _ ports hids hports hlater

/-- Ports without an edge are passed over, and after the last port nothing is left but the edges
that go on. -/
theorem playsArms_of_onward (honward : PlaysOnward g limits ids loops depth last edges count)
    (harm : ∀ e rest, edges = e :: rest →
      (∀ later, PlaysArms g limits ids loops depth last rest later) ∧
        PlaysBehind g limits ids loops depth last e count) :
    PlaysArms g limits ids loops depth last edges count := by
  intro path base below callers before ports hids hports hedges
  induction ports with
  | nil =>
    refine Plays.head (.head next_arms_nil .refl) ?_
    obtain rfl : edges = g.continuations last := hedges
    -- The edges are now those that wait, in front of what waits below.
    exact honward path path base below callers before hids (List.suffix_refl _)
      fun e he => Graph.not_opensArm_of_mem_continuations he
  | cons port ports ih =>
    obtain ⟨hport, hports⟩ := List.forall_mem_cons.mp hports
    cases hedge : g.portEdge? last.id port with
    | none =>
      rw [List.filterMap_cons, hedge] at hedges
      exact Plays.head (.head (next_arms_of_none hedge) .refl) (ih hports hedges)
    | some e =>
      rw [List.filterMap_cons, hedge] at hedges
      obtain ⟨hrest, hbehind⟩ := harm e _ hedges
      subst hedges
      exact plays_arm hrest hbehind hids hport hports hedge rfl

end

/-- The walk from the end of a path is the one that the tree of paths is made by. -/
theorem plays_exits (g : Graph) (limits : Limits) (ids loops : List NodeId) (depth : Nat)
    (last : Node) (edges : List Edge) (count : Nat) :
    PlaysOnward g limits ids loops depth last edges count ∧
      PlaysArms g limits ids loops depth last edges count := by
  -- The count that the others are walked with is only known once the first edge has been walked,
  -- so the hypothesis about them is for any count.
  induction ids, loops, depth, last, edges, count using Graph.exits.induct g with
  | case1 ids loops depth last count =>
    have honward : PlaysOnward g limits ids loops depth last [] count := by
      intro path cur base below callers before hids hcur hclosed
      rw [Graph.exits]
      exact .done hcur .refl
    exact ⟨honward, playsArms_of_onward honward fun e rest hedges => absurd hedges (by simp)⟩
  | case2 ids loops depth last count e rest _ ihbehind ihrest =>
    have hbehind : PlaysBehind g limits ids loops depth last e count :=
      fun node hseen hnode => (ihbehind hseen node hnode).2
    have honward : PlaysOnward g limits ids loops depth last (e :: rest) count :=
      playsOnward_cons (fun later => (ihrest later).1) hbehind
    refine ⟨honward, playsArms_of_onward honward fun d others hedges => ?_⟩
    obtain ⟨rfl, rfl⟩ := List.cons.inj hedges
    exact ⟨fun later => (ihrest later).2, hbehind⟩

end Walk

end Runbook
