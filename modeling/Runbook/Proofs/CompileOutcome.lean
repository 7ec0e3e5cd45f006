import Mathlib.Tactic.Common
import Runbook.Proofs.PathTree

/-!
What compilation comes to. A graph with errors is refused with its findings. Any other has one
script without limits, and limits only say whether it is given: the walk breaks off early, but
never at a place where that script keeps the limit it names. Both are shown in one induction over
the walk, which compares its end under limits with the tree that it would build without.
-/
namespace Runbook

mutual

def Visit.visits (depth : Nat) : Visit → List (Node × Nat)
  | .mk node exits => (node, depth) :: exits.visits node depth

def Exits.visits (last : Node) (depth : Nat) : Exits → List (Node × Nat)
  | .nil => []
  | .onward e visit rest => visit.visits (depthBehind depth last e) ++ rest.visits last depth
  | .stopped _ _ rest => rest.visits last depth

end

/-- How a walk that would find `a` without limits ends under them, where `reached` is the count of
visits that it comes to, and `deep` holds of the depths that it goes beyond. -/
inductive Ends (limits : Limits) {α : Type} (reached : Nat) (deep : Nat → Prop) (a : α) :
    Except LimitError α → Prop
  | done (hsteps : ∀ n, limits.steps = some n → reached ≤ n)
      (hdepth : ∀ n, limits.depth = some n → ¬ deep n) : Ends limits reached deep a (.ok a)
  | tooManySteps {n : Nat} (hlimit : limits.steps = some n) (hover : n < reached) :
      Ends limits reached deep a (.error (.tooManySteps n))
  | tooDeep {n : Nat} (hlimit : limits.depth = some n) (hover : deep n) :
      Ends limits reached deep a (.error (.tooDeep n))

namespace Ends

variable {limits : Limits} {α β : Type} {a : α} {b : β} {reached later : Nat}
  {deep deeper : Nat → Prop}

theorem congr {x : Except LimitError α} (h : Ends limits reached deep a x)
    (hiff : ∀ n, deep n ↔ deeper n) : Ends limits reached deeper a x := by
  obtain rfl : deep = deeper := funext fun n => propext (hiff n)
  exact h

/-- What follows a part that went well. -/
theorem or_right {x : Except LimitError α} (h : Ends limits reached deeper a x)
    (hdepth : ∀ n, limits.depth = some n → ¬ deep n) :
    Ends limits reached (fun n => deep n ∨ deeper n) a x := by
  cases h with
  | done hsteps hdeeper =>
    exact .done hsteps fun n hn h => h.elim (hdepth n hn) (hdeeper n hn)
  | tooManySteps hlimit hover => exact .tooManySteps hlimit hover
  | tooDeep hlimit hover => exact .tooDeep hlimit (.inr hover)

/-- One part after another: the first limit that is broken ends both. -/
theorem bind {x : Except LimitError α} {f : α → Except LimitError β}
    (hx : Ends limits reached deep a x) (hle : reached ≤ later)
    (hf : (∀ n, limits.steps = some n → reached ≤ n) → Ends limits later deeper b (f a)) :
    Ends limits later (fun n => deep n ∨ deeper n) b (x >>= f) := by
  cases hx with
  | done hsteps hdepth => exact (hf hsteps).or_right hdepth
  | tooManySteps hlimit hover => exact .tooManySteps hlimit (Nat.lt_of_lt_of_le hover hle)
  | tooDeep hlimit hover => exact .tooDeep hlimit (.inl hover)

/-- What is made of a result breaks no limit. -/
theorem andThen {x : Except LimitError α} {f : α → Except LimitError β}
    (hx : Ends limits reached deep a x) (hf : f a = .ok b) :
    Ends limits reached deep b (x >>= f) := by
  cases hx with
  | done hsteps hdepth =>
    show Ends limits reached deep b (f a)
    rw [hf]
    exact .done hsteps hdepth
  | tooManySteps hlimit hover => exact .tooManySteps hlimit hover
  | tooDeep hlimit hover => exact .tooDeep hlimit hover

/-- Without limits every walk comes to its end. -/
theorem eq_ok_of_unbounded {x : Except LimitError α} (h : Ends .unbounded reached deep a x) :
    x = .ok a := by
  cases h with
  | done => rfl
  | tooManySteps hlimit => cases hlimit
  | tooDeep hlimit => cases hlimit

end Ends

theorem checkBound_steps (limits : Limits) (n : Nat) :
    Ends limits n (fun _ => False) () (checkBound limits.steps .tooManySteps n) := by
  cases hlimit : limits.steps with
  | none => exact .done (by simp [hlimit]) fun _ _ => id
  | some m =>
    by_cases hover : m < n
    · rw [checkBound, if_pos hover]
      exact .tooManySteps hlimit hover
    · rw [checkBound, if_neg hover]
      refine .done (fun k hk => ?_) fun _ _ => id
      rw [hlimit, Option.some.injEq] at hk
      omega

theorem checkArm_ends {limits : Limits} {count : Nat}
    (hcount : ∀ n, limits.steps = some n → count ≤ n) (depth : Nat) (node : Node) (e : Edge) :
    Ends limits count (fun n => n ≤ depth ∧ node.opensArm e = true) ()
      (checkArm limits depth node e) := by
  unfold checkArm
  by_cases hopens : node.opensArm e = true
  · rw [if_pos hopens]
    cases hlimit : limits.depth with
    | none => exact .done hcount (by simp [hlimit])
    | some m =>
      by_cases hover : m < depth + 1
      · rw [checkBound, if_pos hover]
        exact .tooDeep hlimit ⟨by omega, hopens⟩
      · rw [checkBound, if_neg hover]
        refine .done hcount fun k hk h => ?_
        rw [hlimit, Option.some.injEq] at hk
        omega
  · rw [if_neg hopens]
    exact .done hcount fun _ _ h => hopens h.2

namespace Graph

def Overreaches (g : Graph) (depth : Nat) (visits : List (Node × Nat)) : Prop :=
  ∃ v ∈ visits, depth ≤ v.2 ∧ ∃ e ∈ g.liveEdges v.1, v.1.opensArm e = true

theorem overreaches_cons {g : Graph} {n depth : Nat} {node : Node}
    {visits : List (Node × Nat)} :
    g.Overreaches n ((node, depth) :: visits) ↔
      (n ≤ depth ∧ ∃ e ∈ g.liveEdges node, node.opensArm e = true) ∨ g.Overreaches n visits := by
  simp only [Overreaches, List.mem_cons, exists_eq_or_imp]

theorem overreaches_append {g : Graph} {n : Nat} {visits more : List (Node × Nat)} :
    g.Overreaches n (visits ++ more) ↔ g.Overreaches n visits ∨ g.Overreaches n more := by
  simp only [Overreaches, List.mem_append, or_and_right, exists_or]

section

variable (g : Graph) (limits : Limits) {path : List NodeId} (loops : List NodeId) (depth : Nat)
  (last : Node) {e : Edge} (rest : List Edge) (count : Nat)

theorem exits_cons_seen (hseen : e.target ∈ path) :
    g.exits limits path loops depth last (e :: rest) count =
      (checkArm limits depth last e >>= fun _ =>
        g.exits limits path loops depth last rest count >>= fun others =>
          .ok (.stopped e (stopBefore (loopsBehind loops last e) e.target) others.1,
            others.2)) := by
  rw [Graph.exits]
  simp only [hseen, dite_true]
  rfl

theorem exits_cons_nowhere (hfresh : e.target ∉ path) (hnode : g.node? e.target = none) :
    g.exits limits path loops depth last (e :: rest) count =
      (checkArm limits depth last e >>= fun _ =>
        g.exits limits path loops depth last rest count >>= fun others =>
          .ok (.stopped e .nowhere others.1, others.2)) := by
  rw [Graph.exits]
  simp only [hfresh, dite_false]
  split
  · rfl
  · rename_i node hsome
    rw [hnode] at hsome
    cases hsome

theorem exits_cons_onward (hfresh : e.target ∉ path) {node : Node}
    (hnode : g.node? e.target = some node) :
    g.exits limits path loops depth last (e :: rest) count =
      (checkArm limits depth last e >>= fun _ =>
        checkBound limits.steps .tooManySteps (count + 1) >>= fun _ =>
          g.exits limits (node.id :: path) (loopsBehind loops last e) (depthBehind depth last e)
              node (g.liveEdges node) (count + 1) >>= fun behind =>
            g.exits limits path loops depth last rest behind.2 >>= fun others =>
              .ok (.onward e (.mk node behind.1) others.1, others.2)) := by
  rw [Graph.exits]
  simp only [hfresh, dite_false]
  split
  · rename_i hnone
    rw [hnode] at hnone
    cases hnone
  · rename_i other hother
    obtain rfl : node = other := Option.some.inj (hnode.symm.trans hother)
    rfl

end

/-- The tree behind some edges is the same under all limits under which the walk ends. -/
theorem exits_ends (g : Graph) (path loops : List NodeId) (depth : Nat) (last : Node)
    (edges : List Edge) (count : Nat) :
    ∃ exits : Exits, ∀ limits : Limits, (∀ n, limits.steps = some n → count ≤ n) →
      Ends limits (count + (exits.visits last depth).length)
        (fun n => (n ≤ depth ∧ ∃ e ∈ edges, last.opensArm e = true) ∨
          g.Overreaches n (exits.visits last depth))
        (exits, count + (exits.visits last depth).length)
        (g.exits limits path loops depth last edges count) := by
  -- The tree is chosen before the limits. A walk that has come to `count` has kept the limit on
  -- steps so far, so where nothing is left of the edges it ends well.
  induction path, loops, depth, last, edges, count using Graph.exits.induct g with
  | case1 path loops depth last count =>
    refine ⟨.nil, fun limits hcount => ?_⟩
    rw [Graph.exits]
    refine .done hcount fun n _ h => ?_
    simp [Exits.visits, Overreaches] at h
  | case2 path loops depth last count e rest ihrest ihbehind ihothers =>
    have harm : ∀ n (deeper : Prop), ((n ≤ depth ∧ last.opensArm e = true) ∨
        (n ≤ depth ∧ ∃ e ∈ rest, last.opensArm e = true) ∨ deeper) ↔
          (n ≤ depth ∧ ∃ d ∈ e :: rest, last.opensArm d = true) ∨ deeper := by
      intro n deeper
      rw [← or_assoc, ← and_or_left]
      simp only [List.mem_cons, exists_eq_or_imp]
    by_cases hseen : e.target ∈ path
    · obtain ⟨others, hothers⟩ := ihrest
      refine ⟨.stopped e (stopBefore (loopsBehind loops last e) e.target) others,
        fun limits hcount => ?_⟩
      rw [exits_cons_seen g limits loops depth last rest count hseen]
      simp only [Exits.visits]
      refine ((checkArm_ends hcount depth last e).bind (Nat.le_add_right _ _)
        fun hcount => ?_).congr fun n => harm n _
      exact (hothers limits hcount).andThen rfl
    · cases hnode : g.node? e.target with
      | none =>
        obtain ⟨others, hothers⟩ := ihrest
        refine ⟨.stopped e .nowhere others, fun limits hcount => ?_⟩
        rw [exits_cons_nowhere g limits loops depth last rest count hseen hnode]
        simp only [Exits.visits]
        refine ((checkArm_ends hcount depth last e).bind (Nat.le_add_right _ _)
          fun hcount => ?_).congr fun n => harm n _
        exact (hothers limits hcount).andThen rfl
      | some node =>
        obtain ⟨behind, hbehind⟩ := ihbehind hseen node hnode
        -- The other edges are counted on from the visits behind this one.
        obtain ⟨others, hothers⟩ :=
          ihothers (count + 1 + (behind.visits node (depthBehind depth last e)).length)
        refine ⟨.onward e (.mk node behind) others, fun limits hcount => ?_⟩
        have hlength : count + ((Exits.onward e (.mk node behind) others).visits last
            depth).length = count + 1 + (behind.visits node (depthBehind depth last e)).length +
              (others.visits last depth).length := by
          simp only [Exits.visits, Visit.visits, List.cons_append, List.length_cons,
            List.length_append]
          omega
        have hparts : ∀ n, (n ≤ depth ∧ last.opensArm e = true) ∨ False ∨
            ((n ≤ depthBehind depth last e ∧ ∃ d ∈ g.liveEdges node, node.opensArm d = true) ∨
              g.Overreaches n (behind.visits node (depthBehind depth last e))) ∨
            ((n ≤ depth ∧ ∃ d ∈ rest, last.opensArm d = true) ∨
              g.Overreaches n (others.visits last depth)) ↔
            (n ≤ depth ∧ ∃ d ∈ e :: rest, last.opensArm d = true) ∨
              g.Overreaches n ((Exits.onward e (.mk node behind) others).visits last depth) := by
          intro n
          rw [← harm]
          simp only [Exits.visits, Visit.visits, List.cons_append, overreaches_cons,
            overreaches_append, false_or, or_assoc, or_left_comm]
        rw [exits_cons_onward g limits loops depth last rest count hseen hnode, hlength]
        refine Ends.congr ?_ hparts
        refine (checkArm_ends hcount depth last e).bind (by omega) fun _ => ?_
        refine (checkBound_steps limits (count + 1)).bind (by omega) fun hcount => ?_
        refine (hbehind limits hcount).bind (Nat.le_add_right _ _) fun hcount => ?_
        exact (hothers limits hcount).andThen rfl

/-- All walks from a node are walks along one tree. -/
theorem visit_ends (g : Graph) (start : Node) :
    ∃ visit : Visit, ∀ limits : Limits,
      Ends limits (visit.visits 0).length (fun n => g.Overreaches n (visit.visits 0)) visit
        (g.visit limits start) := by
  obtain ⟨exits, hexits⟩ :=
    exits_ends g [start.id] [] 0 start (g.liveEdges start) 1
  refine ⟨.mk start exits, fun limits => ?_⟩
  have hlength : ((Visit.mk start exits).visits 0).length =
      1 + (exits.visits start 0).length := by
    rw [Visit.visits, List.length_cons, Nat.add_comm]
  have hparts : ∀ n, False ∨ ((n ≤ 0 ∧ ∃ e ∈ g.liveEdges start, start.opensArm e = true) ∨
      g.Overreaches n (exits.visits start 0)) ↔
      g.Overreaches n ((Visit.mk start exits).visits 0) := by
    intro n
    rw [false_or, Visit.visits, overreaches_cons]
  rw [hlength]
  refine Ends.congr ?_ hparts
  refine (checkBound_steps limits 1).bind (Nat.le_add_right _ _) fun hcount => ?_
  exact (hexits limits hcount).andThen rfl

/-- The node of a step. Before the start there is no other; any other node is the first of its
id. -/
def nodeOf? (g : Graph) (s : ScriptStep) : Option Node :=
  if s.dependsOn = [] then (g.ofKind .start).head? else g.node? s.node

/-- The steps behind a path are those of the visits behind it. -/
theorem Unfolds.steps_eq_visits {g : Graph} {path loops : List NodeId} {last : Node}
    {edges : List Edge} {exits : Exits} (h : g.Unfolds path loops last edges exits)
    (own : Node → String) (indent : String) (depth : Nat) :
    ((exits.steps own indent last depth).flatMap Prod.snd).map
        (fun s => (g.nodeOf? s, s.depth)) =
      (exits.visits last depth).map fun v => (some v.1, v.2) := by
  induction h generalizing depth with
  | nil => rfl
  | stopped _ _ ih => exact ih depth
  | nowhere _ _ _ ih => exact ih depth
  | @onward _ _ last e _ node behind _ _ hnode _ _ ihbehind ihrest =>
    have hhead : g.node? node.id = some node := by rw [id_of_node? hnode, hnode]
    simp only [Exits.steps, Visit.steps, Exits.visits, Visit.visits, List.flatMap_cons,
      List.map_append, List.map_cons, List.cons_append, ihbehind, ihrest]
    simp [nodeOf?, hhead]

theorem mem_outgoing_of_mem_liveEdges (g : Graph) {node : Node} {e : Edge}
    (he : e ∈ g.liveEdges node) : e ∈ g.outgoing node.id := by
  unfold liveEdges at he
  split at he
  · obtain ⟨port, -, hfound⟩ := List.mem_filterMap.mp he
    exact List.mem_of_find?_eq_some hfound
  · exact he

theorem mem_edges_of_mem_liveEdges (g : Graph) {node : Node} {e : Edge}
    (he : e ∈ g.liveEdges node) : e ∈ g.edges :=
  List.mem_of_mem_filter (g.mem_outgoing_of_mem_liveEdges he)

/-- The edges that open an arm of a block are those that leave it through a port of an arm. -/
theorem exists_opensArm_iff (g : Graph) (node : Node) :
    (∃ e ∈ g.liveEdges node, node.opensArm e = true) ↔
      ∃ arm ∈ node.kind.arms, g.isWired node.id arm.port = true := by
  have hports : ∀ port, (∃ arm ∈ node.kind.arms, arm.port = port) ↔
      port ∈ node.kind.ports ∧ port.opensArm = true := by
    intro port
    cases node.kind <;> cases port <;> decide
  have hbranch : ∀ port ∈ node.kind.ports, node.kind.isBranching = true := by
    intro port hport
    simpa [Kind.isBranching] using List.ne_nil_of_mem hport
  constructor
  · intro hlive
    obtain ⟨e, he, hopens⟩ := hlive
    obtain ⟨hkind, hport⟩ := Bool.and_eq_true_iff.mp hopens
    rw [liveEdges, if_pos hkind] at he
    obtain ⟨port, hmem, hfound⟩ := List.mem_filterMap.mp he
    have heport : e.port = some port := by simpa using List.find?_some hfound
    rw [heport, Option.any_some] at hport
    obtain ⟨arm, harm, rfl⟩ := (hports port).mpr ⟨hmem, hport⟩
    refine ⟨arm, harm, List.any_eq_true.mpr ⟨e, List.mem_of_find?_eq_some hfound, ?_⟩⟩
    exact decide_eq_true heport
  · intro hwired
    obtain ⟨arm, harm, hwired⟩ := hwired
    obtain ⟨hport, hopens⟩ := (hports arm.port).mp ⟨arm, harm, rfl⟩
    have hkind := hbranch arm.port hport
    obtain ⟨e, hfound⟩ : ∃ e, (g.outgoing node.id).find?
        (fun e => e.port = some arm.port) = some e :=
      Option.isSome_iff_exists.mp (List.find?_isSome.mpr (List.any_eq_true.mp hwired))
    have heport : e.port = some arm.port := by simpa using List.find?_some hfound
    refine ⟨e, ?_, ?_⟩
    · rw [liveEdges, if_pos hkind]
      exact List.mem_filterMap.mpr ⟨arm.port, hport, hfound⟩
    · simp [Node.opensArm, hkind, heport, hopens]

/-- Whether a step of a block at some depth or below has an edge on the port of an arm. -/
def NestsBeyond (g : Graph) (depth : Nat) (script : Script) : Prop :=
  ∃ s ∈ script.steps, depth ≤ s.depth ∧ ∃ node, g.nodeOf? s = some node ∧
    ∃ arm ∈ node.kind.arms, g.isWired node.id arm.port = true

end Graph

namespace Options

/-- What a script has to keep for its options to allow it. -/
structure Allows (o : Options) (g : Graph) (script : Script) : Prop where
  steps : script.steps.length ≤ o.maxSteps
  depth : ¬ g.NestsBeyond o.maxDepth script
  bytes : (script.steps.map fun s => s.text.utf8ByteSize).sum ≤ o.maxBytes

/-- The errors that may stand for a script that is not allowed. Too many bytes are the error of a
script that keeps the other limits. -/
inductive Refuses (o : Options) (g : Graph) (script : Script) : LimitError → Prop
  | tooManySteps (hover : o.maxSteps < script.steps.length) :
      Refuses o g script (.tooManySteps o.maxSteps)
  | tooDeep (hover : g.NestsBeyond o.maxDepth script) :
      Refuses o g script (.tooDeep o.maxDepth)
  | tooManyBytes (hsteps : script.steps.length ≤ o.maxSteps)
      (hdepth : ¬ g.NestsBeyond o.maxDepth script)
      (hover : o.maxBytes < (script.steps.map fun s => s.text.utf8ByteSize).sum) :
      Refuses o g script (.tooManyBytes o.maxBytes)

theorem Refuses.not_allows {o : Options} {g : Graph} {script : Script} {e : LimitError}
    (h : o.Refuses g script e) : ¬ o.Allows g script := by
  intro hallows
  cases h with
  | tooManySteps hover => exact Nat.not_lt.mpr hallows.steps hover
  | tooDeep hover => exact hallows.depth hover
  | tooManyBytes _ _ hover => exact Nat.not_lt.mpr hallows.bytes hover

end Options

namespace Compiler

variable (c : Compiler) {g : Graph} (resolver : Resolver) {start : Node} {visit : Visit}

theorem steps_scriptOf (hstart : g.ofKind .start = [start])
    (hvisit : g.visit .unbounded start = .ok visit) :
    (c.scriptOf resolver visit).steps.map (fun s => (g.nodeOf? s, s.depth)) =
      (visit.visits 0).map fun v => (some v.1, v.2) := by
  obtain ⟨exits, htree, rfl⟩ := Graph.exists_unfolds_of_visit hvisit
  rw [scriptOf, Script.ofWalk, Visit.steps, Visit.visits, List.map_cons, List.map_cons,
    htree.steps_eq_visits]
  simp [Graph.nodeOf?, hstart]

theorem length_scriptOf (hstart : g.ofKind .start = [start])
    (hvisit : g.visit .unbounded start = .ok visit) :
    (c.scriptOf resolver visit).steps.length = (visit.visits 0).length := by
  simpa using congrArg List.length (c.steps_scriptOf resolver hstart hvisit)

theorem nestsBeyond_scriptOf (hstart : g.ofKind .start = [start])
    (hvisit : g.visit .unbounded start = .ok visit) (n : Nat) :
    g.NestsBeyond n (c.scriptOf resolver visit) ↔ g.Overreaches n (visit.visits 0) := by
  have hsteps := c.steps_scriptOf resolver hstart hvisit
  constructor
  · intro hnests
    obtain ⟨s, hs, hdepth, node, hnode, harm⟩ := hnests
    have hmem := List.mem_map_of_mem (f := fun s => (g.nodeOf? s, s.depth)) hs
    rw [hsteps] at hmem
    obtain ⟨v, hv, heq⟩ := List.mem_map.mp hmem
    obtain ⟨hfst, hsnd⟩ := Prod.mk.inj heq
    obtain rfl : v.1 = node := Option.some.inj (hfst.trans hnode)
    exact ⟨v, hv, hsnd ▸ hdepth, (g.exists_opensArm_iff _).mpr harm⟩
  · intro hover
    obtain ⟨v, hv, hdepth, hopens⟩ := hover
    have hmem := List.mem_map_of_mem (f := fun v : Node × Nat => (some v.1, v.2)) hv
    rw [← hsteps] at hmem
    obtain ⟨s, hs, heq⟩ := List.mem_map.mp hmem
    obtain ⟨hfst, hsnd⟩ := Prod.mk.inj heq
    exact ⟨s, hs, hsnd ▸ hdepth, v.1, hfst, (g.exists_opensArm_iff _).mp hopens⟩

/-- Without limits an error-free graph has a script, and under limits it has that one or none. -/
theorem exists_script_of_isErrorFree (hfree : g.IsErrorFree) :
    ∃ script, c.compileWithin .unbounded g resolver = .ok script ∧
      ((c.compile g resolver = .ok script ∧ c.options.Allows g script) ∨
        ∃ e, c.compile g resolver = .error (.limit e) ∧ c.options.Refuses g script e) := by
  obtain ⟨start, hstart⟩ := hfree.exists_start
  obtain ⟨visit, hvisit⟩ := g.visit_ends start
  have hwhole : g.visit .unbounded start = .ok visit := (hvisit .unbounded).eq_ok_of_unbounded
  have hlength := c.length_scriptOf resolver hstart hwhole
  have hnests := c.nestsBeyond_scriptOf resolver hstart hwhole c.options.maxDepth
  refine ⟨c.scriptOf resolver visit, ?_, ?_⟩
  · rw [c.compileWithin_of_isErrorFree resolver hfree hstart,
      c.scriptFrom_of_visit resolver hwhole]
    rfl
  · have hends := hvisit c.options.limits
    generalize hwalk : g.visit c.options.limits start = walked at hends
    cases hends with
    | done hreached hdeep =>
      have hsteps : (c.scriptOf resolver visit).steps.length ≤ c.options.maxSteps := by
        rw [hlength]
        exact hreached _ rfl
      have hdepth : ¬ g.NestsBeyond c.options.maxDepth (c.scriptOf resolver visit) := by
        rw [hnests]
        exact hdeep _ rfl
      rw [c.compile_of_visit resolver hfree hstart hwalk]
      by_cases hbytes : (c.scriptOf resolver visit).byteSize ≤ c.options.maxBytes
      · rw [if_pos hbytes]
        exact .inl ⟨rfl, hsteps, hdepth, hbytes⟩
      · rw [if_neg hbytes]
        exact .inr ⟨_, rfl, .tooManyBytes hsteps hdepth (Nat.lt_of_not_le hbytes)⟩
    | tooManySteps hlimit hover =>
      obtain rfl := Option.some.inj hlimit
      rw [c.compile_of_visit_error resolver hfree hstart hwalk]
      exact .inr ⟨_, rfl, .tooManySteps (hlength ▸ hover)⟩
    | tooDeep hlimit hover =>
      obtain rfl := Option.some.inj hlimit
      rw [c.compile_of_visit_error resolver hfree hstart hwalk]
      exact .inr ⟨_, rfl, .tooDeep (hnests.mpr hover)⟩

/-- A graph is refused with findings if they are its own and hold an error. -/
theorem compile_eq_notCompilable_iff {findings : List Finding} :
    c.compile g resolver = .error (.notCompilable findings) ↔
      hasErrors g.findings = true ∧ findings = g.findings := by
  by_cases herrors : hasErrors g.findings = true
  · have hrefused : c.compile g resolver = .error (.notCompilable g.findings) := by
      rw [compile, compileWithin]
      exact if_pos herrors
    rw [hrefused]
    constructor
    · intro h
      cases h
      exact ⟨herrors, rfl⟩
    · rintro ⟨-, rfl⟩
      rfl
  · obtain ⟨script, -, hcases⟩ :=
      c.exists_script_of_isErrorFree resolver (Bool.eq_false_iff.mpr herrors)
    rcases hcases with ⟨hmade, -⟩ | ⟨e, hlimit, -⟩
    · simp [hmade, herrors]
    · simp [hlimit, herrors]

/-- A graph with errors is refused with all its findings. Any other has a start, no edge that the
walk follows leads nowhere, and without limits it has a script, which is the one that it has under
the limits of the options if it keeps them. Otherwise the error names a limit that it breaks. -/
theorem compile_outcome :
    (∀ findings, c.compile g resolver = .error (.notCompilable findings) ↔
      hasErrors g.findings = true ∧ findings = g.findings) ∧
    (hasErrors g.findings = false →
      (g.ofKind .start).head? ≠ none ∧
      (∀ node, ∀ e ∈ g.liveEdges node, g.node? e.target ≠ none) ∧
      ∃ script, c.compileWithin .unbounded g resolver = .ok script ∧
        (∀ made, c.compile g resolver = .ok made ↔
          made = script ∧ c.options.Allows g script) ∧
        ∀ e, c.compile g resolver = .error e →
          ∃ limit, e = .limit limit ∧ c.options.Refuses g script limit) := by
  refine ⟨fun findings => c.compile_eq_notCompilable_iff resolver, fun hfree => ?_⟩
  have hfree : g.IsErrorFree := hfree
  obtain ⟨start, hstart⟩ := hfree.exists_start
  obtain ⟨script, hscript, hcases⟩ := c.exists_script_of_isErrorFree resolver hfree
  refine ⟨by simp [hstart], fun node e he => ?_, script, hscript, ?_, ?_⟩
  · obtain ⟨target, htarget⟩ := hfree.exists_target (g.mem_edges_of_mem_liveEdges he)
    simp [htarget]
  · intro made
    rcases hcases with ⟨hmade, hallows⟩ | ⟨e, hlimit, hrefuses⟩
    · rw [hmade, Except.ok.injEq, eq_comm]
      exact ⟨fun h => ⟨h, hallows⟩, And.left⟩
    · rw [hlimit]
      constructor
      · intro h
        cases h
      · intro h
        exact absurd h.2 hrefuses.not_allows
  · intro e he
    rcases hcases with ⟨hmade, -⟩ | ⟨limit, hlimit, hrefuses⟩
    · rw [hmade] at he
      cases he
    · exact ⟨limit, Except.error.inj (he.symm.trans hlimit), hrefuses⟩

/-- The patrol takes more than three steps, and a budget of no bytes does not cover its script. -/
theorem compile_outcome_patrol :
    let c : Compiler := ⟨.standard, { maxSteps := 3 }⟩
    let tight : Compiler := ⟨.standard, { maxBytes := 0 }⟩
    let resolver := ({} : Inventory).resolver
    hasErrors Graph.patrol.findings = false ∧
      (∃ script, c.compileWithin .unbounded .patrol resolver = .ok script ∧
        c.compile .patrol resolver = .error (.limit (.tooManySteps 3)) ∧
        3 < script.steps.length) ∧
      ∃ script, tight.compileWithin .unbounded .patrol resolver = .ok script ∧
        tight.compile .patrol resolver = .error (.limit (.tooManyBytes 0)) ∧
        0 < (script.steps.map fun s => s.text.utf8ByteSize).sum := by
  intro c tight resolver
  have hfree : Graph.patrol.IsErrorFree := Graph.patrol_isErrorFree
  obtain ⟨-, -, script, hscript, -, hrefuses⟩ := (c.compile_outcome resolver).2 hfree
  obtain ⟨-, -, whole, hwhole, -, hunpaid⟩ := (tight.compile_outcome resolver).2 hfree
  have hwalk : Graph.patrol.visit c.options.limits (.ofStep "begin" .start .origin) =
      .error (.tooManySteps 3) := by cbv
  have hmade : c.compile .patrol resolver = .error (.limit (.tooManySteps 3)) :=
    c.compile_of_visit_error resolver hfree rfl hwalk
  have hspent : tight.compile .patrol resolver = .error (.limit (.tooManyBytes 0)) := by
    obtain ⟨visit, hvisit⟩ := Graph.exists_visit_patrol
    obtain ⟨exits, -, rfl⟩ := Graph.exists_unfolds_of_visit (hvisit 0)
    have hbegin : 0 < ((Node.ofStep "begin" .start .origin).ownText .standard
        ({} : Inventory).resolver false).utf8ByteSize := by decide +kernel
    have hsize : 0 < (tight.scriptOf resolver
        (.mk (.ofStep "begin" .start .origin) exits)).byteSize := by
      rw [Script.byteSize, scriptOf, Script.ofWalk, Visit.steps, textBytes_cons]
      exact Nat.add_pos_left hbegin _
    rw [tight.compile_of_visit resolver hfree rfl (hvisit 0), if_neg (Nat.not_le.mpr hsize)]
  refine ⟨hfree, ⟨script, hscript, hmade, ?_⟩, whole, hwhole, hspent, ?_⟩
  · obtain ⟨limit, hlimit, hover⟩ := hrefuses _ hmade
    cases hlimit
    cases hover with
    | tooManySteps hover => exact hover
  · obtain ⟨limit, hlimit, hover⟩ := hunpaid _ hspent
    cases hlimit
    cases hover with
    | tooManyBytes _ _ hover => exact hover

end Compiler

end Runbook
