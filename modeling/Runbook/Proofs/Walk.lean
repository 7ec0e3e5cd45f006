import Mathlib.Data.List.DropRight
import Mathlib.Data.List.Perm.Subperm
import Mathlib.Logic.Function.Iterate
import Mathlib.Tactic.Common
import Runbook.Proofs.BlockPrinter

/-!
The walk along the paths of a graph, one small step at a time. It keeps one path and one row of
loops, which grow and shrink as it goes, and calls itself for each arm of a block. In a call, what
goes on at its level waits in a row together with the length of the path to go back to. An error
ends all calls, from the innermost outwards, and each of them cuts the path back to where it began.
What the stacks of a walk have in common is kept from step to step; that a path never comes to a
node twice and that steps are as deep as there are blocks before them is read off it.
-/
namespace Runbook

structure Walk.Waiting where
  edge : Edge
  mark : Nat
deriving DecidableEq, Repr

/-- A call of the walk: how deep its steps are, how long the path was when it began, and what waits
in it. -/
structure Walk.Level where
  depth : Nat
  base : Nat
  waiting : List Walk.Waiting
deriving DecidableEq, Repr

/-- A call that has been left at a block for one of its arms, with the ports of the later arms. -/
structure Walk.Caller where
  block : Node
  ports : List Port
  level : Walk.Level
deriving DecidableEq, Repr

inductive Walk.Phase where
  | enter (node : Node)
  | arms (node : Node) (ports : List Port)
  | onward
  | back (result : Except LimitError Unit)
  | ended (result : Except LimitError Unit)

/-- What a call does once the call for an arm is over. An error is handed on. -/
def Walk.Phase.afterArm (block : Node) (ports : List Port) : Except LimitError Unit → Walk.Phase
  | .ok () => .arms block ports
  | .error e => .back (.error e)

inductive Walk.Sight where
  | arrived (node : Node) (before : List Node) (depth : Nat)
  | stopped (edge : Edge) (stop : Stop)
deriving DecidableEq, Repr

/-- A moment of the walk. The path, the loops around its end and the calls that wait for the present
one have the latest first, and so do the sights. -/
structure Walk where
  phase : Walk.Phase
  path : List Node
  loops : List NodeId
  level : Walk.Level
  callers : List Walk.Caller
  count : Nat
  sights : List Walk.Sight

namespace Graph

def portEdge? (g : Graph) (id : NodeId) (port : Port) : Option Edge :=
  (g.outgoing id).find? fun e => e.port = some port

def continuations (g : Graph) (node : Node) : List Edge :=
  match node.kind with
  | .condition | .check => []
  | .loop => (g.portEdge? node.id .exit).toList
  | _ => g.outgoing node.id

def follow (g : Graph) (path : List Node) (loops : List NodeId) (e : Edge) : Except Stop Node :=
  if e.target ∈ path.map Node.id then .error (stopBefore loops e.target)
  else
    match g.node? e.target with
    | none => .error .nowhere
    | some node => .ok node

end Graph

def loopsUnder (loops : List NodeId) (node : Node) : List NodeId :=
  if node.kind = .loop then node.id :: loops else loops

namespace Walk

def start (node : Node) : Walk := ⟨.enter node, [], [], ⟨0, 0, []⟩, [], 0, []⟩

section

variable (g : Graph) (limits : Limits) (w : Walk)

def arrive (node : Node) : Walk :=
  match checkBound limits.steps .tooManySteps (w.count + 1) with
  | .error e => { w with phase := .back (.error e), count := w.count + 1 }
  | .ok () =>
    { w with
      phase := .arms node (node.kind.arms.map Arm.port)
      path := node :: w.path
      count := w.count + 1
      sights := .arrived node w.path w.level.depth :: w.sights }

/-- Calls the walk for the next arm of a node. After the last one, the edges along which paths go
on from the node wait in front of the others. -/
def openArm (node : Node) : List Port → Walk
  | [] =>
    { w with
      phase := .onward
      level.waiting :=
        (g.continuations node).map (fun e => ⟨e, w.path.length⟩) ++ w.level.waiting }
  | port :: ports =>
    match g.portEdge? node.id port with
    | none => { w with phase := .arms node ports }
    | some e =>
      match checkBound limits.depth .tooDeep (w.level.depth + 1) with
      | .error e => { w with phase := .back (.error e) }
      | .ok () =>
        match g.follow w.path (loopsUnder w.loops node) e with
        | .error stop =>
          { w with phase := .arms node ports, sights := .stopped e stop :: w.sights }
        | .ok target =>
          { w with
            phase := .enter target
            loops := loopsUnder w.loops node
            level := ⟨w.level.depth + 1, w.path.length, []⟩
            callers := ⟨node, ports, w.level⟩ :: w.callers }

def goOn : Walk :=
  match w.level.waiting with
  | [] => { w with phase := .back (.ok ()) }
  | ⟨e, mark⟩ :: waiting =>
    match g.follow (w.path.rtake mark) w.loops e with
    | .error stop =>
      { w with
        path := w.path.rtake mark
        level.waiting := waiting
        sights := .stopped e stop :: w.sights }
    | .ok node =>
      { w with
        phase := .enter node
        path := w.path.rtake mark
        level.waiting := waiting }

/-- Ends a call, with what is left of the path from before it. -/
def comeBack (result : Except LimitError Unit) : Walk :=
  match w.callers with
  | [] => { w with phase := .ended result, path := w.path.rtake w.level.base }
  | ⟨block, ports, level⟩ :: callers =>
    { w with
      phase := .afterArm block ports result
      path := w.path.rtake w.level.base
      loops := if block.kind = .loop then w.loops.tail else w.loops
      level := level
      callers := callers }

def next : Walk :=
  match w.phase with
  | .enter node => w.arrive limits node
  | .arms node ports => w.openArm g limits node ports
  | .onward => w.goOn g
  | .back result => w.comeBack result
  | .ended _ => w

end

def after (g : Graph) (limits : Limits) (node : Node) (steps : Nat) : Walk :=
  Nat.iterate (next g limits) steps (start node)

theorem after_succ (g : Graph) (limits : Limits) (node : Node) (steps : Nat) :
    after g limits node (steps + 1) = (after g limits node steps).next g limits :=
  Function.iterate_succ_apply' _ _ _

theorem rtake_of_suffix {α : Type} {p path : List α} (h : p <:+ path) :
    path.rtake p.length = p := (List.suffix_iff_eq_drop.mp h).symm

theorem suffix_rtake {α : Type} {p path : List α} {n : Nat} (h : p <:+ path) (hn : p.length ≤ n) :
    p <:+ path.rtake n := by
  refine List.suffix_of_suffix_length_le h (List.drop_suffix _ _) ?_
  have := h.length_le
  rw [List.rtake, List.length_drop]
  omega

theorem rtake_cons_suffix {α : Type} {a : α} {before : List α} {n : Nat} (hn : n ≤ before.length) :
    (a :: before).rtake n <:+ before := by
  rw [List.rtake, List.length_cons, Nat.succ_sub hn, List.drop_succ_cons]
  exact List.drop_suffix _ _

/-- The calls on the stack are nested: each begins at a block that ends the path at that moment, it
is one deeper than the call that waits for it, and nothing in it leads back beyond its beginning.
The trail holds the paths at which the calls began, innermost first. -/
inductive Nested : List Node → Level → List Caller → List (List Node) → Prop
  | run {path : List Node} {level : Level} (hdepth : level.depth = 0) (hbase : level.base = 0) :
      Nested path level [] []
  | call {path before : List Node} {level outer : Level} {block : Node} {ports : List Port}
      {callers : List Caller} {trail : List (List Node)} (hblock : block.kind.isBranching = true)
      (hdepth : level.depth = outer.depth + 1) (hbase : level.base = (block :: before).length)
      (hpath : block :: before <:+ path) (hmarks : ∀ x ∈ level.waiting, level.base ≤ x.mark)
      (hroom : outer.base ≤ before.length)
      (houter : Nested (block :: before) outer callers trail) :
      Nested path level (⟨block, ports, outer⟩ :: callers) ((block :: before) :: trail)

def blockCount (path : List Node) : Nat := path.countP fun node => node.kind.isBranching

theorem blockCount_cons {block : Node} (h : block.kind.isBranching = true) (before : List Node) :
    blockCount (block :: before) = blockCount before + 1 := by
  simp [blockCount, h]

theorem blockCount_le_of_suffix {path longer : List Node} (h : path <:+ longer) :
    blockCount path ≤ blockCount longer := h.sublist.countP_le

namespace Nested

variable {path : List Node} {level : Level} {callers : List Caller} {trail : List (List Node)}

theorem base_le (h : Nested path level callers trail) : level.base ≤ path.length := by
  cases h with
  | run _ hbase => omega
  | call _ _ hbase hpath _ _ _ =>
    rw [hbase]
    exact hpath.length_le

theorem base_le_mark (h : Nested path level callers trail) {x : Waiting}
    (hx : x ∈ level.waiting) : level.base ≤ x.mark := by
  cases h with
  | run _ hbase => omega
  | call _ _ _ _ hmarks _ _ => exact hmarks x hx

theorem push (h : Nested path level callers trail) (node : Node) :
    Nested (node :: path) level callers trail := by
  cases h with
  | run hdepth hbase => exact .run hdepth hbase
  | call hblock hdepth hbase hpath hmarks hroom houter =>
    exact .call hblock hdepth hbase (hpath.trans (List.suffix_cons _ _)) hmarks hroom houter

theorem rtake (h : Nested path level callers trail) {n : Nat} (hn : level.base ≤ n) :
    Nested (path.rtake n) level callers trail := by
  cases h with
  | run hdepth hbase => exact .run hdepth hbase
  | call hblock hdepth hbase hpath hmarks hroom houter =>
    exact .call hblock hdepth hbase (suffix_rtake hpath (hbase ▸ hn)) hmarks hroom houter

theorem wait (h : Nested path level callers trail) {waiting : List Waiting}
    (hmarks : ∀ x ∈ waiting, level.base ≤ x.mark) :
    Nested path { level with waiting := waiting } callers trail := by
  cases h with
  | run hdepth hbase => exact .run hdepth hbase
  | call hblock hdepth hbase hpath _ hroom houter =>
    exact .call hblock hdepth hbase hpath hmarks hroom houter

/-- A call that ends has left the path at which it began in place. -/
theorem back {block : Node} {ports : List Port} {outer : Level}
    (h : Nested path level (⟨block, ports, outer⟩ :: callers) trail) :
    ∃ before rest, trail = (block :: before) :: rest ∧ block.kind.isBranching = true ∧
      path.rtake level.base = block :: before ∧ outer.base ≤ before.length ∧
      Nested (block :: before) outer callers rest := by
  cases h with
  | call hblock _ hbase hpath _ hroom houter =>
    refine ⟨_, _, rfl, hblock, ?_, hroom, houter⟩
    rw [hbase]
    exact rtake_of_suffix hpath

theorem length_trail (h : Nested path level callers trail) : trail.length = callers.length := by
  induction h with
  | run _ _ => rfl
  | call _ _ _ _ _ _ _ ih => rw [List.length_cons, List.length_cons, ih]

theorem length_callers (h : Nested path level callers trail) : callers.length = level.depth := by
  induction h with
  | run hdepth _ => exact hdepth.symm
  | call _ hdepth _ _ _ _ _ ih => rw [List.length_cons, ih, hdepth]

theorem depth_le_rtake (h : Nested path level callers trail) :
    level.depth ≤ blockCount (path.rtake level.base) := by
  induction h with
  | run hdepth _ => omega
  | @call path before level outer block _ _ _ hblock hdepth hbase hpath _ hroom _ ih =>
    have hbefore : outer.depth ≤ blockCount before :=
      ih.trans (blockCount_le_of_suffix (rtake_cons_suffix hroom))
    calc level.depth = outer.depth + 1 := hdepth
      _ ≤ blockCount before + 1 := Nat.succ_le_succ hbefore
      _ = blockCount (block :: before) := (blockCount_cons hblock before).symm
      _ = blockCount (path.rtake level.base) := by rw [hbase, rtake_of_suffix hpath]

/-- Every call on the stack began at a block of its own on the path. -/
theorem depth_le (h : Nested path level callers trail) : level.depth ≤ blockCount path :=
  h.depth_le_rtake.trans (blockCount_le_of_suffix (List.drop_suffix _ _))

/-- A node that the path came to in the present call is no block that a call on the stack began
at. -/
theorem depth_le_before {node : Node} {before : List Node}
    (h : Nested (node :: before) level callers trail) (hroom : level.base ≤ before.length) :
    level.depth ≤ blockCount before :=
  h.depth_le_rtake.trans (blockCount_le_of_suffix (rtake_cons_suffix hroom))

end Nested

def loopsOf (callers : List Caller) : List NodeId :=
  (callers.filter fun c => c.block.kind = .loop).map fun c => c.block.id

/-- What is known of the path by what is done next: a node that is about to be put on it is not on
it yet, and a node whose arms are walked is the last on it and came to it in the present call. -/
def Phase.Fits (g : Graph) (path : List Node) (level : Level) : Phase → Prop
  | enter node => node ∈ g.nodes ∧ node.id ∉ path.map Node.id
  | arms node ports => ∃ before, path = node :: before ∧ level.base ≤ before.length ∧
      (ports ≠ [] → node.kind.isBranching = true)
  | _ => True

structure IsSound (g : Graph) (w : Walk) (trail : List (List Node)) : Prop where
  mem_nodes : ∀ node ∈ w.path, node ∈ g.nodes
  ids_nodup : (w.path.map Node.id).Nodup
  fits : w.phase.Fits g w.path w.level
  nested : Nested w.path w.level w.callers trail
  loops_eq : w.loops = loopsOf w.callers
  arrived : ∀ node before depth, .arrived node before depth ∈ w.sights → depth ≤ blockCount before

/-- What a step does to the calls: it stays in the present one, begins another or ends the present
one. The path and what waits are then those that the other call was left with. -/
inductive Turns (w w' : Walk) (trail : List (List Node)) : List (List Node) → Prop
  | stays (hcallers : w'.callers = w.callers) : Turns w w' trail trail
  | calls {c : Caller} (hcallers : w'.callers = c :: w.callers) (hlevel : c.level = w.level)
      (hpath : w'.path = w.path) : Turns w w' trail (w.path :: trail)
  | returns {c : Caller} {path : List Node} {rest : List (List Node)}
      (hcallers : w.callers = c :: w'.callers) (htrail : trail = path :: rest)
      (hpath : w'.path = path) (hlevel : w'.level = c.level) : Turns w w' trail rest

theorem mem_nodes_of_follow {g : Graph} {path : List Node} {loops : List NodeId} {e : Edge}
    {node : Node} (h : g.follow path loops e = .ok node) :
    node ∈ g.nodes ∧ node.id ∉ path.map Node.id := by
  unfold Graph.follow at h
  split at h
  · cases h
  · rename_i hfresh
    split at h
    · cases h
    · rename_i found hfound
      obtain rfl := Except.ok.inj h
      exact ⟨Graph.mem_nodes_of_node? hfound, Graph.id_of_node? hfound ▸ hfresh⟩

namespace IsSound

variable {g : Graph} {limits : Limits} {w : Walk} {trail : List (List Node)}

theorem start {node : Node} (hnode : node ∈ g.nodes) : (start node).IsSound g [] where
  mem_nodes := by simp [Walk.start]
  ids_nodup := List.nodup_nil
  fits := ⟨hnode, List.not_mem_nil⟩
  nested := .run rfl rfl
  loops_eq := rfl
  arrived := by simp [Walk.start]

theorem mem_rtake (h : w.IsSound g trail) (n : Nat) : ∀ node ∈ w.path.rtake n, node ∈ g.nodes :=
  fun node hnode => h.mem_nodes node ((List.drop_suffix _ _).subset hnode)

theorem nodup_rtake (h : w.IsSound g trail) (n : Nat) : ((w.path.rtake n).map Node.id).Nodup :=
  h.ids_nodup.sublist ((List.drop_suffix _ _).sublist.map _)

/-- A call may break off at any time. -/
theorem breakOff (h : w.IsSound g trail) (result : Except LimitError Unit) (count : Nat) :
    ({ w with phase := .back result, count := count } : Walk).IsSound g trail :=
  ⟨h.mem_nodes, h.ids_nodup, trivial, h.nested, h.loops_eq, h.arrived⟩

theorem arrive (h : w.IsSound g trail) {node : Node} (hphase : w.phase = .enter node) :
    (w.arrive limits node).IsSound g trail ∧ (w.arrive limits node).callers = w.callers := by
  have hfits := h.fits
  rw [hphase] at hfits
  obtain ⟨hnode, hfresh⟩ := hfits
  unfold Walk.arrive
  split
  · exact ⟨h.breakOff _ _, rfl⟩
  · refine ⟨⟨List.forall_mem_cons.mpr ⟨hnode, h.mem_nodes⟩, ?_, ?_, h.nested.push node, h.loops_eq,
      ?_⟩, rfl⟩
    · exact List.nodup_cons.mpr ⟨hfresh, h.ids_nodup⟩
    · refine ⟨w.path, rfl, h.nested.base_le, fun hports => ?_⟩
      obtain ⟨port, hport⟩ := List.exists_mem_of_ne_nil _ hports
      obtain ⟨arm, harm, -⟩ := List.mem_map.mp hport
      exact (node.kind.arms_open arm harm).1
    · intro other before depth hmem
      rcases List.mem_cons.mp hmem with hsight | hmem
      · cases hsight
        exact h.nested.depth_le
      · exact h.arrived other before depth hmem

theorem skip (h : w.IsSound g trail) {sights : List Sight} {phase : Phase}
    (hphase : phase.Fits g w.path w.level)
    (hsights : ∀ node before depth, .arrived node before depth ∈ sights →
      .arrived node before depth ∈ w.sights) :
    ({ w with phase := phase, sights := sights } : Walk).IsSound g trail :=
  ⟨h.mem_nodes, h.ids_nodup, hphase, h.nested, h.loops_eq,
    fun node before depth hmem => h.arrived node before depth (hsights node before depth hmem)⟩

theorem openArm (h : w.IsSound g trail) {node : Node} {ports : List Port}
    (hphase : w.phase = .arms node ports) :
    ∃ later, (w.openArm g limits node ports).IsSound g later ∧
      Turns w (w.openArm g limits node ports) trail later := by
  have hfits := h.fits
  rw [hphase] at hfits
  obtain ⟨before, hpath, hroom, hblock⟩ := hfits
  unfold Walk.openArm
  split
  · refine ⟨trail, ⟨h.mem_nodes, h.ids_nodup, trivial, h.nested.wait fun x hx => ?_, h.loops_eq,
      h.arrived⟩, .stays rfl⟩
    rcases List.mem_append.mp hx with hx | hx
    · obtain ⟨e, -, rfl⟩ := List.mem_map.mp hx
      exact h.nested.base_le
    · exact h.nested.base_le_mark hx
  · rename_i port ports
    have hblock : node.kind.isBranching = true := hblock (List.cons_ne_nil _ _)
    have hlater : (Phase.arms node ports).Fits g w.path w.level :=
      ⟨before, hpath, hroom, fun _ => hblock⟩
    split
    · exact ⟨trail, h.skip hlater fun _ _ _ => id, .stays rfl⟩
    · split
      · exact ⟨trail, h.breakOff _ _, .stays rfl⟩
      · split
        · refine ⟨trail, h.skip hlater fun _ _ _ hmem => ?_, .stays rfl⟩
          exact (List.mem_cons.mp hmem).resolve_left (by simp)
        · rename_i target hfollow
          refine ⟨w.path :: trail, ⟨h.mem_nodes, h.ids_nodup, mem_nodes_of_follow hfollow, ?_, ?_,
            h.arrived⟩, .calls rfl rfl rfl⟩
          · -- Nothing waits yet in the call, and its block came to the path in the one around it.
            rw [hpath]
            exact .call hblock rfl rfl (List.suffix_refl _) (by simp) hroom (hpath ▸ h.nested)
          · simp only [loopsOf, loopsUnder, List.filter_cons, h.loops_eq]
            by_cases hkind : node.kind = .loop
            · simp [hkind]
            · simp [hkind]

theorem goOn (h : w.IsSound g trail) (hphase : w.phase = .onward) :
    (w.goOn g).IsSound g trail ∧ (w.goOn g).callers = w.callers := by
  unfold Walk.goOn
  split
  · exact ⟨h.breakOff _ _, rfl⟩
  · rename_i e mark waiting hwaiting
    have hmark : w.level.base ≤ mark :=
      h.nested.base_le_mark (x := ⟨e, mark⟩) (hwaiting ▸ List.mem_cons_self)
    have hnested : Nested (w.path.rtake mark) { w.level with waiting := waiting } w.callers trail :=
      (h.nested.rtake hmark).wait fun x hx =>
        h.nested.base_le_mark (hwaiting ▸ List.mem_cons_of_mem _ hx)
    split
    · refine ⟨⟨h.mem_rtake mark, h.nodup_rtake mark, ?_, hnested, h.loops_eq,
        fun node before depth hmem => ?_⟩, rfl⟩
      · simp only [hphase, Phase.Fits]
      · exact h.arrived node before depth ((List.mem_cons.mp hmem).resolve_left (by simp))
    · rename_i node hfollow
      exact ⟨⟨h.mem_rtake mark, h.nodup_rtake mark, mem_nodes_of_follow hfollow, hnested,
        h.loops_eq, h.arrived⟩, rfl⟩

theorem comeBack (h : w.IsSound g trail) (result : Except LimitError Unit) :
    ∃ later, (w.comeBack result).IsSound g later ∧ Turns w (w.comeBack result) trail later := by
  have hnested := h.nested
  have hloops := h.loops_eq
  unfold Walk.comeBack
  split
  · rename_i hcallers
    exact ⟨trail, ⟨h.mem_rtake _, h.nodup_rtake _, trivial, h.nested.rtake (Nat.le_refl _),
      h.loops_eq, h.arrived⟩, .stays rfl⟩
  · rename_i block ports level callers hcallers
    rw [hcallers] at hnested hloops
    obtain ⟨before, rest, htrail, hblock, hpath, hroom, houter⟩ := hnested.back
    refine ⟨rest, ⟨h.mem_rtake _, h.nodup_rtake _, ?_, hpath ▸ houter, ?_, h.arrived⟩,
      .returns hcallers htrail hpath rfl⟩
    · cases result with
      | ok _ => exact ⟨before, hpath, hroom, fun _ => hblock⟩
      | error e => trivial
    · simp only [loopsOf, List.filter_cons] at hloops ⊢
      by_cases hkind : block.kind = .loop
      · simp [hloops, hkind]
      · simp [hloops, hkind]

/-- A step keeps what holds of a walk. -/
theorem next (h : w.IsSound g trail) (limits : Limits) :
    ∃ later, (w.next g limits).IsSound g later ∧ Turns w (w.next g limits) trail later := by
  unfold Walk.next
  split
  · rename_i node hphase
    exact ⟨trail, (h.arrive hphase).1, .stays (h.arrive hphase).2⟩
  · rename_i node ports hphase
    exact h.openArm hphase
  · rename_i hphase
    exact ⟨trail, (h.goOn hphase).1, .stays (h.goOn hphase).2⟩
  · exact h.comeBack _
  · exact ⟨trail, h, .stays rfl⟩

/-- Every moment of a walk is sound. -/
theorem after {node : Node} (hnode : node ∈ g.nodes) (limits : Limits) (steps : Nat) :
    ∃ trail, (after g limits node steps).IsSound g trail := by
  induction steps with
  | zero => exact ⟨[], start hnode⟩
  | succ n ih =>
    obtain ⟨trail, h⟩ := ih
    obtain ⟨later, hnext, -⟩ := h.next limits
    rw [after_succ]
    exact ⟨later, hnext⟩

/-- No more nodes are on the path than the graph has, and no more blocks than it has blocks. -/
theorem subperm (h : w.IsSound g trail) : w.path.Subperm g.nodes :=
  (List.Nodup.of_map _ h.ids_nodup).subperm h.mem_nodes

theorem blockCount_le (h : w.IsSound g trail) : blockCount w.path ≤ blockCount g.nodes :=
  h.subperm.countP_le _

/-- There is room for an arm wherever there is room for an arm of each block of the graph. -/
theorem room_of_arms (h : w.IsSound g trail) {node : Node} {port : Port} {ports : List Port}
    (hphase : w.phase = .arms node (port :: ports))
    (hlimit : ∀ n, limits.depth = some n → blockCount g.nodes ≤ n) :
    checkBound limits.depth .tooDeep (w.level.depth + 1) = .ok () := by
  have hfits := h.fits
  rw [hphase] at hfits
  obtain ⟨before, hpath, hroom, hblock⟩ := hfits
  have hnested := h.nested
  have hblocks := h.blockCount_le
  rw [hpath] at hnested hblocks
  rw [blockCount_cons (hblock (List.cons_ne_nil _ _))] at hblocks
  have hdepth := hnested.depth_le_before hroom
  cases hbound : limits.depth with
  | none => rfl
  | some n =>
    have := hlimit n hbound
    exact if_neg (by omega)

end IsSound

def Phase.IsTooDeep : Phase → Prop
  | back result => ∃ limit, result = .error (.tooDeep limit)
  | ended result => ∃ limit, result = .error (.tooDeep limit)
  | _ => False

theorem eq_of_checkBound_error {bound : Option Nat} {error : Nat → LimitError} {n : Nat}
    {e : LimitError} (h : checkBound bound error n = .error e) : ∃ limit, e = error limit := by
  unfold checkBound at h
  split at h
  · cases h
  · split at h
    · exact ⟨_, (Except.error.inj h).symm⟩
    · cases h

/-- A walk never breaks off as too deep if it may be as deep as the graph has blocks. -/
theorem not_isTooDeep_next {g : Graph} {limits : Limits} {w : Walk} {trail : List (List Node)}
    (h : w.IsSound g trail) (hlimit : ∀ n, limits.depth = some n → blockCount g.nodes ≤ n)
    (hphase : ¬ w.phase.IsTooDeep) : ¬ (w.next g limits).phase.IsTooDeep := by
  unfold next
  split
  · unfold arrive
    split
    · rename_i e herror
      obtain ⟨n, rfl⟩ := eq_of_checkBound_error herror
      simp [Phase.IsTooDeep]
    · exact id
  · rename_i node ports harms
    cases ports with
    | nil => exact id
    | cons port ports =>
      simp only [openArm, h.room_of_arms harms hlimit]
      split
      · exact id
      · split <;> exact id
  · unfold goOn
    split
    · simp [Phase.IsTooDeep]
    · split
      · exact hphase
      · exact id
  · rename_i result hback
    rw [hback] at hphase
    unfold comeBack
    split
    · exact hphase
    · cases result with
      | ok _ => exact id
      | error e => exact hphase
  · exact hphase

theorem not_isTooDeep_after {g : Graph} {limits : Limits} {node : Node} (hnode : node ∈ g.nodes)
    (hlimit : ∀ n, limits.depth = some n → blockCount g.nodes ≤ n) (steps : Nat) :
    ¬ (after g limits node steps).phase.IsTooDeep := by
  induction steps with
  | zero => exact id
  | succ n ih =>
    obtain ⟨trail, h⟩ := IsSound.after hnode limits n
    rw [after_succ]
    exact not_isTooDeep_next h hlimit ih

structure KeepsBounds (g : Graph) (w : Walk) : Prop where
  ids_nodup : (w.path.map Node.id).Nodup
  mem_nodes : ∀ node ∈ w.path, node ∈ g.nodes
  length_le : w.path.length ≤ g.nodes.length
  length_callers : w.callers.length = w.level.depth
  depth_le : w.level.depth ≤ blockCount w.path
  arrived : ∀ node before depth, .arrived node before depth ∈ w.sights → depth ≤ blockCount before

theorem IsSound.keepsBounds {g : Graph} {w : Walk} {trail : List (List Node)}
    (h : w.IsSound g trail) : w.KeepsBounds g where
  ids_nodup := h.ids_nodup
  mem_nodes := h.mem_nodes
  length_le := h.subperm.length_le
  length_callers := h.nested.length_callers
  depth_le := h.nested.depth_le
  arrived := h.arrived

end Walk

end Runbook
