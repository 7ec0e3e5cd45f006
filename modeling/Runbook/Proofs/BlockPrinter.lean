import Mathlib.Tactic.Common
import Runbook.Proofs.OwnText
import Runbook.Proofs.PathTree

/-!
A printer that goes through a path tree once and knows the depth of every line that it writes. The
text of a step is made from the inside out: it takes the texts of the steps nested under it apart
and puts their lines one level deeper, again at each level. As all lines are plain, both ways lead
to the same script.
-/
namespace Runbook

def spaces (n : Nat) : String := String.ofList (List.replicate n ' ')

@[simp] theorem toList_spaces (n : Nat) : (spaces n).toList = List.replicate n ' ' :=
  String.toList_ofList

theorem spaces_append_spaces (m n : Nat) : spaces m ++ spaces n = spaces (m + n) := by
  rw [spaces, spaces, ← String.ofList_append, List.replicate_append_replicate, spaces]

def margin (width depth : Nat) (line : String) : String := spaces ((depth + 1) * width) ++ line

def Graph.failureLine (g : Graph) (id : NodeId) : String :=
  if g.isWired id .failure then "pass"
  else "raise StepFailed(" ++ (Expression.text id).render ++ ")"

section

variable (g : Graph) (own : Node → List String) (width : Nat)

mutual

def Visit.print (depth : Nat) : Visit → List String
  | .mk node exits =>
    (own node).map (margin width depth) ++
    (match node.kind with
      | .condition =>
        exits.printArm depth .whenTrue "pass" ++ [margin width depth "else:"] ++
          exits.printArm depth .whenFalse "pass"
      | .loop => exits.printArm depth .body "pass"
      | .check =>
        exits.printArm depth .success "pass" ++ [margin width depth "else:"] ++
          exits.printArm depth .failure (g.failureLine node.id)
      | _ => []) ++
    exits.printOn depth node

/-- The lines behind the first edge on a port, or a line in their place if there are none. -/
def Exits.printArm (depth : Nat) (port : Port) (filler : String) : Exits → List String
  | .nil => [margin width (depth + 1) filler]
  | .onward e visit rest =>
    if e.port = some port then visit.print (depth + 1) else rest.printArm depth port filler
  | .stopped e _ rest =>
    if e.port = some port then [margin width (depth + 1) filler]
    else rest.printArm depth port filler

def Exits.printOn (depth : Nat) (last : Node) : Exits → List String
  | .nil => []
  | .onward e visit rest =>
    (if last.opensArm e then [] else visit.print depth) ++ rest.printOn depth last
  | .stopped _ _ rest => rest.printOn depth last

end

end

theorem margin_indent (width depth : Nat) (line : String) :
    margin width depth (spaces width ++ line) = margin width (depth + 1) line := by
  have hcount : (depth + 1) * width + width = (depth + 1 + 1) * width := by
    rw [Nat.add_mul (depth + 1), Nat.one_mul]
  rw [margin, margin, ← String.append_assoc, spaces_append_spaces, hcount]

def levelLines (depth : Nat) (steps : List ScriptStep) : List String :=
  (steps.filter fun s => s.depth = depth).flatMap fun s => Text.lines s.text

/-- Steps from a depth on, whose lines at that depth are the printed ones without their margin. -/
structure Prints (width depth : Nat) (steps : List ScriptStep) (printed : List String) : Prop where
  deep : ∀ s ∈ steps, depth ≤ s.depth
  plain : ∀ line ∈ levelLines depth steps, Text.IsPlainLine line
  lines : (levelLines depth steps).map (margin width depth) = printed

namespace Prints

variable {width depth : Nat} {steps others : List ScriptStep} {printed more : List String}

theorem nil : Prints width depth [] [] := ⟨by simp, by simp [levelLines], rfl⟩

theorem append (h : Prints width depth steps printed) (hmore : Prints width depth others more) :
    Prints width depth (steps ++ others) (printed ++ more) := by
  have hlevel : levelLines depth (steps ++ others) =
      levelLines depth steps ++ levelLines depth others := by
    simp [levelLines]
  refine ⟨?_, ?_, ?_⟩
  · exact List.forall_mem_append.mpr ⟨h.deep, hmore.deep⟩
  · rw [hlevel]
    exact List.forall_mem_append.mpr ⟨h.plain, hmore.plain⟩
  · rw [hlevel, List.map_append, h.lines, hmore.lines]

/-- What is nested deeper prints nothing at a level of its own. -/
theorem above (h : Prints width (depth + 1) steps printed) : Prints width depth steps [] := by
  have hlevel : levelLines depth steps = [] := by
    have hnone : steps.filter (fun s => s.depth = depth) = [] := by
      apply List.filter_eq_nil_iff.mpr
      intro s hs hdepth
      have := h.deep s hs
      simp only [decide_eq_true_eq] at hdepth
      omega
    rw [levelLines, hnone, List.flatMap_nil]
  refine ⟨fun s hs => Nat.le_of_succ_le (h.deep s hs), ?_, ?_⟩
  · simp [hlevel]
  · rw [hlevel, List.map_nil]

/-- One step with a text of plain lines. -/
theorem single (node : NodeId) (dependsOn : List NodeId) {ls : List String}
    (h : ∀ line ∈ ls, Text.IsPlainLine line) :
    Prints width depth [⟨node, Text.unlines ls, dependsOn, depth⟩]
      (ls.map (margin width depth)) := by
  have hlevel : levelLines depth [⟨node, Text.unlines ls, dependsOn, depth⟩] = ls := by
    simp [levelLines, Text.lines_unlines h]
  refine ⟨by simp, ?_, ?_⟩
  · rwa [hlevel]
  · rw [hlevel]

/-- One level deeper, the lines of a level are those of the next. -/
theorem indented (h : Prints width (depth + 1) steps printed) :
    let ls := (steps.filter fun s => s.depth = depth + 1).flatMap fun s =>
      (Text.lines s.text).map (Text.indentLine (spaces width))
    (∀ line ∈ ls, Text.IsPlainLine line) ∧ ls.map (margin width depth) = printed := by
  intro ls
  have hls : ls = (levelLines (depth + 1) steps).map (Text.indentLine (spaces width)) := by
    rw [levelLines, List.map_flatMap]
  have hindent : ∀ line ∈ levelLines (depth + 1) steps,
      Text.indentLine (spaces width) line = spaces width ++ line := by
    intro line hline
    rw [Text.indentLine, if_neg (h.plain line hline).1]
  constructor
  · intro line hline
    rw [hls] at hline
    obtain ⟨inner, hinner, rfl⟩ := List.mem_map.mp hline
    rw [hindent inner hinner]
    exact (h.plain inner hinner).prepend (by simp)
  · rw [hls, List.map_map, ← h.lines]
    apply List.map_congr_left
    intro line hline
    rw [Function.comp_apply, hindent line hline, margin_indent]

end Prints

namespace Graph

variable {g : Graph}

/-- The live edges of a status check show whether an edge leaves it on failure. -/
theorem all_liveEdges_ne_failure {node : Node} (hkind : node.kind = .check) :
    ((g.liveEdges node).all fun e => e.port ≠ some .failure) = !g.isWired node.id .failure := by
  have hlive : g.liveEdges node = [Port.success, Port.failure].filterMap fun port =>
      (g.outgoing node.id).find? fun e => e.port = some port := by
    rw [liveEdges, hkind]
    rfl
  cases hfailure : (g.outgoing node.id).find? fun e => e.port = some .failure with
  | none =>
    have hwired : g.isWired node.id .failure = false := by
      simpa [isWired] using hfailure
    rw [hwired, Bool.not_false, List.all_eq_true, hlive]
    intro e he
    obtain ⟨port, hport, hfound⟩ := List.mem_filterMap.mp he
    have heport : e.port = some port := by simpa using List.find?_some hfound
    rcases List.mem_cons.mp hport with rfl | hport
    · simp [heport]
    · obtain rfl := List.mem_singleton.mp hport
      rw [hfailure] at hfound
      cases hfound
  | some e =>
    have heport : e.port = some .failure := by simpa using List.find?_some hfailure
    have hwired : g.isWired node.id .failure = true :=
      List.any_eq_true.mpr ⟨e, List.mem_of_find?_eq_some hfailure, by simpa using heport⟩
    have he : e ∈ g.liveEdges node := by
      rw [hlive]
      exact List.mem_filterMap.mpr ⟨.failure, by simp, hfailure⟩
    rw [hwired, Bool.not_true, List.all_eq_false]
    exact ⟨e, he, by simpa using heport⟩

end Graph

section

variable {g : Graph} {text : Node → String} {own : Node → List String} {width : Nat}

/-- What the steps behind a node print: the arm behind each port, and what follows the node at its
own level. -/
structure PrintsBehind (g : Graph) (text : Node → String) (own : Node → List String)
    (width depth : Nat) (last : Node) (exits : Exits) : Prop where
  arm : last.kind.isBranching = true → ∀ arm : Arm, arm.port.opensArm = true → ∀ filler,
    let steps := arm.steps (exits.steps text (spaces width) last depth)
    let printed := exits.printArm g own width depth arm.port filler
    (steps = [] ∧ printed = [margin width (depth + 1) filler]) ∨
      (steps ≠ [] ∧ Prints width (depth + 1) steps printed)
  on : Prints width depth ((exits.steps text (spaces width) last depth).flatMap Prod.snd)
    (exits.printOn g own width depth last)

theorem Visit.steps_ne_nil (visit : Visit) (text : Node → String) (indent : String)
    (parent : Option NodeId) (depth : Nat) : visit.steps text indent parent depth ≠ [] := by
  cases visit
  exact List.cons_ne_nil _ _

theorem Arm.isPlainLine_filler (arm : Arm) (id : NodeId) (behind : Behind) :
    Text.IsPlainLine (arm.filler id behind) := by
  unfold filler
  split
  · have hclosed : Text.IsPlainLine ((Expression.text id).render ++ ")") :=
      Text.IsPlainLine.prepend (Expression.isPlainLine_render _).2 (by decide)
    rw [String.append_assoc]
    exact hclosed.prepend (by decide)
  · decide

theorem Kind.arms_open (kind : Kind) : ∀ arm ∈ kind.arms, kind.isBranching = true ∧
    arm.port.opensArm = true ∧ ∀ line ∈ arm.heading.toList, Text.IsPlainLine line := by
  cases kind <;> decide

theorem Node.opensArm_of_arm {node : Node} {arm : Arm} (harm : arm ∈ node.kind.arms) {e : Edge}
    (he : e.port = some arm.port) : node.opensArm e = true := by
  obtain ⟨hbranch, hopens, -⟩ := node.kind.arms_open arm harm
  simp [Node.opensArm, hbranch, he, hopens]

namespace PrintsBehind

variable {depth : Nat} {node : Node} {exits : Exits}

theorem nil : PrintsBehind g text own width depth node .nil := by
  refine ⟨fun _ arm _ filler => .inl ⟨rfl, ?_⟩, ?_⟩
  · rw [Exits.printArm]
  · exact Prints.nil

theorem stopped {e : Edge} {stop : Stop} (h : PrintsBehind g text own width depth node exits) :
    PrintsBehind g text own width depth node (.stopped e stop exits) := by
  refine ⟨fun hbranch arm hopens filler => ?_, ?_⟩
  · by_cases hport : e.port = some arm.port
    · refine .inl ⟨?_, ?_⟩
      · simp [Exits.steps, Arm.steps, hport]
      · rw [Exits.printArm, if_pos hport]
    · have harm := h.arm hbranch arm hopens filler
      simpa [Exits.steps, Arm.steps, Exits.printArm, hport] using harm
  · simpa [Exits.steps, Exits.printOn] using h.on

/-- The steps behind an edge stand one level deeper if the edge opens an arm, and at the level of
its source otherwise. -/
theorem onward {e : Edge} {visit : Visit} (h : PrintsBehind g text own width depth node exits)
    (hvisit : ∀ deeper, Prints width deeper
      (visit.steps text (spaces width) (some node.id) deeper)
      (visit.print g own width deeper)) :
    PrintsBehind g text own width depth node (.onward e visit exits) := by
  refine ⟨fun hbranch arm hopens filler => ?_, ?_⟩
  · by_cases hport : e.port = some arm.port
    · have hdeeper : depthBehind depth node e = depth + 1 := by
        simp [depthBehind, Node.opensArm, hbranch, hport, hopens]
      refine .inr ⟨?_, ?_⟩
      · simpa [Exits.steps, Arm.steps, hport] using visit.steps_ne_nil _ _ _ _
      · rw [Exits.printArm, if_pos hport]
        simpa [Exits.steps, Arm.steps, hport, hdeeper] using hvisit (depth + 1)
    · have harm := h.arm hbranch arm hopens filler
      simpa [Exits.steps, Arm.steps, Exits.printArm, hport] using harm
  · rw [Exits.steps, List.flatMap_cons, Exits.printOn]
    refine Prints.append ?_ h.on
    by_cases hopens : node.opensArm e = true
    · simpa [depthBehind, hopens] using (hvisit (depth + 1)).above
    · simpa [depthBehind, hopens] using hvisit depth

/-- The lines of an arm are those that are printed behind its port. -/
theorem lines_arm (h : PrintsBehind g text own width depth node exits)
    (hbranch : node.kind.isBranching = true) {arm : Arm} (hopens : arm.port.opensArm = true)
    (hheading : ∀ line ∈ arm.heading.toList, Text.IsPlainLine line) :
    let indent := spaces width
    let behind := exits.steps text indent node depth
    (∀ line ∈ arm.lines indent node.id depth behind, Text.IsPlainLine line) ∧
      (arm.lines indent node.id depth behind).map (margin width depth) =
        arm.heading.toList.map (margin width depth) ++
          exits.printArm g own width depth arm.port (arm.filler node.id behind) := by
  intro indent behind
  rcases h.arm hbranch arm hopens (arm.filler node.id behind) with ⟨hnil, hfiller⟩ | ⟨hne, hsteps⟩
  · have hlines : arm.lines indent node.id depth behind =
        arm.heading.toList ++ [indent ++ arm.filler node.id behind] := by
      rw [Arm.lines, hnil]
      rfl
    have hplain : Text.IsPlainLine (indent ++ arm.filler node.id behind) :=
      (arm.isPlainLine_filler node.id behind).prepend (by simp [indent])
    rw [hlines, hfiller]
    refine ⟨List.forall_mem_append.mpr ⟨hheading, by simpa using hplain⟩, ?_⟩
    rw [List.map_append, List.map_singleton, margin_indent]
  · have hlines : arm.lines indent node.id depth behind = arm.heading.toList ++
        ((arm.steps behind).filter fun s => s.depth = depth + 1).flatMap fun s =>
          (Text.lines s.text).map (Text.indentLine indent) := by
      rw [Arm.lines, if_neg (by simpa using hne)]
    obtain ⟨hplain, hprinted⟩ := hsteps.indented
    rw [hlines]
    refine ⟨List.forall_mem_append.mpr ⟨hheading, hplain⟩, ?_⟩
    rw [List.map_append, hprinted]

theorem filler_eq_failureLine {path loops : List NodeId} (hkind : node.kind = .check)
    (htree : g.Unfolds path loops node (g.liveEdges node) exits) (heading : Option String)
    (indent : String) :
    (Arm.mk heading .failure).filler node.id (exits.steps text indent node depth) =
      g.failureLine node.id := by
  have hwired := Graph.all_liveEdges_ne_failure (g := g) hkind
  rw [← htree.edges_steps text indent depth, List.all_map] at hwired
  have hall : (exits.steps text indent node depth).all (fun b => b.1.port ≠ some .failure) =
      !g.isWired node.id .failure := hwired
  rw [Arm.filler, hall, Graph.failureLine]
  cases g.isWired node.id .failure <;> rfl

theorem filler_eq_pass (arm : Arm) (hport : arm.port ≠ .failure) (behind : Behind) :
    arm.filler node.id behind = "pass" := by
  rw [Arm.filler, if_neg fun hfailure => hport hfailure.1]

/-- The lines that a node puts behind its own text are those that are printed for its arms. -/
theorem lines_arms {path loops : List NodeId}
    (htree : g.Unfolds path loops node (g.liveEdges node) exits)
    (h : PrintsBehind g text own width depth node exits) :
    let indent := spaces width
    let ls := node.kind.arms.flatMap fun arm =>
      arm.lines indent node.id depth (exits.steps text indent node depth)
    (∀ line ∈ ls, Text.IsPlainLine line) ∧
      (Visit.mk node exits).print g own width depth =
        (own node ++ ls).map (margin width depth) ++ exits.printOn g own width depth node := by
  intro indent ls
  have harm : ∀ arm ∈ node.kind.arms, _ := fun arm harm =>
    h.lines_arm (node.kind.arms_open arm harm).1 (node.kind.arms_open arm harm).2.1
      (node.kind.arms_open arm harm).2.2
  constructor
  · intro line hline
    obtain ⟨arm, hmem, hline⟩ := List.mem_flatMap.mp hline
    exact (harm arm hmem).1 line hline
  · have hls : ls.map (margin width depth) = node.kind.arms.flatMap fun arm =>
        arm.heading.toList.map (margin width depth) ++ exits.printArm g own width depth arm.port
          (arm.filler node.id (exits.steps text indent node depth)) := by
      rw [List.map_flatMap]
      exact List.flatMap_congr fun arm hmem => (harm arm hmem).2
    rw [List.map_append, hls, Visit.print]
    cases hkind : node.kind with
    | condition =>
      simp [Kind.arms, filler_eq_pass ⟨_, .whenTrue⟩, filler_eq_pass ⟨_, .whenFalse⟩]
    | loop => simp [Kind.arms, filler_eq_pass ⟨_, .body⟩]
    | check => simp [Kind.arms, filler_eq_pass ⟨_, .success⟩, filler_eq_failureLine hkind htree]
    | start => rfl
    | finish => rfl
    | task => rfl
    | connect => rfl
    | deploy => rfl
    | execute => rfl
    | backup => rfl

end PrintsBehind

structure AreLines (text : Node → String) (own : Node → List String) : Prop where
  ne_nil : ∀ node, own node ≠ []
  plain : ∀ node, ∀ line ∈ own node, Text.IsPlainLine line
  text_eq : ∀ node, text node = Text.unlines (own node)

/-- A visit prints its own lines, those of its arms and what goes on behind it. -/
theorem prints_visit (hown : AreLines text own) {depth : Nat} {path loops : List NodeId}
    {node : Node} {exits : Exits} (htree : g.Unfolds path loops node (g.liveEdges node) exits)
    (h : PrintsBehind g text own width depth node exits) (parent : Option NodeId) :
    Prints width depth
      ((Visit.mk node exits).steps text (spaces width) parent depth)
      ((Visit.mk node exits).print g own width depth) := by
  obtain ⟨harms, hprint⟩ := h.lines_arms htree
  rw [Visit.steps, hprint, blockText, hown.text_eq, ← Text.unlines_append (hown.ne_nil node)]
  exact (Prints.single node.id _
    (List.forall_mem_append.mpr ⟨hown.plain node, harms⟩)).append h.on

/-- The steps of a tree are printed at every depth. -/
theorem printsBehind_of_unfolds (hown : AreLines text own) {path loops : List NodeId}
    {last : Node} {edges : List Edge} {exits : Exits}
    (htree : g.Unfolds path loops last edges exits) (depth : Nat) :
    PrintsBehind g text own width depth last exits := by
  induction htree generalizing depth with
  | nil => exact .nil
  | stopped _ _ ih => exact (ih depth).stopped
  | nowhere _ _ _ ih => exact (ih depth).stopped
  | onward _ _ hbehind _ ihbehind ih =>
    exact (ih depth).onward fun deeper => prints_visit hown hbehind (ihbehind deeper) _

end

theorem Node.areLines_templateLines (resolver : Resolver) (redact : Bool) :
    AreLines (Node.ownText .standard resolver redact)
      (fun node => node.templateLines resolver redact) where
  ne_nil node := node.templateLines_ne_nil resolver redact
  plain _ _ hline := Node.isPlainLine_of_mem_templateLines hline
  text_eq node := node.ownText_standard resolver redact

/-- Of the top-level steps a script shows the lines that are printed. -/
theorem Prints.bodyLines_eq {script : Script} {o : Options} {printed : List String}
    (h : Prints o.indentWidth 0 script.steps printed) : script.bodyLines o.indent = printed := by
  have hbody : script.bodyLines o.indent =
      (levelLines 0 script.steps).map (Text.indentLine o.indent) := by
    rw [levelLines, List.map_flatMap]
    rfl
  rw [hbody, ← h.lines]
  apply List.map_congr_left
  intro line hline
  rw [Text.indentLine, if_neg (h.plain line hline).1, margin, Nat.zero_add, Nat.one_mul]
  rfl

theorem Prints.isPlainLine {width depth : Nat} {steps : List ScriptStep} {printed : List String}
    (h : Prints width depth steps printed) : ∀ line ∈ printed, Text.IsPlainLine line := by
  intro line hline
  rw [← h.lines] at hline
  obtain ⟨inner, hinner, rfl⟩ := List.mem_map.mp hline
  exact (h.plain inner hinner).prepend (by simp)

namespace Compiler

/-- Between the line that opens its function and the one that ends it, a script of the standard
templates has the lines that one pass through the path tree prints, and these stay apart. -/
theorem render_eq_print {o : Options} {g : Graph} {resolver : Resolver} {script : Script}
    (h : (⟨.standard, o⟩ : Compiler).compile g resolver = .ok script) :
    ∃ start visit, g.ofKind .start = [start] ∧ g.visit o.limits start = .ok visit ∧
      script = (⟨.standard, o⟩ : Compiler).scriptOf resolver visit ∧
      (∀ node : Node, Text.lines (node.ownText .standard resolver o.redactSecrets) =
        node.templateLines resolver o.redactSecrets) ∧
      let printed := visit.print g (fun node => node.templateLines resolver o.redactSecrets)
        o.indentWidth 0
      let body := String.join (printed.map fun line => line ++ "\n")
      Text.lines body = printed ∧
      script.render o =
        String.join ((Script.headerLines o.headerComment ++
          ["from " ++ o.runtimeModule ++ " import StepFailed", "", ""]).map
            fun line => line ++ "\n") ++
        ("def " ++ o.functionName ++ "(ctx):\n") ++ body ++ (o.indent ++ "return ctx\n") := by
  obtain ⟨-, start, visit, hstart, hvisit, hscript, -⟩ := compile_eq_ok_iff.mp h
  obtain ⟨exits, htree, hmk⟩ := Graph.exists_unfolds_of_visit hvisit
  have hown := Node.areLines_templateLines resolver o.redactSecrets
  have hprints : Prints o.indentWidth 0 script.steps
      (visit.print g (fun node => node.templateLines resolver o.redactSecrets)
        o.indentWidth 0) := by
    rw [hscript, hmk]
    exact prints_visit hown htree (printsBehind_of_unfolds hown htree 0) none
  refine ⟨start, visit, hstart, hvisit, hscript,
    fun node => node.lines_ownText resolver o.redactSecrets, ?_⟩
  intro printed body
  refine ⟨Text.lines_join_breaks hprints.isPlainLine, ?_⟩
  have hdef : "def " ++ o.functionName ++ "(ctx):" ++ "\n" =
      "def " ++ o.functionName ++ "(ctx):\n" := by
    rw [String.append_assoc]
    rfl
  have hend : o.indent ++ "return ctx" ++ "\n" = o.indent ++ "return ctx\n" := by
    rw [String.append_assoc]
    rfl
  have hsplit : ∀ above : List String, above ++ ["from " ++ o.runtimeModule ++
      " import StepFailed", "", "", "def " ++ o.functionName ++ "(ctx):"] =
        above ++ ["from " ++ o.runtimeModule ++ " import StepFailed", "", ""] ++
          ["def " ++ o.functionName ++ "(ctx):"] := by
    simp
  rw [Script.render, hprints.bodyLines_eq, hsplit]
  simp only [List.map_append, String.join_append, List.map_cons, List.map_nil, String.join_cons,
    String.join_nil, String.append_empty, hdef, hend, body, printed]

theorem render_eq_print_patrol : ∃ bytes script visit above,
    let o : Options := { maxBytes := bytes }
    let resolver := ({} : Inventory).resolver
    (⟨.standard, o⟩ : Compiler).compile .patrol resolver = .ok script ∧
    Graph.patrol.visit o.limits (.ofStep "begin" .start .origin) = .ok visit ∧
    script.render o = above ++ String.join
      ((visit.print .patrol (fun node => node.templateLines resolver false) 4 0).map
        fun line => line ++ "\n") ++ "    return ctx\n" := by
  obtain ⟨bytes, script, h⟩ := exists_compile_patrol .standard false ({} : Inventory).resolver
  obtain ⟨start, visit, hstart, hvisit, -, -, -, hrender⟩ := render_eq_print h
  obtain rfl : Node.ofStep "begin" .start .origin = start := List.singleton_inj.mp hstart
  exact ⟨bytes, script, visit, _, h, hvisit, hrender⟩

end Compiler

end Runbook
