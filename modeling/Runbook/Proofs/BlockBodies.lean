import Mathlib.Tactic.Common
import Runbook.Proofs.AcceptedTemplates
import Runbook.Proofs.BlockPrinter
import Runbook.Proofs.CompileOutcome
import Runbook.Proofs.ExpressionReading

/-!
Bodies of blocks. An arm without steps has a line in their place, and any other arm has the lines
of its steps, so it shows something if one of them does. A block always does, and so does a step
whose template is not blank, as every token of an accepted template is filled with something to
see. But blank templates are accepted too, and an arm whose steps leave nothing to see has no body
at all: the line in place of steps is not for it.
-/
namespace Runbook

namespace Text

theorem not_isAllBlank_iff {s : String} :
    ¬ IsAllBlank s ↔ ∃ c ∈ s.toList, isBlank c = false := by
  simp [IsAllBlank]

theorem not_isAllBlank_of_infix {part s : String} (h : part.toList <:+: s.toList)
    (hpart : ¬ IsAllBlank part) : ¬ IsAllBlank s :=
  fun hs => hpart fun c hc => hs c (h.subset hc)

theorem mem_finishLine {line : List Char} {c : Char} (hc : c ∈ line) (hreturn : c ≠ '\r') :
    c ∈ finishLine line := by
  unfold finishLine
  split
  · exact List.mem_reverse.mpr ((List.mem_cons.mp hc).resolve_left hreturn)
  · exact List.mem_reverse.mpr hc

theorem exists_mem_splitLines {line s : List Char} {c : Char} (hc : c ∈ line ∨ c ∈ s)
    (hblank : isBlank c = false) : ∃ found ∈ splitLines line s, c ∈ found := by
  have hne : ∀ blank : Char, isBlank blank = true → c ≠ blank := by
    rintro blank h rfl
    rw [hblank] at h
    cases h
  induction line, s using splitLines.induct with
  | case1 line hnone =>
    obtain rfl := List.isEmpty_iff.mp hnone
    simp at hc
  | case2 line hsome =>
    refine ⟨line.reverse, by simp [splitLines, hsome], List.mem_reverse.mpr ?_⟩
    exact hc.resolve_right List.not_mem_nil
  | case3 line rest ih =>
    rw [splitLines]
    rcases hc with hc | hc
    · exact ⟨_, List.mem_cons_self, mem_finishLine hc (hne '\r' (by decide))⟩
    · have hrest : c ∈ rest := (List.mem_cons.mp hc).resolve_left (hne '\n' (by decide))
      obtain ⟨found, hfound, hmem⟩ := ih (.inr hrest)
      exact ⟨found, List.mem_cons_of_mem _ hfound, hmem⟩
  | case4 line d rest hbreak ih =>
    rw [splitLines]
    · refine ih ?_
      rcases hc with hc | hc
      · exact .inl (List.mem_cons_of_mem _ hc)
      · exact (List.mem_cons.mp hc).imp (fun heq => List.mem_cons.mpr (.inl heq)) id
    · exact hbreak

/-- What a text shows stands on one of its lines. -/
theorem exists_line_of_not_isAllBlank {s : String} (h : ¬ IsAllBlank s) :
    ∃ line ∈ lines s, ¬ IsAllBlank line := by
  obtain ⟨c, hc, hblank⟩ := not_isAllBlank_iff.mp h
  obtain ⟨found, hfound, hmem⟩ : ∃ found ∈ splitLines [] s.toList, c ∈ found :=
    exists_mem_splitLines (.inr hc) hblank
  refine ⟨_, List.mem_map_of_mem hfound, not_isAllBlank_iff.mpr ⟨c, ?_, hblank⟩⟩
  rwa [String.toList_ofList]

theorem break_not_mem_splitLines {line s found : List Char} (hline : '\n' ∉ line)
    (h : found ∈ splitLines line s) : '\n' ∉ found := by
  induction line, s using splitLines.induct with
  | case1 line hnone => simp [splitLines, hnone] at h
  | case2 line hsome =>
    obtain rfl : found = line.reverse := by simpa [splitLines, hsome] using h
    exact mt List.mem_reverse.mp hline
  | case3 line rest ih =>
    rw [splitLines] at h
    rcases List.mem_cons.mp h with rfl | h
    · exact fun hmem => hline (List.mem_reverse.mp ((isPrefix_finishLine line).subset hmem))
    · exact ih List.not_mem_nil h
  | case4 line c rest hbreak ih =>
    rw [splitLines] at h
    · exact ih (by simpa [Ne.symm hbreak] using hline) h
    · exact hbreak

theorem break_not_mem_of_mem_lines {line s : String} (h : line ∈ lines s) :
    '\n' ∉ line.toList := by
  obtain ⟨found, hfound, rfl⟩ := List.mem_map.mp h
  rw [String.toList_ofList]
  exact break_not_mem_splitLines List.not_mem_nil hfound

/-- Lines put below a text leave it in front. -/
theorem isPrefix_foldl_lines (text : String) (ls : List String) :
    text.toList <+: (ls.foldl (fun text line => text ++ "\n" ++ line) text).toList := by
  induction ls generalizing text with
  | nil => exact List.prefix_refl _
  | cons line rest ih =>
    refine List.IsPrefix.trans ?_ (ih (text ++ "\n" ++ line))
    rw [String.append_assoc, String.toList_append]
    exact List.prefix_append _ _

theorem infix_foldl_lines (text : String) {line : String} {ls : List String} (h : line ∈ ls) :
    line.toList <:+: (ls.foldl (fun text line => text ++ "\n" ++ line) text).toList := by
  induction ls generalizing text with
  | nil => cases h
  | cons first rest ih =>
    rcases List.mem_cons.mp h with rfl | h
    · refine List.IsInfix.trans ?_ (isPrefix_foldl_lines _ rest).isInfix
      rw [String.toList_append]
      exact (List.suffix_append _ _).isInfix
    · exact ih _ h

end Text

theorem Expression.not_isAllBlank_render (e : Expression) : ¬ Text.IsAllBlank e.render := by
  have hdigit : ∀ c : Char, c.isDigit = true → Text.isBlank c = false := fun c hc =>
    Template.not_isBlank_of_isNameChar (by simp [Template.isNameChar, Char.isAlphanum, hc])
  obtain ⟨c, hc, hblank⟩ : ∃ c ∈ e.chars, Text.isBlank c = false := by
    cases e with
    | none => exact ⟨'N', by decide, by decide⟩
    | truth b => cases b <;> exact ⟨'e', by decide, by decide⟩
    | natural n =>
      obtain ⟨c, more, hcons, hc⟩ := Reader.exists_numeralChars_eq_cons n
      exact ⟨c, by simp [hcons], hdigit c hc⟩
    | decimal x =>
      obtain ⟨c, more, hcons, hc⟩ := Reader.exists_text_eq_cons x
      refine ⟨c, by simp [hcons], ?_⟩
      rcases hc with rfl | hc
      · decide
      · exact hdigit c hc
    | text s => exact ⟨'"', by simp [quote], by decide⟩
    | texts items => exact ⟨'[', by simp, by decide⟩
    | secret credential name => exact ⟨'c', by simp, by decide⟩
    | policy p timeout => exact ⟨'r', by simp, by decide⟩
  refine Text.not_isAllBlank_iff.mpr ⟨c, ?_, hblank⟩
  rwa [render, String.toList_ofList]

namespace Template

/-- A character of a text stands outside every token, or there is a token. -/
theorem plain_or_token_mem_pieces {s : List Char} {c : Char} (hc : c ∈ s) :
    .plain c ∈ pieces s ∨ ∃ written name, .token written name ∈ pieces s := by
  induction s using pieces.induct with
  | case1 => cases hc
  | case2 d s name after heq ih =>
    obtain ⟨written, hpieces⟩ := pieces_of_token heq
    rw [hpieces]
    exact .inr ⟨written, name, List.mem_cons_self⟩
  | case3 d s heq ih =>
    rw [pieces_of_plain heq]
    rcases List.mem_cons.mp hc with rfl | hc
    · exact .inl List.mem_cons_self
    · rcases ih hc with hplain | ⟨written, name, htoken⟩
      · exact .inl (List.mem_cons_of_mem _ hplain)
      · exact .inr ⟨written, name, List.mem_cons_of_mem _ htoken⟩

/-- A text that is not blank leaves something to see if its tokens do. -/
theorem not_isAllBlank_substitute {value : String → String} {s : String}
    (hvalue : ∀ name ∈ names s, ¬ Text.IsAllBlank (value name)) (hs : ¬ Text.IsAllBlank s) :
    ¬ Text.IsAllBlank (substitute value s) := by
  obtain ⟨c, hc, hblank⟩ := Text.not_isAllBlank_iff.mp hs
  obtain ⟨piece, hpiece, d, hd, hshown⟩ : ∃ piece ∈ pieces s.toList,
      ∃ d ∈ piece.chars value, Text.isBlank d = false := by
    rcases plain_or_token_mem_pieces hc with hplain | ⟨written, name, htoken⟩
    · exact ⟨_, hplain, c, List.mem_cons_self, hblank⟩
    · have hname : String.ofList name ∈ names s := List.mem_filterMap.mpr ⟨_, htoken, rfl⟩
      exact ⟨_, htoken, Text.not_isAllBlank_iff.mp (hvalue _ hname)⟩
  refine Text.not_isAllBlank_iff.mpr ⟨d, ?_, hshown⟩
  rw [substitute, String.toList_ofList]
  exact List.mem_flatMap.mpr ⟨piece, hpiece, hd⟩

end Template

/-- A node shows something if its template is accepted and not blank. -/
theorem Node.not_isAllBlank_ownText {table : Template.Table} {node : Node}
    (haccepts : Template.accepts node.kind (table.text node.kind) = true)
    (htext : ¬ Text.IsAllBlank (table.text node.kind)) (resolver : Resolver) (redact : Bool) :
    ¬ Text.IsAllBlank (node.ownText table resolver redact) := by
  refine Template.not_isAllBlank_substitute (fun name hname => ?_) htext
  have hfield := Template.accepts_iff.mp haccepts name hname
  have hvalue := node.fieldText_eq resolver redact hfield
  rw [fieldText] at hvalue
  rw [hvalue]
  exact Expression.not_isAllBlank_render _

/-- Lines that make the body of an arm: each is empty or stands one level in, and one of them
shows something there. -/
structure IsBody (indent : String) (body : List String) : Prop where
  inside : ∀ line ∈ body, '\n' ∉ line.toList ∧ (line = "" ∨ ∃ inner, line = indent ++ inner)
  shown : ∃ inner, indent ++ inner ∈ body ∧ ¬ Text.IsAllBlank inner

/-- A text that a block has if no arm of it is without a body: its own text, then for each arm the
line that opens it, if there is one, and its body. -/
def Node.HasBodies (node : Node) (own indent text : String) : Prop :=
  node.kind.isBranching = true → ∃ body : Arm → List String,
    text = (node.kind.arms.flatMap fun arm => arm.heading.toList ++ body arm).foldl
      (fun text line => text ++ "\n" ++ line) own ∧
    ∀ arm ∈ node.kind.arms, IsBody indent (body arm)

theorem Kind.exists_mem_arms {kind : Kind} (h : kind.isBranching = true) :
    ∃ arm, arm ∈ kind.arms := by
  have hne : kind.isBranching = true → kind.arms ≠ [] := by
    cases kind <;> decide
  exact List.exists_mem_of_ne_nil _ (hne h)

namespace Arm

def body (arm : Arm) (indent : String) (id : NodeId) (depth : Nat) (behind : Behind) :
    List String :=
  if (arm.steps behind).isEmpty then [indent ++ arm.filler id behind]
  else
    ((arm.steps behind).filter fun s => s.depth = depth + 1).flatMap fun s =>
      (Text.lines s.text).map (Text.indentLine indent)

theorem lines_eq (arm : Arm) (indent : String) (id : NodeId) (depth : Nat) (behind : Behind) :
    arm.lines indent id depth behind =
      arm.heading.toList ++ arm.body indent id depth behind := rfl

theorem not_isAllBlank_filler (arm : Arm) (id : NodeId) (behind : Behind) :
    ¬ Text.IsAllBlank (arm.filler id behind) := by
  unfold filler
  split
  · exact Text.not_isAllBlank_iff.mpr ⟨'r', by simp, by decide⟩
  · exact Text.not_isAllBlank_iff.mpr ⟨'p', by simp, by decide⟩

/-- An arm has a body if it has no steps, or a step at its own level that shows something. -/
theorem isBody_body {arm : Arm} {indent : String} {depth : Nat} {behind : Behind} (id : NodeId)
    (hindent : '\n' ∉ indent.toList)
    (h : arm.steps behind = [] ∨
      ∃ s ∈ arm.steps behind, s.depth = depth + 1 ∧ ¬ Text.IsAllBlank s.text) :
    IsBody indent (arm.body indent id depth behind) := by
  rcases h with hnil | ⟨s, hs, hdepth, hshown⟩
  · have hbody : arm.body indent id depth behind = [indent ++ arm.filler id behind] := by
      rw [body, hnil]
      rfl
    have hfiller : '\n' ∉ (arm.filler id behind).toList := (arm.isPlainLine_filler id behind).2.1
    rw [hbody]
    constructor
    · intro line hline
      obtain rfl := List.mem_singleton.mp hline
      exact ⟨by simp [hindent, hfiller], .inr ⟨_, rfl⟩⟩
    · exact ⟨_, List.mem_singleton_self _, arm.not_isAllBlank_filler id behind⟩
  · have hbody : arm.body indent id depth behind =
        ((arm.steps behind).filter fun s => s.depth = depth + 1).flatMap fun s =>
          (Text.lines s.text).map (Text.indentLine indent) := by
      rw [body, if_neg (by simpa using List.ne_nil_of_mem hs)]
    rw [hbody]
    constructor
    · intro line hline
      obtain ⟨t, -, hline⟩ := List.mem_flatMap.mp hline
      obtain ⟨inner, hinner, rfl⟩ := List.mem_map.mp hline
      have hbreak := Text.break_not_mem_of_mem_lines hinner
      by_cases hempty : inner = ""
      · simp [Text.indentLine, hempty]
      · rw [Text.indentLine, if_neg hempty]
        exact ⟨by simp [hindent, hbreak], .inr ⟨inner, rfl⟩⟩
    · obtain ⟨inner, hinner, hvisible⟩ := Text.exists_line_of_not_isAllBlank hshown
      have hne : inner ≠ "" := by
        rintro rfl
        exact hvisible (by simp [Text.IsAllBlank])
      refine ⟨inner, List.mem_flatMap.mpr ⟨s, ?_, List.mem_map.mpr ⟨inner, hinner, ?_⟩⟩, hvisible⟩
      · exact List.mem_filter.mpr ⟨hs, by simpa using hdepth⟩
      · rw [Text.indentLine, if_neg hne]

end Arm

section

variable {g : Graph} {own : Node → String} {indent : String}

structure FilledBehind (g : Graph) (own : Node → String) (indent : String) (depth : Nat)
    (last : Node) (behind : Behind) : Prop where
  shown : ∀ b ∈ behind, b.2 = [] ∨
    ∃ s ∈ b.2, s.depth = depthBehind depth last b.1 ∧ ¬ Text.IsAllBlank s.text
  bodies : ∀ s ∈ behind.flatMap Prod.snd,
    ∃ node, g.nodeOf? s = some node ∧ node.HasBodies (own node) indent s.text

namespace FilledBehind

variable {depth : Nat} {node : Node} {behind : Behind}

theorem isBody (h : FilledBehind g own indent depth node behind) (hindent : '\n' ∉ indent.toList)
    {arm : Arm} (harm : arm ∈ node.kind.arms) :
    IsBody indent (arm.body indent node.id depth behind) := by
  refine Arm.isBody_body node.id hindent ?_
  rw [Arm.steps]
  cases hfound : behind.find? fun b => b.1.port = some arm.port with
  | none => exact .inl rfl
  | some b =>
    have hport : b.1.port = some arm.port := by simpa using List.find?_some hfound
    have hdepth : depthBehind depth node b.1 = depth + 1 := if_pos (Node.opensArm_of_arm harm hport)
    have hshown := h.shown b (List.mem_of_find?_eq_some hfound)
    rwa [hdepth] at hshown

/-- A block whose arms are filled has its bodies. -/
theorem hasBodies (h : FilledBehind g own indent depth node behind)
    (hindent : '\n' ∉ indent.toList) :
    node.HasBodies (own node) indent (blockText own indent node depth behind) :=
  fun _ => ⟨fun arm => arm.body indent node.id depth behind, rfl, fun _ => h.isBody hindent⟩

/-- A node shows something by itself or, if it is a block, in its arms. -/
theorem not_isAllBlank_blockText (h : FilledBehind g own indent depth node behind)
    (hindent : '\n' ∉ indent.toList)
    (hown : node.kind.isBranching = false → ¬ Text.IsAllBlank (own node)) :
    ¬ Text.IsAllBlank (blockText own indent node depth behind) := by
  cases hbranch : node.kind.isBranching with
  | false =>
    exact Text.not_isAllBlank_of_infix (Text.isPrefix_foldl_lines _ _).isInfix (hown hbranch)
  | true =>
    obtain ⟨arm, harm⟩ := Kind.exists_mem_arms hbranch
    obtain ⟨inner, hinner, hshown⟩ := (h.isBody hindent harm).shown
    have hline : indent ++ inner ∈
        node.kind.arms.flatMap fun arm => arm.lines indent node.id depth behind :=
      List.mem_flatMap.mpr ⟨arm, harm, arm.lines_eq .. ▸ List.mem_append_right _ hinner⟩
    refine Text.not_isAllBlank_of_infix (Text.infix_foldl_lines _ hline) ?_
    refine Text.not_isAllBlank_of_infix ?_ hshown
    rw [String.toList_append]
    exact (List.suffix_append _ _).isInfix

end FilledBehind

/-- Behind every path that has left the start, steps show something. -/
theorem filledBehind_of_unfolds {start : Node} (hstart : g.ofKind .start = [start])
    (hindent : '\n' ∉ indent.toList)
    (hown : ∀ node ∈ g.nodes, node.kind ≠ .start → node.kind.isBranching = false →
      ¬ Text.IsAllBlank (own node))
    {path loops : List NodeId} {last : Node} {edges : List Edge} {exits : Exits}
    (htree : g.Unfolds path loops last edges exits) (hpath : start.id ∈ path) (depth : Nat) :
    FilledBehind g own indent depth last (exits.steps own indent last depth) := by
  induction htree generalizing depth with
  | nil => exact ⟨by simp [Exits.steps], by simp [Exits.steps]⟩
  | stopped _ _ ih =>
    have hrest := ih hpath depth
    exact ⟨List.forall_mem_cons.mpr ⟨.inl rfl, hrest.shown⟩, hrest.bodies⟩
  | nowhere _ _ _ ih =>
    have hrest := ih hpath depth
    exact ⟨List.forall_mem_cons.mpr ⟨.inl rfl, hrest.shown⟩, hrest.bodies⟩
  | @onward path _ last e _ node behind others hfresh hnode _ _ ihbehind ihrest =>
    have hrest := ihrest hpath depth
    have hbehind := ihbehind (List.mem_cons_of_mem _ hpath) (depthBehind depth last e)
    have hmem : node ∈ g.nodes := Graph.mem_nodes_of_node? hnode
    have hkind : node.kind ≠ .start := by
      intro hkind
      have hfirst : node ∈ g.ofKind .start := List.mem_filter.mpr ⟨hmem, by simpa using hkind⟩
      rw [hstart] at hfirst
      obtain rfl := List.mem_singleton.mp hfirst
      exact hfresh (Graph.id_of_node? hnode ▸ hpath)
    have hshown := hbehind.not_isAllBlank_blockText hindent (hown node hmem hkind)
    have hsame : g.node? node.id = some node := by rw [Graph.id_of_node? hnode, hnode]
    rw [Exits.steps, Visit.steps]
    constructor
    · exact List.forall_mem_cons.mpr ⟨.inr ⟨_, List.mem_cons_self, rfl, hshown⟩, hrest.shown⟩
    · rw [List.flatMap_cons]
      refine List.forall_mem_append.mpr ⟨List.forall_mem_cons.mpr ⟨?_, hbehind.bodies⟩,
        hrest.bodies⟩
      exact ⟨node, by simp [Graph.nodeOf?, hsame], hbehind.hasBodies hindent⟩

end

/-- A choice with nothing to choose from: on both sides the run is over. -/
def Graph.choice : Graph where
  nodes := [.ofStep "begin" .start .origin,
    .ofStep "choose" (.condition ⟨"ready"⟩) .origin, .ofStep "done" .finish .origin]
  edges := [⟨"e1", "begin", "choose", none⟩, ⟨"e2", "choose", "done", some .whenTrue⟩,
    ⟨"e3", "choose", "done", some .whenFalse⟩]

theorem Graph.choice_isErrorFree : choice.IsErrorFree := isErrorFree_iff.mpr (by decide +kernel)

def Graph.choiceTree : Visit :=
  .mk (.ofStep "begin" .start .origin) (.onward ⟨"e1", "begin", "choose", none⟩
    (.mk (.ofStep "choose" (.condition ⟨"ready"⟩) .origin)
      (.onward ⟨"e2", "choose", "done", some .whenTrue⟩ (.mk (.ofStep "done" .finish .origin) .nil)
      (.onward ⟨"e3", "choose", "done", some .whenFalse⟩ (.mk (.ofStep "done" .finish .origin) .nil)
        .nil)))
    .nil)

theorem Graph.visit_choice (bytes : Nat) :
    choice.visit ⟨some 10000, some 64, some bytes⟩ (.ofStep "begin" .start .origin) =
      .ok choiceTree := by
  cbv

/-- The step of the choice itself, with the end of the run in both arms. -/
theorem Graph.mem_steps_choiceTree (own : Node → String) (indent : String) :
    let stop := (Text.lines (own (.ofStep "done" .finish .origin))).map (Text.indentLine indent)
    ⟨"choose", (stop ++ "else:" :: stop).foldl (fun text line => text ++ "\n" ++ line)
        (own (.ofStep "choose" (.condition ⟨"ready"⟩) .origin)), ["begin"], 0⟩ ∈
      choiceTree.steps own indent none 0 := by
  intro stop
  have hlines : stop ++ "else:" :: stop = Kind.condition.arms.flatMap fun arm =>
      arm.lines indent "choose" 0
        [(⟨"e2", "choose", "done", some .whenTrue⟩,
            [⟨"done", own (.ofStep "done" .finish .origin), ["choose"], 1⟩]),
          (⟨"e3", "choose", "done", some .whenFalse⟩,
            [⟨"done", own (.ofStep "done" .finish .origin), ["choose"], 1⟩])] := by
    simp [Kind.arms, Arm.lines, Arm.steps, stop]
  rw [hlines]
  exact List.mem_cons_of_mem _ List.mem_cons_self

namespace Compiler

/-- No arm of a block is without a body in a script whose templates were accepted, as long as none
of them is blank that a node beside the start and the blocks has. -/
theorem blocks_have_bodies {overrides : List (Kind × String)} {table : Template.Table}
    {options : Options} {g : Graph} {resolver : Resolver} {script : Script}
    (htable : Template.Table.setAll overrides .standard = .ok () table)
    (hshown : ∀ node ∈ g.nodes, node.kind ≠ .start → node.kind.isBranching = false →
      ¬ Text.IsAllBlank (table.text node.kind))
    (h : (⟨table, options⟩ : Compiler).compile g resolver = .ok script) :
    ∀ s ∈ script.steps, ∃ node, g.nodeOf? s = some node ∧
      node.HasBodies (node.ownText table resolver options.redactSecrets) options.indent s.text := by
  have haccepts : ∀ kind, Template.accepts kind (table.text kind) = true := by
    obtain ⟨hall, rfl⟩ := Template.Table.setAll_eq_ok_iff.mp htable
    exact Template.Table.accepts_text_foldl_put hall
  have hindent : '\n' ∉ options.indent.toList := by simp [Options.indent]
  have hown : ∀ node ∈ g.nodes, node.kind ≠ .start → node.kind.isBranching = false →
      ¬ Text.IsAllBlank (node.ownText table resolver options.redactSecrets) :=
    fun node hmem hkind hplain => Node.not_isAllBlank_ownText (haccepts node.kind)
      (hshown node hmem hkind hplain) resolver options.redactSecrets
  obtain ⟨-, start, exits, hstart, htree, rfl⟩ := exists_tree_of_compile h
  have hbehind := filledBehind_of_unfolds hstart hindent hown htree List.mem_cons_self 0
  rw [scriptOf, Script.ofWalk, Visit.steps]
  refine List.forall_mem_cons.mpr ⟨⟨start, ?_, hbehind.hasBodies hindent⟩, hbehind.bodies⟩
  simp [Graph.nodeOf?, hstart]

theorem exists_compile_choice (table : Template.Table) :
    let resolver := ({} : Inventory).resolver
    ∃ bytes, (⟨table, { maxBytes := bytes }⟩ : Compiler).compile .choice resolver =
      .ok ((⟨table, {}⟩ : Compiler).scriptOf resolver Graph.choiceTree) := by
  intro resolver
  let script := (⟨table, {}⟩ : Compiler).scriptOf resolver Graph.choiceTree
  exact ⟨script.byteSize, compile_eq_ok_iff.mpr ⟨Graph.choice_isErrorFree, _, _, rfl,
    Graph.visit_choice _, rfl, Nat.le_refl _⟩⟩

theorem blocks_have_bodies_choice :
    ∃ table bytes script, Template.Table.setAll [(.finish, "stop()")] .standard = .ok () table ∧
      (∀ node ∈ Graph.choice.nodes, node.kind ≠ .start → node.kind.isBranching = false →
        ¬ Text.IsAllBlank (table.text node.kind)) ∧
      (⟨table, { maxBytes := bytes }⟩ : Compiler).compile .choice ({} : Inventory).resolver =
        .ok script ∧
      ∃ s ∈ script.steps, ∃ node, Graph.choice.nodeOf? s = some node ∧ node.kind = .condition ∧
        node.HasBodies (node.ownText table ({} : Inventory).resolver false) "    " s.text := by
  let table : Template.Table := Template.Table.standard.put (.finish, "stop()")
  have htable : Template.Table.setAll [(.finish, "stop()")] .standard = .ok () table := by
    refine Template.Table.setAll_eq_ok_iff.mpr ⟨List.forall_mem_singleton.mpr ?_, rfl⟩
    exact Template.accepts_of_no_brace .finish (by decide)
  have hshown : ∀ node ∈ Graph.choice.nodes, node.kind ≠ .start → node.kind.isBranching = false →
      ¬ Text.IsAllBlank (table.text node.kind) := by
    intro node hmem hkind hplain
    simp only [Graph.choice, List.mem_cons, List.not_mem_nil, or_false] at hmem
    rcases hmem with rfl | rfl | rfl
    · exact absurd rfl hkind
    · cases hplain
    · exact Text.not_isAllBlank_iff.mpr ⟨'s', by decide, by decide⟩
  obtain ⟨bytes, h⟩ := exists_compile_choice table
  have hs := Graph.mem_steps_choiceTree (Node.ownText table ({} : Inventory).resolver false) "    "
  obtain ⟨node, hnode, hbodies⟩ := blocks_have_bodies htable hshown h _ hs
  refine ⟨table, bytes, _, htable, hshown, h, _, hs, node, hnode, ?_, hbodies⟩
  obtain rfl := Option.some.inj hnode
  rfl

/-- Where the end of a run leaves nothing, a choice has neither of its bodies. -/
theorem blank_template_empties_block :
    ∃ table bytes script s node, Template.Table.setAll [(.finish, "")] .standard = .ok () table ∧
      (⟨table, { maxBytes := bytes }⟩ : Compiler).compile .choice ({} : Inventory).resolver =
        .ok script ∧
      s ∈ script.steps ∧ Graph.choice.nodeOf? s = some node ∧ node.kind = .condition ∧
      s.text = "if ctx.evaluate(\"choose\", \"ready\"):\nelse:" ∧
      ∀ own, ¬ node.HasBodies own "    " s.text := by
  let table : Template.Table := Template.Table.standard.put (.finish, "")
  let choose : Node := .ofStep "choose" (.condition ⟨"ready"⟩) .origin
  let own : Node → String := Node.ownText table ({} : Inventory).resolver false
  have htable : Template.Table.setAll [(.finish, "")] .standard = .ok () table := by
    refine Template.Table.setAll_eq_ok_iff.mpr ⟨List.forall_mem_singleton.mpr ?_, rfl⟩
    exact Template.accepts_of_no_brace .finish (by decide)
  have hdone : own (.ofStep "done" .finish .origin) = "" := Template.substitute_empty _
  have hchoose : own choose = "if ctx.evaluate(\"choose\", \"ready\"):" := by
    have hsame : own choose = choose.ownText .standard ({} : Inventory).resolver false := rfl
    rw [hsame, Node.ownText_eq_join]
    decide
  obtain ⟨bytes, h⟩ := exists_compile_choice table
  have hs := Graph.mem_steps_choiceTree own "    "
  rw [hdone, hchoose] at hs
  refine ⟨table, bytes, _, _, choose, htable, h, hs, rfl, rfl, by decide, fun own hbodies => ?_⟩
  -- A body would show the blanks that stand before its lines.
  obtain ⟨body, htext, hbody⟩ := hbodies rfl
  obtain ⟨inner, hinner, -⟩ := (hbody ⟨none, .whenTrue⟩ List.mem_cons_self).shown
  have hmem : "    " ++ inner ∈ choose.kind.arms.flatMap fun arm =>
      arm.heading.toList ++ body arm :=
    List.mem_flatMap.mpr ⟨_, List.mem_cons_self, List.mem_append_right _ hinner⟩
  have hline := Text.infix_foldl_lines own hmem
  rw [← htext, String.toList_append] at hline
  exact absurd ((List.prefix_append _ _).isInfix.trans hline) (by decide)

end Compiler

end Runbook
