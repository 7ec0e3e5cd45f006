import Mathlib.Tactic.Common
import Runbook.CommandLine.Report
import Runbook.Editor.Event
import Runbook.Proofs.StepForms

/-!
What is saved is found again. The forms of graphs, saved runbooks, inventories, options, findings,
events and scripts are lawful, so each of their values is read back from its text and from its
value, different values are saved differently, and saving what was loaded changes nothing.
-/
namespace Runbook

open Json Json.Format Json.Field Json.Variant

variable {levels : Nat}

theorem Port.lawful : Port.format.Lawful levels Any :=
  lawful_names (fun p => by cases p <;> decide) (by decide)

theorem Position.lawful : Position.format.Lawful (levels + 1) Any :=
  Lawful.imp (Lawful.map (lawful_binary64.pair lawful_binary64) fun _ => rfl)
    fun _ _ => ⟨trivial, trivial⟩

theorem Node.lawful : Node.format.Lawful (levels + 3) Any :=
  Record.Lawful.format ⟨_, {
    lawful := .cons (lawful_plain lawful_text)
      (.cons (lawful_plain lawful_text)
        (.cons (lawful_plain Position.lawful) (.cons (lawful_plain Settings.lawful) .nil)))
    names := by decide
    commute := by simp }, fun _ => rfl⟩

theorem Edge.lawful : Edge.format.Lawful (levels + 1) Any :=
  Record.Lawful.format ⟨_, {
    lawful := .cons (lawful_plain lawful_text)
      (.cons (lawful_plain lawful_text)
        (.cons (lawful_plain lawful_text) (.cons (lawful_option Port.lawful rfl) .nil)))
    names := by decide
    commute := by simp }, fun _ => rfl⟩

theorem Graph.lawful : Graph.format.Lawful (levels + 5) Any :=
  Record.Lawful.format ⟨_, {
    lawful := .cons (lawful_plain Node.lawful.lists) (.cons (lawful_plain Edge.lawful.lists) .nil)
    names := by decide
    commute := by simp }, fun _ => rfl⟩

theorem Saved.lawful : Saved.format.Lawful (levels + 6) Any :=
  Record.Lawful.format ⟨_, {
    lawful := .cons (lawful_plain lawful_text)
      (.cons (lawful_plain lawful_text)
        (.cons (lawful_plain lawful_text) (.cons (lawful_plain Graph.lawful) .nil)))
    names := by decide
    commute := by simp }, fun _ => rfl⟩

theorem Severity.lawful : Severity.format.Lawful levels Any :=
  lawful_names (fun s => by cases s <;> decide) (by decide)

theorem Topic.lawful : Topic.format.Lawful levels Any :=
  lawful_names (fun t => by cases t <;> decide) (by decide)

theorem Finding.lawful : Finding.format.Lawful (levels + 1) Any :=
  Record.Lawful.format ⟨_, {
    lawful := .cons (lawful_plain Severity.lawful)
      (.cons (lawful_plain Topic.lawful)
        (.cons (lawful_plain lawful_text)
          (.cons (lawful_option lawful_text rfl)
            (.cons (lawful_option lawful_text rfl) (.cons (lawful_option Port.lawful rfl) .nil)))))
    names := by decide
    commute := by simp }, fun _ => rfl⟩

theorem ResourceKind.lawful : ResourceKind.format.Lawful levels Any :=
  lawful_names (fun k => by cases k <;> decide) (by decide)

theorem Missing.lawful : Missing.format.Lawful (levels + 2) Any :=
  Record.Lawful.format ⟨_, {
    lawful := .cons (lawful_plain ResourceKind.lawful)
      (.cons (lawful_plain lawful_text) (.cons (lawful_plain lawful_text.lists) .nil))
    names := by decide
    commute := by simp }, fun _ => rfl⟩

theorem ScriptStep.lawful :
    ScriptStep.format.Lawful (levels + 2) fun s => s.depth < UInt64.size :=
  Record.Lawful.format ⟨_, {
    lawful := .cons (lawful_plain lawful_text)
      (.cons (lawful_plain lawful_text)
        (.cons (lawful_plain lawful_text.lists)
          (.cons (lawful_plain_of lawful_count fun _ h => h) .nil)))
    names := by decide
    commute := by simp }, fun _ => rfl⟩

def Script.InWords (s : Script) : Prop := ∀ step ∈ s.steps, step.depth < UInt64.size

theorem Script.lawful : Script.format.Lawful (levels + 4) InWords :=
  Record.Lawful.format ⟨_, {
    lawful := .cons (lawful_plain_of ScriptStep.lawful.list fun _ h => h)
      (.cons (lawful_plain Missing.lawful.lists) (.cons (lawful_plain Finding.lawful.lists) .nil))
    names := by decide
    commute := by simp }, fun _ => rfl⟩

def Options.InWords (o : Options) : Prop :=
  o.indentWidth < UInt64.size ∧ o.maxSteps < UInt64.size ∧ o.maxBytes < UInt64.size ∧
    o.maxDepth < UInt64.size

theorem Options.lawful : Options.format.Lawful (levels + 1) InWords :=
  Record.Lawful.format ⟨_, {
    lawful := .cons (lawful_plain_of lawful_count fun _ h => h.1)
      (.cons (lawful_plain lawful_text)
        (.cons (lawful_plain lawful_text)
          (.cons (lawful_plain lawful_text)
            (.cons (lawful_plain lawful_bool)
              (.cons (lawful_plain_of lawful_count fun _ h => h.2.1)
                (.cons (lawful_plain_of lawful_count fun _ h => h.2.2.1)
                  (.cons (lawful_plain_of lawful_count fun _ h => h.2.2.2) .nil)))))))
    names := by decide
    commute := by simp }, fun _ => rfl⟩

namespace Event

def InWords : Event → Prop
  | graphChanged _ _ nodes edges => nodes < UInt64.size ∧ edges < UInt64.size
  | validated errors warnings infos =>
    errors < UInt64.size ∧ warnings < UInt64.size ∧ infos < UInt64.size
  | compiled steps unresolved => steps < UInt64.size ∧ unresolved < UInt64.size
  | compileFailed _ => True

theorem lawful_change : Change.record.Lawful levels fun c =>
    c.nodeCount < UInt64.size ∧ c.edgeCount < UInt64.size :=
  ⟨_, {
    lawful := .cons (lawful_plain lawful_bool)
      (.cons (lawful_plain lawful_bool)
        (.cons (lawful_plain_of lawful_count fun _ h => h.1)
          (.cons (lawful_plain_of lawful_count fun _ h => h.2) .nil)))
    names := by decide
    commute := by simp }, fun _ => rfl⟩

theorem lawful_tally : Tally.record.Lawful levels fun t =>
    t.errors < UInt64.size ∧ t.warnings < UInt64.size ∧ t.infos < UInt64.size :=
  ⟨_, {
    lawful := .cons (lawful_plain_of lawful_count fun _ h => h.1)
      (.cons (lawful_plain_of lawful_count fun _ h => h.2.1)
        (.cons (lawful_plain_of lawful_count fun _ h => h.2.2) .nil))
    names := by decide
    commute := by simp }, fun _ => rfl⟩

theorem lawful_yield : Yield.record.Lawful levels fun y =>
    y.steps < UInt64.size ∧ y.unresolved < UInt64.size :=
  ⟨_, {
    lawful := .cons (lawful_plain_of lawful_count fun _ h => h.1)
      (.cons (lawful_plain_of lawful_count fun _ h => h.2) .nil)
    names := by decide
    commute := by simp }, fun _ => rfl⟩

theorem lawful_failure : failureRecord.Lawful levels Any :=
  ⟨_, {
    lawful := .cons (lawful_plain lawful_text) .nil
    names := by decide
    commute := by simp }, fun _ => rfl⟩

theorem lawful_tagged : tagged.Lawful ["type"] levels InWords where
  tag := by decide
  names := by decide
  variants := by
    simp only [tagged, List.forall_mem_cons]
    exact ⟨lawful_record_of lawful_change (by decide) (by rintro (_ | _) _ ⟨⟩; rfl)
        (by rintro (_ | _) _ ⟨⟩ h; exact h),
      lawful_record_of lawful_tally (by decide) (by rintro (_ | _) _ ⟨⟩; rfl)
        (by rintro (_ | _) _ ⟨⟩ h; exact h),
      lawful_record_of lawful_yield (by decide) (by rintro (_ | _) _ ⟨⟩; rfl)
        (by rintro (_ | _) _ ⟨⟩ h; exact h),
      lawful_record lawful_failure (by decide) (by rintro (_ | _) _ ⟨⟩; rfl),
      List.forall_mem_nil _⟩
  total e := by cases e <;> rfl

theorem lawful : format.Lawful (levels + 1) InWords := lawful_tagged.format

end Event

theorem Credential.lawful : Credential.format.Lawful (levels + 1) Any :=
  Record.Lawful.format ⟨_, {
    lawful := .cons (lawful_plain lawful_text)
      (.cons (lawful_plain lawful_text)
        (.cons (lawful_plain lawful_text)
          (.cons (lawful_plain lawful_uint16)
            (.cons (lawful_option lawful_text rfl)
              (.cons (lawful_option lawful_uint32 rfl)
                (.cons (lawful_option lawful_binary64 rfl) .nil))))))
    names := by decide
    commute := by simp }, fun _ => rfl⟩

theorem DeviceGroup.lawful : DeviceGroup.format.Lawful (levels + 2) Any :=
  Record.Lawful.format ⟨_, {
    lawful := .cons (lawful_plain lawful_text.lists) .nil
    names := by decide
    commute := by simp }, fun _ => rfl⟩

/-- A catalog is read back from its entries in any order. -/
theorem Catalog.lawful {α : Type} {f : Json.Format α} (h : f.Lawful levels Any) :
    (Catalog.format f).Lawful (levels + 1) Any where
  fits {c} _ := by
    have hnames := c.nodup_names
    refine .object (by rwa [List.map_map]) fun m hm => ?_
    obtain ⟨e, -, rfl⟩ := List.mem_map.mp hm
    exact h.fits trivial
  not_null _ := by simp [Catalog.format]
  reads {c} _ arrange harrange setting hroom := by
    obtain ⟨inner, henter, hinner⟩ := setting.exists_enter hroom
    obtain ⟨arranged, heq, hperm⟩ := harrange.object (c.entries.map fun e => (e.1, f.write e.2))
      (by rw [List.map_map]; exact c.nodup_names)
    have hwritten : List.Forall₂ (fun m e => m = (e.1, arrange (f.write e.2)))
        ((c.entries.map fun e => (e.1, f.write e.2)).map fun m => (m.1, arrange m.2))
        c.entries := by
      rw [List.map_map]
      exact List.forall₂_map_left_iff.mpr (List.forall₂_same.mpr fun _ _ => rfl)
    obtain ⟨entries, hown, hsame⟩ := List.perm_comp_forall₂ hperm hwritten
    have hread : (Source.ofMembers arranged).mapM (fun m => do
        let name ← m.1.read
        return (name, ← f.read inner m.2)) = .ok entries := by
      rw [Source.ofMembers_eq_map]
      refine mapM_ok (List.forall₂_map_left_iff.mpr (hown.imp ?_))
      rintro _ ⟨name, a⟩ rfl
      simp only [Leaf.read, bind, Except.bind, h.reads trivial harrange hinner]
      rfl
    show Catalog.ofList <$> Decoder.members f.read setting (Source.ofValue
      (arrange (.object (c.entries.map fun e => (e.1, f.write e.2))))) = .ok c
    rw [heq, Source.ofValue, Decoder.members]
    simp only [henter, bind, Except.bind] at hread ⊢
    rw [hread]
    exact congrArg Except.ok (Catalog.ofList_eq hsame)

theorem Inventory.lawful : Inventory.format.Lawful (levels + 4) Any :=
  Record.Lawful.format ⟨_, {
    lawful := .cons (lawful_plain (Catalog.lawful Credential.lawful))
      (.cons (lawful_plain (Catalog.lawful DeviceGroup.lawful))
        (.cons (lawful_plain (Catalog.lawful lawful_text))
          (.cons (lawful_plain (Catalog.lawful lawful_text)) .nil)))
    names := by decide
    commute := by simp }, fun _ => rfl⟩

namespace CommandLine

theorem graphOfValue_object (members : List (String × Json.Value)) :
    graphOfValue (.object members) =
      if (Json.Value.member? "graph" members).isSome then
        Saved.graph <$> Saved.format.ofValue (.object members)
      else Graph.format.ofValue (.object members) := rfl

theorem graphOfValue_graph (g : Graph) : graphOfValue (Graph.format.write g) = .ok g := by
  have hread := (@Graph.lawful 0).ofValue_write (a := g) trivial
  have hbare : ¬ (Json.Value.member? "graph" (Graph.record.members g)).isSome := by
    simp [Json.Value.member?, Record.members, Graph.record, lenient, plain]
  have hwrite : Graph.format.write g = .object (Graph.record.members g) := rfl
  rw [hwrite] at hread ⊢
  rw [graphOfValue_object, if_neg hbare, hread]

theorem graphOfValue_saved (w : Saved) :
    graphOfValue (Saved.format.write w) = .ok w.graph := by
  have hread := (@Saved.lawful 0).ofValue_write (a := w) trivial
  have hsaved : (Json.Value.member? "graph" (Saved.record.members w)).isSome := by
    simp [Json.Value.member?, Record.members, Saved.record, needed, lenient, plain]
  have hwrite : Saved.format.write w = .object (Saved.record.members w) := rfl
  rw [hwrite] at hread ⊢
  rw [graphOfValue_object, if_pos hsaved, hread]
  rfl

/-- The text of a value that holds a graph is a file of the graph. -/
theorem loadGraph_eq {read : Reader} {path text : String} {v : Json.Value} {room : Nat}
    {g : Graph} (hread : read path = .ok text) (hfits : v.Fits room)
    (hroom : room ≤ Source.depthLimit) (htext : Document.ofText text = ⟨Source.ofValue v, false⟩)
    (hgraph : graphOfValue v = .ok g) : loadGraph read path = .ok g := by
  simp only [loadGraph, hread, Value.ofText_eq hfits hroom htext, bind, Except.bind, hgraph]

/-- A graph is loaded from its own text and from that of a saved runbook around it. -/
theorem loadGraph_text {w : Saved} {read : Reader} {path text : String}
    (htext : text ∈ [Graph.format.compact w.graph, Graph.format.pretty w.graph,
      Saved.format.compact w, Saved.format.pretty w]) (hread : read path = .ok text) :
    loadGraph read path = .ok w.graph := by
  have hgraph := (@Graph.lawful 0).fits (a := w.graph) trivial
  have hsaved := (@Saved.lawful 0).fits (a := w) trivial
  simp only [List.mem_cons, List.not_mem_nil, or_false] at htext
  rcases htext with rfl | rfl | rfl | rfl
  · exact loadGraph_eq hread hgraph (by decide) (Document.ofText_compact hgraph)
      (graphOfValue_graph w.graph)
  · exact loadGraph_eq hread hgraph (by decide) (Document.ofText_pretty hgraph)
      (graphOfValue_graph w.graph)
  · exact loadGraph_eq hread hsaved (by decide) (Document.ofText_compact hsaved)
      (graphOfValue_saved w)
  · exact loadGraph_eq hread hsaved (by decide) (Document.ofText_pretty hsaved)
      (graphOfValue_saved w)

end CommandLine

/-- Whatever is saved is found again, and so are the parts of a node with several shapes; counts
have to be machine words. A file with a graph and a file with a saved runbook around it hold the
same graph. -/
theorem saved_forms_faithful :
    (Graph.format.Faithful Any ∧ Saved.format.Faithful Any ∧ Inventory.format.Faithful Any ∧
      Options.format.Faithful Options.InWords ∧ Finding.format.Faithful Any ∧
      Event.format.Faithful Event.InWords ∧ Script.format.Faithful Script.InWords) ∧
    (Settings.format.Faithful Any ∧ Step.format.Faithful Any ∧ Target.format.Faithful Any ∧
      Port.format.Faithful Any) ∧
    ∀ (w : Saved) (read : CommandLine.Reader) (path text : String),
      text ∈ [Graph.format.compact w.graph, Graph.format.pretty w.graph,
        Saved.format.compact w, Saved.format.pretty w] →
      read path = .ok text → CommandLine.loadGraph read path = .ok w.graph := by
  refine ⟨⟨?_, ?_, ?_, ?_, ?_, ?_, ?_⟩, ⟨?_, ?_, ?_, ?_⟩, ?_⟩
  · exact (@Graph.lawful 0).faithful (by decide)
  · exact (@Saved.lawful 0).faithful (by decide)
  · exact (@Inventory.lawful 0).faithful (by decide)
  · exact (@Options.lawful 0).faithful (by decide)
  · exact (@Finding.lawful 0).faithful (by decide)
  · exact (@Event.lawful 0).faithful (by decide)
  · exact (@Script.lawful 0).faithful (by decide)
  · exact (@Settings.lawful 0).faithful (by decide)
  · exact (@Step.lawful 0).format.faithful (by decide)
  · exact (@Target.lawful 0).faithful (by decide)
  · exact (@Port.lawful 0).faithful (by decide)
  · exact fun _ _ _ _ htext hread => CommandLine.loadGraph_text htext hread

/-- A saved runbook that deploys to a group of devices and saves what was running if a check of
them fails. -/
def Saved.nightly : Saved where
  id := "nightly"
  name := "Nightly \"mtu\" change"
  description := "two\nlines"
  graph := {
    nodes := [
      .ofStep "begin" .start .origin,
      { id := "login", label := "Log in", position := ⟨.ofInt 120, .ofInt (-40)⟩
        settings := {
          step := .connect ⟨some "lab", some (.group "core")⟩
          timeoutSeconds := some 30 } },
      { id := "roll", label := "", position := .origin
        settings := {
          step := .deploy ⟨none, ["interface vlan 10", "mtu " ++ Template.written "mtu"], true⟩
          policy := some ⟨2, 5, .rollback⟩ } },
      .ofStep "probe" (.check ⟨"ping 10.0.0.1", "!!!"⟩) .origin,
      .ofStep "keep" (.backup ⟨none, some "tftp://10.0.0.9/core"⟩) .origin,
      .ofStep "done" .finish .origin]
    edges := [
      ⟨"e1", "begin", "login", none⟩, ⟨"e2", "login", "roll", none⟩, ⟨"e3", "roll", "probe", none⟩,
      ⟨"e4", "probe", "done", some .success⟩, ⟨"e5", "probe", "keep", some .failure⟩,
      ⟨"e6", "keep", "done", none⟩] }

/-- The options as they are before anything is set, the event of a validation, a script of one
step, and a saved runbook with nodes of several kinds, which also opens as the graph in it. -/
theorem saved_forms_faithful_samples :
    Options.format.ofText (Options.format.pretty {}) = .ok {} ∧
    Event.format.ofValue (Event.format.write (.validated 1 2 0)) = .ok (.validated 1 2 0) ∧
    Script.format.ofText (Script.format.compact ⟨[⟨"start", "pass", [], 0⟩], [], []⟩) =
      .ok ⟨[⟨"start", "pass", [], 0⟩], [], []⟩ ∧
    Saved.format.ofText (Saved.format.compact .nightly) = .ok .nightly ∧
    Graph.format.ofValue (Graph.format.write Saved.nightly.graph) = .ok Saved.nightly.graph ∧
    CommandLine.loadGraph (fun _ => .ok (Saved.format.pretty .nightly)) "nightly.json" =
      .ok Saved.nightly.graph ∧
    CommandLine.loadGraph (fun _ => .ok (Graph.format.compact Saved.nightly.graph)) "g.json" =
      .ok Saved.nightly.graph := by
  obtain ⟨⟨hgraph, hsaved, -, hoptions, -, hevent, hscript⟩, -, hload⟩ := saved_forms_faithful
  refine ⟨hoptions.ofText_pretty {} ?_, hevent.ofValue_write (.validated 1 2 0) ?_,
    hscript.ofText_compact ⟨[⟨"start", "pass", [], 0⟩], [], []⟩ ?_,
    hsaved.ofText_compact .nightly trivial, hgraph.ofValue_write Saved.nightly.graph trivial,
    hload .nightly _ _ _ (by simp) rfl, hload .nightly _ _ _ (by simp) rfl⟩
  · exact ⟨by decide, by decide, by decide, by decide⟩
  · exact ⟨by decide, by decide, by decide⟩
  · intro step hstep
    obtain rfl := List.mem_singleton.mp hstep
    decide

end Runbook
