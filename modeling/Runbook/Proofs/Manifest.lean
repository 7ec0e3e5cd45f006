import Mathlib.Tactic.Common
import Runbook.Proofs.FirstOccurrences
import Runbook.Proofs.PathTree

/-!
What a script leaves open. A step mentions what its fields name, and along the steps of a script
every mention without an answer is an encounter of its node with a reference. However often a pair
comes up, the manifest has it once, where it first came up: in the entry of the reference and as a
warning at the node.
-/
namespace Runbook

namespace Step

def batch? : Step → Option (Option String × List String)
  | deploy d => some (d.template, d.commands)
  | execute e => some (e.template, e.commands)
  | _ => none

/-- The references of a step: those in its own fields, and if its template is known the variables
in the lines of it that count. -/
inductive Mentions (resolver : Resolver) : Step → Reference → Prop
  | deviceGroup {c : Connection} {name : String} (h : c.target = some (.group name)) :
      Mentions resolver (.connect c) ⟨.deviceGroup, name⟩
  | credential {c : Connection} {name : String} (h : c.credential = some name) :
      Mentions resolver (.connect c) ⟨.credential, name⟩
  | template {step : Step} {name : String} {commands : List String}
      (h : step.batch? = some (some name, commands)) : Mentions resolver step ⟨.template, name⟩
  | templateLine {step : Step} {name text line parameter : String} {commands : List String}
      (h : step.batch? = some (some name, commands)) (htext : resolver.template name = some text)
      (hline : line ∈ commandLines text) (hparameter : parameter ∈ Template.names line) :
      Mentions resolver step ⟨.parameter, parameter⟩
  | command {step : Step} {template : Option String} {line parameter : String}
      {commands : List String} (h : step.batch? = some (template, commands))
      (hline : line ∈ commands) (hparameter : parameter ∈ Template.names line) :
      Mentions resolver step ⟨.parameter, parameter⟩
  | check {c : StatusCheck} {parameter : String}
      (hparameter : parameter ∈ Template.names c.command) :
      Mentions resolver (.check c) ⟨.parameter, parameter⟩

variable {resolver : Resolver}

theorem mem_variableReferences {line : String} {r : Reference} :
    r ∈ variableReferences line ↔ ∃ name ∈ Template.names line, r = ⟨.parameter, name⟩ := by
  simp [variableReferences, eq_comm]

theorem references_of_batch {step : Step} {template : Option String} {commands : List String}
    (h : step.batch? = some (template, commands)) :
    step.references resolver =
      templateReferences resolver template ++ commands.flatMap variableReferences := by
  cases step with
  | deploy d =>
    obtain ⟨rfl, rfl⟩ := Prod.mk.inj (Option.some.inj h)
    rfl
  | execute e =>
    obtain ⟨rfl, rfl⟩ := Prod.mk.inj (Option.some.inj h)
    rfl
  | _ => cases h

theorem mentions_of_mem_batch {step : Step} {template : Option String} {commands : List String}
    (h : step.batch? = some (template, commands)) {r : Reference}
    (hr : r ∈ step.references resolver) : step.Mentions resolver r := by
  rw [references_of_batch h] at hr
  rcases List.mem_append.mp hr with hr | hr
  · cases template with
    | none => simp [templateReferences] at hr
    | some name =>
      rw [templateReferences] at hr
      rcases List.mem_cons.mp hr with rfl | hr
      · exact .template h
      · obtain ⟨line, hline, hr⟩ := List.mem_flatMap.mp hr
        obtain ⟨parameter, hparameter, rfl⟩ := mem_variableReferences.mp hr
        cases htext : resolver.template name with
        | none => simp [htext] at hline
        | some text =>
          have hline : line ∈ commandLines text := by simpa [htext] using hline
          exact .templateLine h htext hline hparameter
  · obtain ⟨line, hline, hr⟩ := List.mem_flatMap.mp hr
    obtain ⟨parameter, hparameter, rfl⟩ := mem_variableReferences.mp hr
    exact .command h hline hparameter

/-- What is looked up for a step is what it mentions. -/
theorem mem_references_iff {step : Step} {r : Reference} :
    r ∈ step.references resolver ↔ step.Mentions resolver r := by
  constructor
  · intro hr
    cases step with
    | connect c =>
      simp only [references, List.mem_append] at hr
      rcases hr with hr | hr
      · split at hr
        · rename_i name htarget
          obtain rfl := List.mem_singleton.mp hr
          exact .deviceGroup htarget
        · simp at hr
      · split at hr
        · rename_i name hcredential
          obtain rfl := List.mem_singleton.mp hr
          exact .credential hcredential
        · simp at hr
    | deploy d => exact mentions_of_mem_batch rfl hr
    | execute e => exact mentions_of_mem_batch rfl hr
    | check c =>
      obtain ⟨parameter, hparameter, rfl⟩ := mem_variableReferences.mp hr
      exact .check hparameter
    | start => simp [references] at hr
    | finish => simp [references] at hr
    | task t => simp [references] at hr
    | condition c => simp [references] at hr
    | loop l => simp [references] at hr
    | backup b => simp [references] at hr
  · intro hr
    cases hr with
    | deviceGroup h => simp [references, h]
    | credential h => simp [references, h]
    | template h => simp [references_of_batch h, templateReferences]
    | templateLine h htext hline hparameter =>
      rw [references_of_batch h, templateReferences, htext]
      exact List.mem_append_left _ (List.mem_cons_of_mem _ (List.mem_flatMap_of_mem hline
        (mem_variableReferences.mpr ⟨_, hparameter, rfl⟩)))
    | command h hline hparameter =>
      rw [references_of_batch h]
      exact List.mem_append_right _ (List.mem_flatMap_of_mem hline
        (mem_variableReferences.mpr ⟨_, hparameter, rfl⟩))
    | check hparameter => exact mem_variableReferences.mpr ⟨_, hparameter, rfl⟩

theorem mem_unresolved_iff {step : Step} {r : Reference} :
    r ∈ step.unresolved resolver ↔ step.Mentions resolver r ∧ r.isResolved resolver = false := by
  simp [unresolved, mem_references_iff]

end Step

def Note.encounter? : Note → Option (NodeId × Reference)
  | unresolved node r => some (node, r)
  | turnsBack _ _ _ => none

theorem Note.encounter?_eq_some {note : Note} {p : NodeId × Reference}
    (h : note.encounter? = some p) : note = .unresolved p.1 p.2 := by
  cases note with
  | unresolved node r =>
    obtain rfl := Option.some.inj h
    rfl
  | turnsBack edge source target => cases h

theorem Note.filterMap_encounter?_unresolved (node : NodeId) (references : List Reference) :
    (references.map (unresolved node)).filterMap encounter? = references.map (node, ·) := by
  rw [List.filterMap_map]
  exact congrFun List.filterMap_eq_map _

/-- Where a path stops no reference comes up. -/
theorem Exits.filterMap_encounter?_stopped (resolver : Resolver) (e : Edge) (stop : Stop)
    (rest : Exits) : ((stopped e stop rest).notes resolver).filterMap Note.encounter? =
      (rest.notes resolver).filterMap Note.encounter? := by
  cases stop with
  | turnsBack => exact List.filterMap_cons_none rfl
  | nextRound => simp [notes]
  | nowhere => simp [notes]

/-- The nodes of some steps with the references that they mention and that have no answer, step
after step and for each step in the order of its lookups. -/
def Graph.encounters (g : Graph) (resolver : Resolver) (steps : List ScriptStep) :
    List (NodeId × Reference) :=
  steps.flatMap fun s =>
    (((g.node? s.node).map fun node => node.settings.step.unresolved resolver).getD []).map
      fun r => (s.node, r)

namespace Graph

variable {g : Graph} {resolver : Resolver}

theorem mem_encounters_iff {steps : List ScriptStep} {n : NodeId} {r : Reference} :
    (n, r) ∈ g.encounters resolver steps ↔ (∃ s ∈ steps, s.node = n) ∧
      ∃ node, g.node? n = some node ∧ node.settings.step.Mentions resolver r ∧
        r.isResolved resolver = false := by
  constructor
  · intro h
    obtain ⟨s, hs, h⟩ := List.mem_flatMap.mp h
    obtain ⟨r', hr, heq⟩ := List.mem_map.mp h
    obtain ⟨rfl, rfl⟩ := Prod.mk.inj heq
    cases hnode : g.node? s.node with
    | none => simp [hnode] at hr
    | some node =>
      have hr : r' ∈ node.settings.step.unresolved resolver := by simpa [hnode] using hr
      exact ⟨⟨s, hs, rfl⟩, node, rfl, Step.mem_unresolved_iff.mp hr⟩
  · intro hall
    obtain ⟨⟨s, hs, rfl⟩, node, hnode, hr⟩ := hall
    refine List.mem_flatMap_of_mem hs (List.mem_map_of_mem ?_)
    rw [hnode]
    exact Step.mem_unresolved_iff.mpr hr

theorem encounters_append (steps others : List ScriptStep) :
    g.encounters resolver (steps ++ others) =
      g.encounters resolver steps ++ g.encounters resolver others :=
  List.flatMap_append

/-- A visit meets the references of its node, then those behind it. -/
theorem encounters_visit {node : Node} (hnode : g.node? node.id = some node) (exits : Exits)
    (own : Node → String) (indent : String) (parent : Option NodeId) (depth : Nat)
    (hexits : (exits.notes resolver).filterMap Note.encounter? =
      g.encounters resolver ((exits.steps own indent node depth).flatMap Prod.snd)) :
    ((Visit.mk node exits).notes resolver).filterMap Note.encounter? =
      g.encounters resolver ((Visit.mk node exits).steps own indent parent depth) := by
  rw [Visit.notes, List.filterMap_append, Note.filterMap_encounter?_unresolved, hexits,
    Visit.steps, encounters, encounters, List.flatMap_cons, hnode]
  rfl

/-- The notes of a walk tell of the encounters along its steps. -/
theorem encounters_of_unfolds {path loops : List NodeId} {last : Node} {edges : List Edge}
    {exits : Exits} (h : g.Unfolds path loops last edges exits) (resolver : Resolver)
    (own : Node → String) (indent : String) (depth : Nat) :
    (exits.notes resolver).filterMap Note.encounter? =
      g.encounters resolver ((exits.steps own indent last depth).flatMap Prod.snd) := by
  induction h generalizing depth with
  | nil => rfl
  | stopped hseen hrest ih =>
    rw [Exits.filterMap_encounter?_stopped, ih depth]
    rfl
  | nowhere hfresh hnode hrest ih =>
    rw [Exits.filterMap_encounter?_stopped, ih depth]
    rfl
  | onward hfresh hnode hbehind hrest ihbehind ih =>
    have hid := id_of_node? hnode
    rw [← hid] at hnode
    rw [Exits.notes, List.filterMap_append, ih depth, Exits.steps, List.flatMap_cons,
      encounters_append, encounters_visit hnode _ own indent _ _ (ihbehind _)]

end Graph

/-- No name of a kind is the beginning of another. -/
theorem ResourceKind.name_append_injective {kind kind' : ResourceKind} {s s' : List Char}
    (h : kind.name.toList ++ s = kind'.name.toList ++ s') : kind = kind' ∧ s = s' := by
  cases kind <;> cases kind' <;> simp_all [name]

namespace Note

theorem encounter?_injective (a b : Note) (p : NodeId × Reference) (ha : a.encounter? = some p)
    (hb : b.encounter? = some p) : a = b := by
  rw [encounter?_eq_some ha, encounter?_eq_some hb]

theorem missing_eq (notes : List Note) :
    missing notes = ((notes.filterMap encounter?).map Prod.snd).eraseDups.map
      (Missing.entry (notes.filterMap encounter?)) := by
  rw [← Missing.foldl_add, List.foldl_filterMap, missing]
  congr 1
  funext entries note
  cases note <;> rfl

/-- The warnings about references are those of the encounters. -/
theorem filter_findings (notes : List Note) :
    (notes.map finding).filter (fun f => f.topic = .unresolvedResource) =
      (notes.filterMap encounter?).map fun p => (unresolved p.1 p.2).finding := by
  induction notes with
  | nil => rfl
  | cons note rest ih =>
    cases note with
    | unresolved node r =>
      rw [List.map_cons, List.filter_cons_of_pos (by simp [finding]), ih]
      rfl
    | turnsBack edge source target =>
      rw [List.map_cons, List.filter_cons_of_neg (by simp [finding]), ih]
      rfl

/-- A warning shows its node and its reference. -/
theorem finding_unresolved_injective {n n' : NodeId} {r r' : Reference}
    (h : (unresolved n r).finding = (unresolved n' r').finding) : n = n' ∧ r = r' := by
  have hnode : n = n' := Option.some.inj (congrArg Finding.node h)
  subst hnode
  have hmessage := congrArg (fun f => f.message.toList) h
  simp only [finding, quotedName, String.toList_append, List.append_assoc,
    List.append_cancel_left_eq] at hmessage
  obtain ⟨hkind, hid⟩ := ResourceKind.name_append_injective hmessage
  have hid := List.append_cancel_right (List.append_cancel_left (List.append_cancel_left hid))
  cases r
  cases r'
  cases hkind
  cases String.toList_inj.mp hid
  exact ⟨rfl, rfl⟩

end Note

/-- The manifest of a script is exact: it has the references that nodes of its steps mention and
that have no answer, each once and with each node once, in the order in which they first come up
along the steps, and a warning for each pair of a node and a reference in that order. -/
structure Graph.HasExactManifest (g : Graph) (resolver : Resolver) (script : Script) : Prop where
  mem_iff : ∀ (r : Reference) (n : NodeId),
    (∃ m ∈ script.resources, m.reference = r ∧ n ∈ m.referencedBy) ↔
      (∃ s ∈ script.steps, s.node = n) ∧ ∃ node, g.node? n = some node ∧
        node.settings.step.Mentions resolver r ∧ r.isResolved resolver = false
  nodup_references : (script.resources.map Missing.reference).Nodup
  nodup_referencedBy : ∀ m ∈ script.resources, m.referencedBy.Nodup
  references_eq : script.resources.map Missing.reference =
    ((g.encounters resolver script.steps).map Prod.snd).eraseDups
  referencedBy_eq : ∀ m ∈ script.resources, m.referencedBy =
    (((g.encounters resolver script.steps).filter fun p => p.2 = m.reference).map
      Prod.fst).eraseDups
  warnings_eq : script.diagnostics.filter (fun f => f.topic = .unresolvedResource) =
    (g.encounters resolver script.steps).eraseDups.map fun p => (Note.unresolved p.1 p.2).finding
  nodup_warnings :
    (script.diagnostics.filter fun f => f.topic = .unresolvedResource).Nodup

namespace Graph

variable {g : Graph} {resolver : Resolver}

/-- Without repeats a list names the nodes of a reference in the order in which they came up. -/
theorem referencedBy_entry_eraseDups (pairs : List (NodeId × Reference)) (r : Reference) :
    (Missing.entry pairs.eraseDups r).referencedBy =
      ((pairs.filter fun p => p.2 = r).map Prod.fst).eraseDups := by
  have hchoose : ∀ l : List (NodeId × Reference), (l.filter fun p => p.2 = r).map Prod.fst =
      l.filterMap fun p => if p.2 = r then some p.1 else none := by
    intro l
    rw [← List.filterMap_eq_map, List.filterMap_filter]
    simp
  have hapart : ∀ (p q : NodeId × Reference) (n : NodeId),
      (if p.2 = r then some p.1 else none) = some n →
      (if q.2 = r then some q.1 else none) = some n → p = q := by
    rintro ⟨n, r⟩ ⟨n', r'⟩ m hp hq
    simp only [Option.ite_none_right_eq_some, Option.some.injEq] at hp hq
    obtain ⟨rfl, rfl⟩ := hp
    obtain ⟨rfl, rfl⟩ := hq
    rfl
  rw [Missing.entry, hchoose, hchoose, filterMap_eraseDups hapart]

/-- Notes without repeats make an exact manifest if they tell of the encounters along the steps. -/
theorem hasExactManifest_of_encounters {script : Script} {notes : List Note}
    (hnotes : notes.filterMap Note.encounter? = g.encounters resolver script.steps)
    (hresources : script.resources = Note.missing notes.eraseDups)
    (hdiagnostics : script.diagnostics = notes.eraseDups.map Note.finding) :
    g.HasExactManifest resolver script := by
  have hpairs : notes.eraseDups.filterMap Note.encounter? =
      (g.encounters resolver script.steps).eraseDups := by
    rw [filterMap_eraseDups Note.encounter?_injective, hnotes]
  have hentries : script.resources =
      ((g.encounters resolver script.steps).map Prod.snd).eraseDups.map
        (Missing.entry (g.encounters resolver script.steps).eraseDups) := by
    rw [hresources, Note.missing_eq, hpairs, eraseDups_map_eraseDups]
  have hreferences : script.resources.map Missing.reference =
      ((g.encounters resolver script.steps).map Prod.snd).eraseDups := by
    rw [hentries, List.map_map]
    exact List.map_id _
  have hby : ∀ m ∈ script.resources, m.referencedBy =
      (((g.encounters resolver script.steps).filter fun p => p.2 = m.reference).map
        Prod.fst).eraseDups := by
    intro m hm
    rw [hentries] at hm
    obtain ⟨r, -, rfl⟩ := List.mem_map.mp hm
    exact referencedBy_entry_eraseDups _ r
  have hwarnings : script.diagnostics.filter (fun f => f.topic = .unresolvedResource) =
      (g.encounters resolver script.steps).eraseDups.map
        fun p => (Note.unresolved p.1 p.2).finding := by
    rw [hdiagnostics, Note.filter_findings, hpairs]
  refine ⟨fun r n => ?_, ?_, ?_, hreferences, hby, hwarnings, ?_⟩
  · rw [← mem_encounters_iff]
    constructor
    · intro hentry
      obtain ⟨m, hm, rfl, hn⟩ := hentry
      rw [hby m hm] at hn
      simpa using hn
    · intro hpair
      have hr : r ∈ script.resources.map Missing.reference := by
        rw [hreferences]
        exact List.mem_eraseDups.mpr (List.mem_map.mpr ⟨(n, r), hpair, rfl⟩)
      obtain ⟨m, hm, rfl⟩ := List.mem_map.mp hr
      refine ⟨m, hm, rfl, ?_⟩
      rw [hby m hm]
      simpa using hpair
  · rw [hreferences]
    exact nodup_eraseDups _
  · intro m hm
    rw [hby m hm]
    exact nodup_eraseDups _
  · rw [hwarnings]
    refine List.Nodup.map_on ?_ (nodup_eraseDups _)
    rintro ⟨n, r⟩ - ⟨n', r'⟩ - heq
    obtain ⟨rfl, rfl⟩ := Note.finding_unresolved_injective heq
    rfl

end Graph

/-- Whatever compiles has an exact manifest. -/
theorem Compiler.manifest_exact {c : Compiler} {g : Graph} {resolver : Resolver} {script : Script}
    (hids : (g.nodes.map Node.id).Nodup) (h : c.compile g resolver = .ok script) :
    g.HasExactManifest resolver script := by
  obtain ⟨-, start, exits, hstart, htree, rfl⟩ := exists_tree_of_compile h
  have hmem : start ∈ g.nodes := Graph.mem_nodes_of_ofKind hstart
  have hnode : g.node? start.id = some start := Graph.node?_of_mem hids hmem
  have hbehind := fun own indent => Graph.encounters_of_unfolds htree resolver own indent 0
  exact Graph.hasExactManifest_of_encounters
    (Graph.encounters_visit hnode exits _ _ none 0 (hbehind _ _)) rfl rfl

theorem Compiler.manifest_exact_patrol : ∃ bytes script,
    (⟨.standard, { maxBytes := bytes }⟩ : Compiler).compile .patrol ({} : Inventory).resolver =
      .ok script ∧
    (Graph.patrol.nodes.map Node.id).Nodup ∧
    Graph.patrol.HasExactManifest ({} : Inventory).resolver script := by
  obtain ⟨bytes, script, h⟩ := exists_compile_patrol .standard false ({} : Inventory).resolver
  exact ⟨bytes, script, h, Graph.patrol_ids_nodup, manifest_exact Graph.patrol_ids_nodup h⟩

end Runbook
