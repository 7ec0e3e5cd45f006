import Mathlib.Tactic.Common
import Runbook.Proofs.Catalogs
import Runbook.Proofs.Manifest
import Runbook.Proofs.Tokens

/-!
How a manifest is settled. Once every reference that a script leaves open has an answer, all that
can come to light are variables in the templates that were not known before; once those have
answers as well, nothing is left open, for what takes the place of a token is not looked at again.
And a script that leaves nothing open stays as it is, whatever else is answered. Both rest on what
a step mentions under more answers: what it mentioned before, and what new templates reveal.
-/
namespace Runbook

structure Resolver.Extends (s r : Resolver) : Prop where
  credential : ∀ id value, r.credential id = some value → s.credential id = some value
  deviceGroup : ∀ id value, r.deviceGroup id = some value → s.deviceGroup id = some value
  template : ∀ id value, r.template id = some value → s.template id = some value
  parameter : ∀ id value, r.parameter id = some value → s.parameter id = some value

def Resolver.Answers (r : Resolver) (script : Script) : Prop :=
  ∀ m ∈ script.resources, m.reference.isResolved r = true

/-- The tokens of the lines of a template that count are tokens of its text. -/
theorem mem_names_of_mem_commandLines {text line name : String} (hline : line ∈ commandLines text)
    (hname : name ∈ Template.names line) : name ∈ Template.names text := by
  obtain ⟨hline, -⟩ := List.mem_filter.mp hline
  obtain ⟨whole, hwhole, rfl⟩ := List.mem_map.mp hline
  refine Template.names_subset_of_infix ?_ hname
  rw [String.toList_ofList]
  exact (Text.isPrefix_trimEnd _).isInfix.trans (Text.infix_of_mem_lines hwhole)

namespace Step

/-- A variable in the text that `s` gives to a template of the step that is not known to `r`. -/
def Reveals (step : Step) (r s : Resolver) (reference : Reference) : Prop :=
  reference.kind = .parameter ∧ ∃ name text, step.Mentions r ⟨.template, name⟩ ∧
    r.template name = none ∧ s.template name = some text ∧ reference.id ∈ Template.names text

variable {r s : Resolver} {step : Step} {reference : Reference}

/-- With more answers a step mentions nothing new but what unknown templates reveal. -/
theorem Mentions.of_extends (h : step.Mentions s reference) (hext : s.Extends r) :
    step.Mentions r reference ∨ step.Reveals r s reference := by
  cases h with
  | deviceGroup htarget => exact .inl (.deviceGroup htarget)
  | credential hcredential => exact .inl (.credential hcredential)
  | template hbatch => exact .inl (.template hbatch)
  | @templateLine _ name text line parameter commands hbatch htext hline hparameter =>
    cases hknown : r.template name with
    | none =>
      exact .inr ⟨rfl, name, text, .template hbatch, hknown, htext,
        mem_names_of_mem_commandLines hline hparameter⟩
    | some known =>
      obtain rfl : known = text :=
        Option.some.inj ((hext.template name known hknown).symm.trans htext)
      exact .inl (.templateLine hbatch hknown hline hparameter)
  | command hbatch hline hparameter => exact .inl (.command hbatch hline hparameter)
  | check hparameter => exact .inl (.check hparameter)

def IsAnswered (step : Step) (r : Resolver) : Prop :=
  ∀ reference, step.Mentions r reference → reference.isResolved r = true

theorem unresolved_eq_nil_iff : step.unresolved r = [] ↔ step.IsAnswered r := by
  simp [List.eq_nil_iff_forall_not_mem, mem_unresolved_iff, IsAnswered]

end Step

/-- An answer stays when others are added. -/
theorem answer_eq {α : Type} {f g : String → Option α}
    (h : ∀ id value, f id = some value → g id = some value) {id : String}
    (hf : (f id).isSome = true) : g id = f id := by
  obtain ⟨value, hvalue⟩ := Option.isSome_iff_exists.mp hf
  rw [hvalue, h id value hvalue]

namespace Resolver.Extends

variable {r s : Resolver}

theorem isResolved (h : s.Extends r) {reference : Reference}
    (hr : reference.isResolved r = true) : reference.isResolved s = true := by
  obtain ⟨kind, id⟩ := reference
  cases kind with
  | credential => exact (congrArg Option.isSome (answer_eq h.credential hr)).trans hr
  | deviceGroup => exact (congrArg Option.isSome (answer_eq h.deviceGroup hr)).trans hr
  | template => exact (congrArg Option.isSome (answer_eq h.template hr)).trans hr
  | parameter => exact (congrArg Option.isSome (answer_eq h.parameter hr)).trans hr

theorem isAnswered (h : s.Extends r) {step : Step} (hstep : step.IsAnswered r) :
    step.IsAnswered s := by
  intro reference hmentions
  rcases hmentions.of_extends h with hmentions | hreveals
  · exact h.isResolved (hstep reference hmentions)
  · obtain ⟨-, name, -, htemplate, hnone, -⟩ := hreveals
    have hknown : (r.template name).isSome = true := hstep _ htemplate
    rw [hnone] at hknown
    cases hknown

theorem fill_eq (h : s.Extends r) {line : String}
    (hline : ∀ name ∈ Template.names line, (r.parameter name).isSome = true) :
    s.fill line = r.fill line := by
  refine Template.substitute_congr fun name hname => ?_
  rw [variableText, variableText, answer_eq h.parameter (hline name hname)]

theorem commands_eq (h : s.Extends r) {step : Step} (hstep : step.IsAnswered r)
    {template : Option String} {own : List String} (hbatch : step.batch? = some (template, own)) :
    s.commands template own = r.commands template own := by
  have hown : own.map s.fill = own.map r.fill := by
    refine List.map_congr_left fun line hline => h.fill_eq fun name hname => ?_
    exact hstep _ (.command hbatch hline hname)
  have htemplate : s.templateCommands template = r.templateCommands template := by
    cases template with
    | none => rfl
    | some name =>
      have hsome : (r.template name).isSome = true := hstep _ (.template hbatch)
      obtain ⟨text, htext⟩ := Option.isSome_iff_exists.mp hsome
      have hlines : (commandLines text).map s.fill = (commandLines text).map r.fill := by
        refine List.map_congr_left fun line hline => h.fill_eq fun parameter hparameter => ?_
        exact hstep _ (.templateLine hbatch htext hline hparameter)
      simp only [templateCommands, htext, h.template name text htext, hlines]
  rw [commands, commands, htemplate, hown]

/-- A step that is answered has the same fields under more answers. -/
theorem expressions_eq (h : s.Extends r) {step : Step} (hstep : step.IsAnswered r)
    (redact : Bool) : step.expressions s redact = step.expressions r redact := by
  cases step with
  | connect c =>
    have hhosts : s.hosts c.target = r.hosts c.target := by
      cases htarget : c.target with
      | none => rfl
      | some target =>
        cases target with
        | host name => rfl
        | group name =>
          have hgroup : (r.deviceGroup name).isSome = true := hstep _ (.deviceGroup htarget)
          rw [hosts, hosts, answer_eq h.deviceGroup hgroup]
    have hfields : Connection.credentialFields s redact c.credential =
        Connection.credentialFields r redact c.credential := by
      cases hname : c.credential with
      | none => rfl
      | some name =>
        have hlogin : (r.credential name).isSome = true := hstep _ (.credential hname)
        rw [Connection.credentialFields, Connection.credentialFields,
          answer_eq h.credential hlogin]
    rw [Step.expressions, Step.expressions, Connection.expressions, Connection.expressions,
      hhosts, hfields]
  | deploy d => rw [Step.expressions, Step.expressions, h.commands_eq hstep rfl]
  | execute e => rw [Step.expressions, Step.expressions, h.commands_eq hstep rfl]
  | check c =>
    have hline : s.fill c.command = r.fill c.command :=
      h.fill_eq fun name hname => hstep _ (.check hname)
    rw [Step.expressions, Step.expressions, hline]
  | _ => rfl

end Resolver.Extends

mutual

/-- The notes of a tree tell of the references of its nodes that have no answer. -/
theorem Visit.encounters_eq (r : Resolver) (visit : Visit) :
    (visit.notes r).filterMap Note.encounter? = visit.nodes.flatMap fun node =>
      (node.settings.step.unresolved r).map fun reference => (node.id, reference) := by
  cases visit with
  | mk node exits =>
    rw [Visit.notes, List.filterMap_append, Note.filterMap_encounter?_unresolved,
      exits.encounters_eq, Visit.nodes, List.flatMap_cons]

theorem Exits.encounters_eq (r : Resolver) (exits : Exits) :
    (exits.notes r).filterMap Note.encounter? = exits.nodes.flatMap fun node =>
      (node.settings.step.unresolved r).map fun reference => (node.id, reference) := by
  cases exits with
  | nil => rfl
  | onward e visit rest =>
    rw [Exits.notes, List.filterMap_append, visit.encounters_eq, rest.encounters_eq, Exits.nodes,
      List.flatMap_append]
  | stopped e stop rest =>
    rw [Exits.filterMap_encounter?_stopped, Exits.nodes, rest.encounters_eq]

end

namespace Compiler

variable {c : Compiler} {r s t : Resolver} {visit : Visit}

/-- A script leaves open what nodes of its tree mention and what has no answer. -/
theorem mem_resources_scriptOf_iff {reference : Reference} :
    (∃ m ∈ (c.scriptOf r visit).resources, m.reference = reference) ↔
      ∃ node ∈ visit.nodes, node.settings.step.Mentions r reference ∧
        reference.isResolved r = false := by
  have hreferences : (c.scriptOf r visit).resources.map Missing.reference =
      (((visit.notes r).eraseDups.filterMap Note.encounter?).map Prod.snd).eraseDups := by
    rw [scriptOf, Script.ofWalk, Note.missing_eq, List.map_map]
    exact List.map_id _
  rw [← List.mem_map, hreferences, List.mem_eraseDups, filterMap_eraseDups
    Note.encounter?_injective, visit.encounters_eq]
  simp [Step.mem_unresolved_iff]

theorem exists_missing_template {node : Node} (hnode : node ∈ visit.nodes) {name : String}
    (hmentions : node.settings.step.Mentions r ⟨.template, name⟩)
    (hnone : r.template name = none) :
    ∃ m ∈ (c.scriptOf r visit).resources, m.reference = ⟨.template, name⟩ := by
  refine mem_resources_scriptOf_iff.mpr ⟨node, hnode, hmentions, ?_⟩
  rw [Reference.isResolved, hnone]
  rfl

/-- What nodes of a tree mention has an answer once all that was left open has one. -/
theorem isResolved_of_answers (hext : s.Extends r) (hall : s.Answers (c.scriptOf r visit))
    {node : Node} (hnode : node ∈ visit.nodes) {reference : Reference}
    (hmentions : node.settings.step.Mentions r reference) : reference.isResolved s = true := by
  by_cases hknown : reference.isResolved r = true
  · exact hext.isResolved hknown
  · obtain ⟨m, hm, rfl⟩ := mem_resources_scriptOf_iff.mpr
      ⟨node, hnode, hmentions, Bool.eq_false_iff.mpr hknown⟩
    exact hall m hm

/-- Once all that was left open has an answer, what is left open comes from new templates. -/
theorem exists_reveals_of_mem_resources (hext : s.Extends r)
    (hall : s.Answers (c.scriptOf r visit)) {m : Missing}
    (hm : m ∈ (c.scriptOf s visit).resources) :
    ∃ node ∈ visit.nodes, node.settings.step.Reveals r s m.reference := by
  obtain ⟨node, hnode, hmentions, hunknown⟩ := mem_resources_scriptOf_iff.mp ⟨m, hm, rfl⟩
  refine ⟨node, hnode, (hmentions.of_extends hext).resolve_left fun hbefore => ?_⟩
  rw [isResolved_of_answers hext hall hnode hbefore] at hunknown
  cases hunknown

/-- Nothing is left open after two rounds: a template that was unknown in the second one would have
come to light in the first, but only variables do. -/
theorem isFullyResolved_of_two_rounds (hext : s.Extends r)
    (hall : s.Answers (c.scriptOf r visit)) (hext' : t.Extends s)
    (hall' : t.Answers (c.scriptOf s visit)) : (c.scriptOf t visit).isFullyResolved = true := by
  refine List.isEmpty_iff.mpr (List.eq_nil_iff_forall_not_mem.mpr fun m hm => ?_)
  obtain ⟨node, hnode, -, name, text, htemplate, hnone, -⟩ :=
    exists_reveals_of_mem_resources hext' hall' hm
  obtain ⟨m, hm, hreference⟩ := exists_missing_template hnode htemplate hnone
  obtain ⟨-, -, hkind, -⟩ := exists_reveals_of_mem_resources hext hall hm
  rw [hreference] at hkind
  cases hkind

/-- A script that leaves nothing open is the same under more answers. -/
theorem scriptOf_eq_of_isFullyResolved (hfull : (c.scriptOf r visit).isFullyResolved = true)
    (hext : s.Extends r) : c.scriptOf s visit = c.scriptOf r visit := by
  have hnodes : ∀ node ∈ visit.nodes, node.settings.step.IsAnswered r := by
    intro node hnode reference hmentions
    by_contra hunknown
    obtain ⟨m, hm, -⟩ := (mem_resources_scriptOf_iff (c := c)).mpr
      ⟨node, hnode, hmentions, Bool.eq_false_iff.mpr hunknown⟩
    exact List.eq_nil_iff_forall_not_mem.mp (List.isEmpty_iff.mp hfull) m hm
  refine c.scriptOf_congr (fun node hnode => ?_) fun node hnode => ?_
  · rw [Node.ownText, Node.ownText, Node.expressions, Node.expressions,
      hext.expressions_eq (hnodes node hnode)]
  · rw [Step.unresolved_eq_nil_iff.mpr (hnodes node hnode),
      Step.unresolved_eq_nil_iff.mpr (hext.isAnswered (hnodes node hnode))]

/-- Where a graph compiles under one resolver it has the same tree under all of them, and only the
bytes of the script tell whether it compiles. -/
theorem exists_visit_of_compile {g : Graph} {script : Script} (h : c.compile g r = .ok script) :
    ∃ visit, script = c.scriptOf r visit ∧ ∀ s, c.compile g s =
      if (c.scriptOf s visit).byteSize ≤ c.options.maxBytes then .ok (c.scriptOf s visit)
      else .error (.limit (.tooManyBytes c.options.maxBytes)) := by
  obtain ⟨hfree, start, visit, hstart, hvisit, hscript, -⟩ := compile_eq_ok_iff.mp h
  exact ⟨visit, hscript, fun s => c.compile_of_visit s hfree hstart hvisit⟩

/-- A manifest is settled in two rounds. Under a resolver with answers to all that a script leaves
open, the graph leaves open only variables in the texts of templates that were unknown before, and
with answers to those as well it leaves nothing open, as long as the texts keep their limit. A
script that leaves nothing open is the same under any resolver that has these answers and more. -/
theorem manifest_settled_in_two_rounds {c : Compiler} {g : Graph} {r : Resolver}
    {script : Script} (h : c.compile g r = .ok script) :
    (∀ s : Resolver, s.Extends r → s.Answers script → ∀ later, c.compile g s = .ok later →
      (∀ m ∈ later.resources, m.kind = .parameter ∧ ∃ name text, r.template name = none ∧
        (∃ before ∈ script.resources, before.reference = ⟨.template, name⟩) ∧
        s.template name = some text ∧ m.id ∈ Template.names text) ∧
      ∀ t : Resolver, t.Extends s → t.Answers later → ∃ last : Script,
        last.isFullyResolved = true ∧ c.compile g t =
          if last.byteSize ≤ c.options.maxBytes then .ok last
          else .error (.limit (.tooManyBytes c.options.maxBytes))) ∧
    (script.isFullyResolved = true → ∀ s : Resolver, s.Extends r → c.compile g s = .ok script) := by
  obtain ⟨visit, rfl, hcompile⟩ := exists_visit_of_compile h
  refine ⟨fun s hext hall later hlater => ?_, fun hfull s hext => ?_⟩
  · obtain rfl : later = c.scriptOf s visit := by
      rw [hcompile s] at hlater
      split at hlater
      · exact (Except.ok.inj hlater).symm
      · cases hlater
    refine ⟨fun m hm => ?_, fun t hext' hall' => ⟨c.scriptOf t visit, ?_, hcompile t⟩⟩
    · obtain ⟨node, hnode, hkind, name, text, htemplate, hnone, htext, hid⟩ :=
        exists_reveals_of_mem_resources hext hall hm
      exact ⟨hkind, name, text, hnone, exists_missing_template hnode htemplate hnone, htext, hid⟩
    · exact isFullyResolved_of_two_rounds hext hall hext' hall'
  · rw [hcompile s, scriptOf_eq_of_isFullyResolved hfull hext, ← hcompile r, h]

/-- A resolver answers a script if it answers all that nodes of the graph ask for. -/
theorem answers_of_references {c : Compiler} {g : Graph} {script : Script}
    (hids : (g.nodes.map Node.id).Nodup) (h : c.compile g r = .ok script)
    (hall : ∀ node ∈ g.nodes, ∀ reference ∈ node.settings.step.references r,
      reference.isResolved s = true) : s.Answers script := by
  intro m hm
  have hreference := List.mem_map_of_mem (f := Missing.reference) hm
  rw [(manifest_exact hids h).references_eq, List.mem_eraseDups] at hreference
  obtain ⟨⟨id, reference⟩, hencounter, heq⟩ := List.mem_map.mp hreference
  obtain ⟨-, node, hnode, hmentions, -⟩ := Graph.mem_encounters_iff.mp hencounter
  exact heq ▸ hall node (Graph.mem_nodes_of_node? hnode) reference
    (Step.mem_references_iff.mpr hmentions)

end Compiler

def Inventory.firstRound : Inventory where
  credentials := Catalog.empty.insert "lab"
    { username := "operator", password := "hunter2", deviceType := "ios" }
  deviceGroups := Catalog.empty.insert "core" ⟨["10.0.0.1", "10.0.0.2"]⟩
  templates := Catalog.empty.insert "base" ("ntp server " ++ Template.written "ntp" ++ "\n")
  parameters := (Catalog.empty.insert "gateway" "10.0.0.254").insert "mtu" "1500"

def Inventory.secondRound : Inventory :=
  { firstRound with parameters := firstRound.parameters.insert "ntp" "10.0.0.123" }

theorem Inventory.firstRound_extends :
    firstRound.resolver.Extends ({} : Inventory).resolver where
  credential _ _ h := by cases h
  deviceGroup _ _ h := by cases h
  template _ _ h := by cases h
  parameter _ _ h := by cases h

theorem Inventory.secondRound_extends : secondRound.resolver.Extends firstRound.resolver where
  credential _ _ h := h
  deviceGroup _ _ h := h
  template _ _ h := h
  parameter id value h := by
    have hnew : firstRound.parameters.get? "ntp" = none := by decide +kernel
    have hold : firstRound.parameters.get? id = some value := h
    have hne : id ≠ "ntp" := by
      rintro rfl
      rw [hnew] at hold
      cases hold
    show (firstRound.parameters.insert "ntp" "10.0.0.123").get? id = some value
    rw [Catalog.get?_insert, if_neg hne, hold]

theorem Compiler.manifest_settled_in_two_rounds_patrol : ∃ bytes script later last,
    let c : Compiler := ⟨.standard, { maxBytes := bytes }⟩
    let r := ({} : Inventory).resolver
    let s := Inventory.firstRound.resolver
    let t := Inventory.secondRound.resolver
    c.compile .patrol r = .ok script ∧ s.Extends r ∧ s.Answers script ∧
    c.compile .patrol s = .ok later ∧ (∀ m ∈ later.resources, m.kind = .parameter ∧
      ∃ name text, r.template name = none ∧
        (∃ before ∈ script.resources, before.reference = ⟨.template, name⟩) ∧
        s.template name = some text ∧ m.id ∈ Template.names text) ∧
    t.Extends s ∧ t.Answers later ∧ last.isFullyResolved = true ∧
    c.compile .patrol t = .ok last ∧
    ∀ u : Resolver, u.Extends t → c.compile .patrol u = .ok last := by
  let r := ({} : Inventory).resolver
  let s := Inventory.firstRound.resolver
  let t := Inventory.secondRound.resolver
  obtain ⟨visit, hvisit⟩ := Graph.exists_visit_patrol
  obtain ⟨bytes, hroom⟩ := exists_bytes_of_visit .standard false [r, s, t]
    Graph.patrol_isErrorFree rfl hvisit
  obtain ⟨script, hscript⟩ := hroom r (by simp)
  obtain ⟨later, hlater⟩ := hroom s (by simp)
  obtain ⟨last, hlast⟩ := hroom t (by simp)
  have hfirst : s.Answers script := answers_of_references Graph.patrol_ids_nodup hscript (by
    decide +kernel)
  have hsecond : t.Answers later := answers_of_references Graph.patrol_ids_nodup hlater (by
    decide +kernel)
  obtain ⟨hopen, hsettled⟩ := (manifest_settled_in_two_rounds hscript).1 s
    Inventory.firstRound_extends hfirst later hlater
  have hwhole : last.isFullyResolved = true := by
    obtain ⟨found, hfound, heq⟩ := hsettled t Inventory.secondRound_extends hsecond
    rw [hlast] at heq
    split at heq
    · rwa [Except.ok.inj heq]
    · cases heq
  exact ⟨bytes, script, later, last, hscript, Inventory.firstRound_extends, hfirst, hlater, hopen,
    Inventory.secondRound_extends, hsecond, hwhole, hlast,
    (manifest_settled_in_two_rounds hlast).2 hwhole⟩

end Runbook
