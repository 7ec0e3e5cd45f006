import Mathlib.Tactic.Common
import Runbook.Compiler.Fields
import Runbook.Proofs.ExpressionText
import Runbook.Proofs.TemplateParts

/-!
The text that a node leaves by itself. Every field that a template of its kind may name has an
expression, so no token is filled with nothing. In the standard templates each line shows some
text of its own and no value breaks a line, so the text of a node has the lines of its template.
-/
namespace Runbook

theorem Connection.credentialFields_names (resolver : Resolver) (redact : Bool)
    (credential : Option String) :
    (credentialFields resolver redact credential).map Prod.fst =
      ["device_type", "username", "password", "secret", "port", "conn_timeout",
        "global_delay_factor"] := by
  unfold credentialFields
  cases credential with
  | none => rfl
  | some name => cases hname : resolver.credential name <;> simp only [hname] <;> rfl

/-- A step has an expression for every field of its kind. -/
theorem Step.fields_subset_names (resolver : Resolver) (redact : Bool) (step : Step) :
    step.kind.fields ⊆ (step.expressions resolver redact).map Prod.fst := by
  cases step with
  | connect c =>
    simp only [Step.expressions, Connection.expressions, List.map_cons,
      Connection.credentialFields_names]
    exact (by decide : Kind.connect.fields ⊆ ["hosts", "credential", "device_type", "username",
      "password", "secret", "port", "conn_timeout", "global_delay_factor"])
  | start => exact List.nil_subset _
  | finish => exact List.nil_subset _
  | task t => exact List.Subset.refl _
  | condition c => exact List.Subset.refl _
  | loop l => exact List.Subset.refl _
  | deploy d => exact List.Subset.refl _
  | execute e => exact List.Subset.refl _
  | backup b => exact List.Subset.refl _
  | check c => exact List.Subset.refl _

theorem lookup_map_snd {α β : Type} (f : α → β) (l : List (String × α)) (name : String) :
    (l.map fun x => (x.1, f x.2)).lookup name = (l.lookup name).map f := by
  induction l with
  | nil => rfl
  | cons x rest ih =>
    rw [List.map_cons, List.lookup_cons, List.lookup_cons]
    split
    · rfl
    · exact ih

namespace Node

def fieldText (node : Node) (resolver : Resolver) (redact : Bool) (name : String) : String :=
  (((node.expressions resolver redact).map fun f => (f.1, f.2.render)).lookup name).getD ""

def templateLines (node : Node) (resolver : Resolver) (redact : Bool) : List String :=
  (Text.lines (Template.ofKind node.kind)).map
    (Template.substitute (node.fieldText resolver redact))

def expression (node : Node) (resolver : Resolver) (redact : Bool) (name : String) : Expression :=
  ((node.expressions resolver redact).lookup name).getD .none

theorem lookup_expressions (node : Node) (resolver : Resolver) (redact : Bool) {name : String}
    (h : node.kind.hasField name = true) :
    (node.expressions resolver redact).lookup name =
      some (node.expression resolver redact name) := by
  have hname : name ∈ (node.expressions resolver redact).map Prod.fst := by
    simp only [Kind.hasField, Bool.or_eq_true, List.contains_iff_mem] at h
    simp only [expressions, List.map_cons]
    rcases h with h | h
    · simp only [Kind.commonFields, List.mem_cons, List.not_mem_nil, or_false] at h
      rcases h with rfl | rfl | rfl <;> simp
    · have hstep := Step.fields_subset_names resolver redact node.settings.step h
      exact List.mem_cons_of_mem _ (List.mem_cons_of_mem _ (List.mem_cons_of_mem _ hstep))
  obtain ⟨f, hf, rfl⟩ := List.mem_map.mp hname
  have hsome : ((node.expressions resolver redact).lookup f.1).isSome = true :=
    List.lookup_isSome_iff.mpr ⟨f, hf, beq_self_eq_true _⟩
  obtain ⟨e, he⟩ := Option.isSome_iff_exists.mp hsome
  rw [expression, he, Option.getD_some]

theorem mem_expressions (node : Node) (resolver : Resolver) (redact : Bool) {name : String}
    (h : node.kind.hasField name = true) :
    (name, node.expression resolver redact name) ∈ node.expressions resolver redact := by
  obtain ⟨above, below, hsplit, -⟩ :=
    List.lookup_eq_some_iff.mp (node.lookup_expressions resolver redact h)
  simp [hsplit]

theorem fieldText_eq (node : Node) (resolver : Resolver) (redact : Bool) {name : String}
    (h : node.kind.hasField name = true) :
    node.fieldText resolver redact name = (node.expression resolver redact name).render := by
  rw [fieldText, lookup_map_snd, node.lookup_expressions resolver redact h, Option.map_some,
    Option.getD_some]

/-- Every field of a kind is filled with a plain line. -/
theorem isPlainLine_fieldText (node : Node) (resolver : Resolver) (redact : Bool) {name : String}
    (h : node.kind.hasField name = true) :
    Text.IsPlainLine (node.fieldText resolver redact name) := by
  rw [node.fieldText_eq resolver redact h]
  exact Expression.isPlainLine_render _

theorem isPlainLine_of_mem_templateLines {node : Node} {resolver : Resolver} {redact : Bool}
    {line : String} (h : line ∈ node.templateLines resolver redact) : Text.IsPlainLine line := by
  obtain ⟨written, hwritten, rfl⟩ := List.mem_map.mp h
  exact Template.isPlainLine_substitute
    (fun name hname => node.isPlainLine_fieldText resolver redact hname) hwritten

theorem ownText_standard (node : Node) (resolver : Resolver) (redact : Bool) :
    node.ownText .standard resolver redact = Text.unlines (node.templateLines resolver redact) :=
  Template.render_standard node.kind _

/-- No value adds a line to a standard template or takes one away. -/
theorem lines_ownText (node : Node) (resolver : Resolver) (redact : Bool) :
    Text.lines (node.ownText .standard resolver redact) = node.templateLines resolver redact := by
  rw [ownText_standard]
  exact Text.lines_unlines fun line hline => isPlainLine_of_mem_templateLines hline

theorem templateLines_ne_nil (node : Node) (resolver : Resolver) (redact : Bool) :
    node.templateLines resolver redact ≠ [] := by
  have hlines : ∀ kind, Text.lines (Template.ofKind kind) ≠ [] := by
    intro kind
    rw [Template.lines_ofKind]
    cases kind <;> decide
  simpa [templateLines] using hlines node.kind

end Node

end Runbook
