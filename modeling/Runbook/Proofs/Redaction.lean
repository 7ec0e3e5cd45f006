import Mathlib.Tactic.Common
import Runbook.CommandLine.Report
import Runbook.Proofs.OwnText
import Runbook.Proofs.PathTree

/-!
Redacted scripts keep secrets. With redaction on, a password and the text of a secret have no way
into a script: no field shows them, and what remains, whether a name is answered at all and
whether a credential has a secret, is the same in inventories that are alike but for those texts.
Equal texts have equal sizes, so not even the limits tell such inventories apart.
-/
namespace Runbook

/-- The credential without the texts that have to be kept. Whether it has a secret still shows. -/
def Credential.masked (c : Credential) : Credential :=
  { c with password := "", secret := c.secret.map fun _ => "" }

/-- Resolvers with the same answers but for passwords and the texts of secrets. -/
structure Resolver.SameButSecrets (r s : Resolver) : Prop where
  credential : ∀ name, (r.credential name).map Credential.masked =
    (s.credential name).map Credential.masked
  deviceGroup : r.deviceGroup = s.deviceGroup
  template : r.template = s.template
  parameter : r.parameter = s.parameter

structure Inventory.SameButSecrets (i j : Inventory) : Prop where
  credentials : i.credentials.entries.map (fun e => (e.1, e.2.masked)) =
    j.credentials.entries.map fun e => (e.1, e.2.masked)
  deviceGroups : i.deviceGroups = j.deviceGroups
  templates : i.templates = j.templates
  parameters : i.parameters = j.parameters

def Inventory.ofPassword (password : String) : Inventory where
  credentials := Catalog.empty.insert "lab"
    { username := "operator", password := password, deviceType := "ios", secret := some password }

theorem Inventory.SameButSecrets.resolver {i j : Inventory} (h : i.SameButSecrets j) :
    i.resolver.SameButSecrets j.resolver where
  credential name := by
    have hlookup := congrArg (List.lookup name) h.credentials
    rwa [lookup_map_snd, lookup_map_snd] at hlookup
  deviceGroup := by rw [Inventory.resolver, h.deviceGroups]; rfl
  template := by rw [Inventory.resolver, h.templates]; rfl
  parameter := by rw [Inventory.resolver, h.parameters]; rfl

namespace Resolver.SameButSecrets

variable {r s : Resolver}

theorem variableText_eq (h : r.SameButSecrets s) (name : String) :
    r.variableText name = s.variableText name := by
  rw [variableText, variableText, h.parameter]

theorem fill_eq (h : r.SameButSecrets s) : r.fill = s.fill := by
  funext line
  rw [fill, fill, funext h.variableText_eq]

theorem commands_eq (h : r.SameButSecrets s) (template : Option String) (own : List String) :
    r.commands template own = s.commands template own := by
  rw [commands, commands, templateCommands.eq_def, templateCommands.eq_def, h.template, h.fill_eq]

theorem hosts_eq (h : r.SameButSecrets s) (target : Option Target) :
    r.hosts target = s.hosts target := by
  rw [hosts.eq_def, hosts.eq_def, h.deviceGroup]

/-- Redaction takes the texts of a credential that have to be kept out of its fields. -/
theorem credentialFields_eq (h : r.SameButSecrets s) (credential : Option String) :
    Connection.credentialFields r true credential =
      Connection.credentialFields s true credential := by
  cases credential with
  | none => rfl
  | some name =>
    have hmasked := h.credential name
    cases hr : r.credential name with
    | none =>
      have hs : s.credential name = none := by
        simpa [hr] using hmasked.symm
      simp only [Connection.credentialFields, hr, hs]
    | some c =>
      obtain ⟨d, hs, hcd⟩ : ∃ d, s.credential name = some d ∧ d.masked = c.masked := by
        rw [hr] at hmasked
        exact Option.map_eq_some_iff.mp hmasked.symm
      simp only [Credential.masked, Credential.mk.injEq, true_and] at hcd
      obtain ⟨husername, htype, hport, hsecret, htimeout, hfactor⟩ := hcd
      have hshown : c.secret.map (secretExpression true name "secret") =
          d.secret.map (secretExpression true name "secret") := by
        have hconst := congrArg (Option.map fun _ => Expression.secret name "secret") hsecret.symm
        rwa [Option.map_map, Option.map_map] at hconst
      simp only [Connection.credentialFields, hr, hs, husername, htype, hport, htimeout, hfactor,
        hshown]
      rfl

/-- Every field of a step is the same. -/
theorem expressions_eq (h : r.SameButSecrets s) (step : Step) :
    step.expressions r true = step.expressions s true := by
  cases step with
  | connect c =>
    rw [Step.expressions, Step.expressions, Connection.expressions, Connection.expressions,
      h.hosts_eq, h.credentialFields_eq]
  | deploy d => rw [Step.expressions, Step.expressions, h.commands_eq]
  | execute e => rw [Step.expressions, Step.expressions, h.commands_eq]
  | check c => rw [Step.expressions, Step.expressions, h.fill_eq]
  | _ => rfl

theorem ownText_eq (h : r.SameButSecrets s) (table : Template.Table) :
    Node.ownText table r true = Node.ownText table s true := by
  funext node
  rw [Node.ownText, Node.ownText, Node.expressions, Node.expressions, h.expressions_eq]

theorem isResolved_eq (h : r.SameButSecrets s) (reference : Reference) :
    reference.isResolved r = reference.isResolved s := by
  obtain ⟨kind, id⟩ := reference
  cases kind with
  | credential =>
    have hsome := congrArg Option.isSome (h.credential id)
    rwa [Option.isSome_map, Option.isSome_map] at hsome
  | deviceGroup => rw [Reference.isResolved, Reference.isResolved, h.deviceGroup]
  | template => rw [Reference.isResolved, Reference.isResolved, h.template]
  | parameter => rw [Reference.isResolved, Reference.isResolved, h.parameter]

theorem unresolved_eq (h : r.SameButSecrets s) (step : Step) :
    step.unresolved r = step.unresolved s := by
  have hreferences : step.references r = step.references s := by
    cases step with
    | deploy d =>
      simp only [Step.references, templateReferences.eq_def, h.template]
    | execute e =>
      simp only [Step.references, templateReferences.eq_def, h.template]
    | _ => rfl
  rw [Step.unresolved, Step.unresolved, hreferences]
  simp only [h.isResolved_eq]

end Resolver.SameButSecrets

namespace Compiler

/-- With redaction on, resolvers that differ in kept texts only make the same script of a tree. -/
theorem scriptOf_eq {c : Compiler} (hredact : c.options.redactSecrets = true) {r s : Resolver}
    (h : r.SameButSecrets s) (visit : Visit) : c.scriptOf r visit = c.scriptOf s visit := by
  refine c.scriptOf_congr (fun node _ => ?_) fun node _ => h.unresolved_eq node.settings.step
  rw [hredact, h.ownText_eq]

theorem compile_eq_of_resolver {c : Compiler} (hredact : c.options.redactSecrets = true)
    {r s : Resolver} (h : r.SameButSecrets s) (g : Graph) : c.compile g r = c.compile g s := by
  have hfrom : ∀ start, c.scriptFrom c.options.limits g r start =
      c.scriptFrom c.options.limits g s start := by
    intro start
    cases hvisit : g.visit c.options.limits start with
    | error e =>
      rw [scriptFrom, scriptFrom, hvisit]
      rfl
    | ok visit =>
      rw [c.scriptFrom_of_visit r hvisit, c.scriptFrom_of_visit s hvisit, scriptOf_eq hredact h]
  simp only [compile, compileWithin, hfrom]

/-- With redaction on, no password and no text of a secret has a say in what is compiled, in the
script that is written or in its manifest. -/
theorem compile_eq_of_sameButSecrets {c : Compiler} (hredact : c.options.redactSecrets = true)
    {i j : Inventory} (h : i.SameButSecrets j) (g : Graph) :
    c.compile g i.resolver = c.compile g j.resolver ∧
    (c.compile g i.resolver).map (fun script => script.render c.options) =
      (c.compile g j.resolver).map (fun script => script.render c.options) ∧
    (c.compile g i.resolver).map CommandLine.manifest =
      (c.compile g j.resolver).map CommandLine.manifest := by
  have hsame := compile_eq_of_resolver hredact h.resolver g
  rw [hsame]
  exact ⟨rfl, rfl, rfl⟩

/-- The patrol may log in with any password. -/
theorem compile_eq_of_sameButSecrets_patrol : ∃ bytes script,
    let c : Compiler := ⟨.standard, { redactSecrets := true, maxBytes := bytes }⟩
    (Inventory.ofPassword "hunter2").SameButSecrets (.ofPassword "swordfish") ∧
    c.compile .patrol (Inventory.ofPassword "hunter2").resolver = .ok script ∧
    c.compile .patrol (Inventory.ofPassword "swordfish").resolver = .ok script := by
  obtain ⟨bytes, script, hscript⟩ :=
    exists_compile_patrol .standard true (Inventory.ofPassword "hunter2").resolver
  have hsame : (Inventory.ofPassword "hunter2").SameButSecrets (.ofPassword "swordfish") :=
    ⟨rfl, rfl, rfl, rfl⟩
  refine ⟨bytes, script, hsame, hscript, ?_⟩
  rw [← (compile_eq_of_sameButSecrets rfl hsame .patrol).1]
  exact hscript

end Compiler

end Runbook
