import Mathlib.Tactic.Common
import Runbook.Proofs.OwnText

/-!
What the expressions in the text of a node stand for. Two nodes of one kind have the same
expressions in the fields that the standard template of their kind names exactly if they have the
same id and policy and come to the same values: an action, a condition, a number of rounds, hosts,
commands with their variables filled in, or a login. Whether a text is given at all, and whether a
reference has an answer, shows as well. No template names a label, a description or a place, so none
of these shows.
-/
namespace Runbook

def Kind.shownFields : Kind → List String
  | start | finish => ["id"]
  | task => ["id", "action", "policy"]
  | condition => ["id", "expression"]
  | loop => ["id", "max_iterations", "until"]
  | connect =>
    ["id", "hosts", "device_type", "username", "password", "secret", "port", "conn_timeout",
      "global_delay_factor", "policy"]
  | deploy => ["id", "commands", "save_config", "policy"]
  | execute => ["id", "commands", "policy"]
  | backup => ["id", "command", "destination", "policy"]
  | check => ["id", "command", "expect", "policy"]

namespace Expression

/-- What may be absent is told apart from its absence and from any other value. -/
theorem getD_map_inj {α : Type} {f : α → Expression} (hne : ∀ a, f a ≠ none)
    (hinj : ∀ a b, f a = f b → a = b) {x y : Option α} :
    (x.map f).getD none = (y.map f).getD none ↔ x = y := by
  cases x with
  | none =>
    cases y with
    | none => simp
    | some b => simp [(hne b).symm]
  | some a =>
    cases y with
    | none => simp [hne a]
    | some b => simpa using ⟨hinj a b, fun h => h ▸ rfl⟩

theorem ofText?_inj {s t : Option String} : ofText? s = ofText? t ↔ s = t :=
  getD_map_inj (fun _ => by simp) fun _ _ h => by simpa using h

end Expression

variable (r r' : Resolver) (redact redact' : Bool)

/-- Whether two credentials show the same of their secrets: where they are kept if they are
redacted, and otherwise what they are. -/
def Credential.SameSecrets (name name' : String) (c c' : Credential) : Prop :=
  match redact, redact' with
  | true, true => name = name' ∧ c.secret.isSome = c'.secret.isSome
  | false, false => c.password = c'.password ∧ c.secret = c'.secret
  | _, _ => False

def Credential.SameLogin (name name' : String) (c c' : Credential) : Prop :=
  c.deviceType = c'.deviceType ∧ c.username = c'.username ∧ c.port = c'.port ∧
    c.connTimeout = c'.connTimeout ∧ c.delayFactor = c'.delayFactor ∧
    c.SameSecrets redact redact' name name' c'

/-- Whether two references to a credential come to the same: none is made, both have no answer and
name the same one, or both have one with the same login. -/
def Connection.SameLogin : Option String → Option String → Prop
  | none, none => True
  | some name, some name' =>
    match r.credential name, r'.credential name' with
    | none, none => name = name'
    | some c, some c' => c.SameLogin redact redact' name name' c'
    | _, _ => False
  | _, _ => False

def Step.SameValues : Step → Step → Prop
  | start, start | finish, finish => True
  | task t, task u => t.action = u.action
  | condition c, condition d => c.expression = d.expression
  | loop l, loop m => l.maxIterations = m.maxIterations ∧ l.untilExpression = m.untilExpression
  | connect c, connect d =>
    r.hosts c.target = r'.hosts d.target ∧
      Connection.SameLogin r r' redact redact' c.credential d.credential
  | deploy d, deploy e =>
    r.commands d.template d.commands = r'.commands e.template e.commands ∧ d.save = e.save
  | execute d, execute e => r.commands d.template d.commands = r'.commands e.template e.commands
  | backup b, backup c =>
    b.command.getD backupCommand = c.command.getD backupCommand ∧ b.destination = c.destination
  | check c, check d => r.fill c.command = r'.fill d.command ∧ c.expect = d.expect
  | _, _ => False

/-- Whether two nodes say the same in a script. -/
@[mk_iff]
structure Node.SaysSame (node other : Node) : Prop where
  id : node.id = other.id
  values : Step.SameValues r r' redact redact' node.settings.step other.settings.step
  policy : "policy" ∈ node.kind.shownFields →
    node.settings.policy.getD {} = other.settings.policy.getD {} ∧
      node.settings.timeoutSeconds = other.settings.timeoutSeconds

variable {r r' redact redact'} {node other : Node}

theorem Reference.placeholder_inj {kind : ResourceKind} {id id' : String} :
    placeholder ⟨kind, id⟩ = placeholder ⟨kind, id'⟩ ↔ id = id' := by
  simp [placeholder, String.append_left_inj, String.append_right_inj]

theorem Credential.sameSecrets_iff (name name' : String) (c c' : Credential) :
    SameSecrets redact redact' name name' c c' ↔
      secretExpression redact name "password" c.password =
        secretExpression redact' name' "password" c'.password ∧
      (c.secret.map (secretExpression redact name "secret")).getD .none =
        (c'.secret.map (secretExpression redact' name' "secret")).getD .none := by
  cases redact <;> cases redact'
  case false.false =>
    have hsecret : Expression.ofText? c.secret = .ofText? c'.secret ↔ c.secret = c'.secret :=
      Expression.ofText?_inj
    rw [SameSecrets, ← hsecret, ← Expression.text.injEq]
    rfl
  case true.true =>
    cases hc : c.secret <;> cases hc' : c'.secret <;> simp [SameSecrets, secretExpression, hc, hc']
  all_goals simp [SameSecrets, secretExpression]

theorem Credential.sameLogin_iff (name name' : String) (c c' : Credential) :
    SameLogin redact redact' name name' c c' ↔
      (Expression.text c.deviceType = .text c'.deviceType ∧
        Expression.text c.username = .text c'.username ∧
        secretExpression redact name "password" c.password =
          secretExpression redact' name' "password" c'.password ∧
        (c.secret.map (secretExpression redact name "secret")).getD .none =
          (c'.secret.map (secretExpression redact' name' "secret")).getD .none ∧
        Expression.natural c.port.toNat = .natural c'.port.toNat ∧
        (c.connTimeout.map fun n => Expression.natural n.toNat).getD .none =
          (c'.connTimeout.map fun n => .natural n.toNat).getD .none ∧
        (c.delayFactor.map Expression.decimal).getD .none =
          (c'.delayFactor.map .decimal).getD .none) := by
  have htimeout := Expression.getD_map_inj (f := fun n : UInt32 => .natural n.toNat)
    (x := c.connTimeout) (y := c'.connTimeout) (fun _ => by simp)
    fun _ _ h => by simpa [UInt32.toNat_inj] using h
  have hfactor := Expression.getD_map_inj (f := .decimal) (x := c.delayFactor)
    (y := c'.delayFactor) (fun _ => by simp) fun _ _ h => by simpa using h
  rw [SameLogin, sameSecrets_iff, htimeout, hfactor]
  simp only [Expression.text.injEq, Expression.natural.injEq, UInt16.toNat_inj]
  tauto

def Connection.loginFields : List String :=
  ["device_type", "username", "password", "secret", "port", "conn_timeout", "global_delay_factor"]

/-- The fields of two credentials have the same expressions if they come to the same login. -/
theorem Connection.sameLogin_iff (name name' : Option String) :
    SameLogin r r' redact redact' name name' ↔ ∀ field ∈ loginFields,
      ((credentialFields r redact name).lookup field).getD .none =
        ((credentialFields r' redact' name').lookup field).getD .none := by
  cases name with
  | none =>
    cases name' with
    | none => simp [SameLogin, credentialFields]
    | some name' =>
      cases hc' : r'.credential name' <;>
        simp [SameLogin, credentialFields, hc', loginFields, List.lookup_cons]
  | some name =>
    cases name' with
    | none =>
      cases hc : r.credential name <;>
        simp [SameLogin, credentialFields, hc, loginFields, List.lookup_cons]
    | some name' =>
      cases hc : r.credential name <;> cases hc' : r'.credential name'
      case some.some c c' =>
        simp only [SameLogin, hc, hc', Credential.sameLogin_iff]
        simp [credentialFields, hc, hc', loginFields, List.lookup_cons]
      all_goals
        simp [SameLogin, credentialFields, hc, hc', loginFields, List.lookup_cons,
          Reference.placeholder_inj]

/-- Nodes of one kind say the same if their fields that the template names have the same
expressions. -/
theorem Node.saysSame_iff_expressions (hkind : node.kind = other.kind) :
    node.SaysSame r r' redact redact' other ↔ ∀ name ∈ node.kind.shownFields,
      node.expression r redact name = other.expression r' redact' name := by
  obtain ⟨id, label, position, step, policy, timeout⟩ := node
  obtain ⟨id', label', position', step', policy', timeout'⟩ := other
  rw [saysSame_iff]
  cases step <;> cases step' <;> cases hkind
  case connect c d =>
    simp only [Step.SameValues, Connection.sameLogin_iff, Connection.loginFields]
    simp [Kind.shownFields, Node.kind, Step.kind, expression, expressions, Step.expressions,
      Connection.expressions, List.lookup_cons, and_assoc]
  all_goals simp [Kind.shownFields, Node.kind, Step.kind, expression, expressions, Step.expressions,
    List.lookup_cons, Step.SameValues, Expression.ofText?_inj, UInt32.toNat_inj, and_assoc]

end Runbook
