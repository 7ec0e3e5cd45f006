import Mathlib.Tactic.Common
import Runbook.Proofs.ExpressionReading
import Runbook.Proofs.FieldValues

/-!
Filled templates read back. In a standard template a comma or a bracket stands behind every token,
so a reader that knows the template finds its texts where they are, and in the place of each token
one expression, the one that was put there. The text of a step is therefore as good as the list of
its fields: none of them can be mistaken for the template, for its neighbour or for another value.
-/
namespace Runbook

namespace Template

def standardParts (kind : Kind) : List Part := List.intercalate [.text "\n"] (standardLines kind)

theorem ofKind_eq_join (kind : Kind) :
    ofKind kind = String.join ((standardParts kind).map Part.written) := by
  cases kind <;> decide +kernel

theorem isReadable_standardParts (kind : Kind) :
    ∀ part ∈ standardParts kind, part.IsReadable := by
  cases kind <;> decide +kernel

/-- The fields that the standard template of a kind names. -/
theorem names_ofKind (kind : Kind) :
    names (ofKind kind) = (standardParts kind).filterMap Part.name? := by
  rw [ofKind_eq_join, names_join (isReadable_standardParts kind)]

theorem names_ofKind_eq_shownFields (kind : Kind) : names (ofKind kind) = kind.shownFields := by
  rw [names_ofKind]
  cases kind <;> decide +kernel

theorem hasField_of_mem_names {kind : Kind} {name : String} (h : name ∈ names (ofKind kind)) :
    kind.hasField name = true := by
  have hall : ∀ name ∈ (standardParts kind).filterMap Part.name?, kind.hasField name = true := by
    cases kind <;> decide +kernel
  rw [names_ofKind] at h
  exact hall name h

def isFractional (name : String) : Bool := name = "global_delay_factor"

def endsArgument : List Part → Bool
  | .text s :: _ => s.toList.head?.any fun c => c = ',' || c = ')'
  | _ => false

def areArguments : List Part → Bool
  | [] => true
  | .text _ :: rest => areArguments rest
  | .field _ :: rest => endsArgument rest && areArguments rest

theorem areArguments_standardParts (kind : Kind) : areArguments (standardParts kind) = true := by
  cases kind <;> decide +kernel

end Template

open Template

/-- Reads a text made of parts: texts as they stand, and one expression for each field. -/
def Reader.parts : List Part → List Char → Option (List (String × Expression) × List Char)
  | [], s => some ([], s)
  | .text t :: more, s => do
    let s ← expect t s
    Reader.parts more s
  | .field name :: more, s => do
    let (e, s) ← expression (isFractional name) s
    let (fields, rest) ← Reader.parts more s
    pure ((name, e) :: fields, rest)

theorem Reader.endsNumber_of_endsArgument {parts : List Part} (h : endsArgument parts = true)
    (value : String → String) (rest : List Char) :
    Json.Token.EndsNumber ((String.join (parts.map (Part.filled value))).toList ++ rest) := by
  unfold endsArgument at h
  split at h
  · rename_i t more
    obtain ⟨c, hc, hends⟩ : ∃ c, t.toList.head? = some c ∧ (c = ',' ∨ c = ')') := by
      simpa [Option.any_eq_true] using h
    obtain ⟨tail, htail⟩ : ∃ tail, t.toList = c :: tail := List.head?_eq_some_iff.mp hc
    rw [List.map_cons, String.join_cons, Part.filled, String.toList_append, htail,
      List.cons_append, List.cons_append]
    rcases hends with rfl | rfl
    · exact Json.Token.endsNumber_cons rfl (by decide) _
    · exact Json.Token.endsNumber_cons rfl (by decide) _
  · exact absurd h (by decide)

/-- Filled parts are read as the expressions that fill them. -/
theorem Reader.parts_filled {value : String → Expression} {parts : List Part}
    (hparts : areArguments parts = true)
    (hvalue : ∀ name ∈ parts.filterMap Part.name?, Suits (isFractional name) (value name))
    (rest : List Char) :
    Reader.parts parts
        ((String.join (parts.map (Part.filled fun name => (value name).render))).toList ++ rest) =
      some ((parts.filterMap Part.name?).map fun name => (name, value name), rest) := by
  induction parts with
  | nil => simp [Reader.parts]
  | cons part more ih =>
    rw [List.map_cons, String.join_cons, String.toList_append, List.append_assoc]
    cases part with
    | text t =>
      have hmore := ih hparts hvalue
      simp only [Reader.parts, Part.filled, expect_append, Option.bind_eq_bind, Option.bind_some]
      exact hmore
    | field name =>
      obtain ⟨hends, hargs⟩ := Bool.and_eq_true_iff.mp hparts
      obtain ⟨hname, hothers⟩ := List.forall_mem_cons.mp hvalue
      have hmore := ih hargs hothers
      have hread := expression_chars hname
        (endsNumber_of_endsArgument hends (fun name => (value name).render) rest)
      simp only [Reader.parts, Part.filled, Expression.render, String.toList_ofList] at *
      simp only [hread, hmore, Option.bind_eq_bind, Option.bind_some]
      rfl

theorem Reader.suits_ofText? (fractional : Bool) (s : Option String) :
    Suits fractional (.ofText? s) := by
  cases s <;> trivial

theorem Reader.suits_secretExpression (fractional redact : Bool) (credential name value : String) :
    Suits fractional (secretExpression redact credential name value) := by
  cases redact <;> trivial

open Reader

/-- The fields of a credential hold whole numbers, but for the factor of the delay. -/
theorem Connection.suits_credentialFields (resolver : Resolver) (redact : Bool)
    (credential : Option String) :
    ∀ f ∈ credentialFields resolver redact credential, Suits (isFractional f.1) f.2 := by
  unfold credentialFields
  cases credential with
  | none => simp [Suits]
  | some name =>
    cases hname : resolver.credential name with
    | none =>
      simp only [hname]
      simp [Suits]
    | some c =>
      have hsecret : Suits (isFractional "secret")
          ((c.secret.map (secretExpression redact name "secret")).getD .none) := by
        cases c.secret with
        | none => trivial
        | some s => exact suits_secretExpression _ redact name "secret" s
      have htimeout : Suits (isFractional "conn_timeout")
          ((c.connTimeout.map fun n => .natural n.toNat).getD .none) := by
        cases c.connTimeout with
        | none => trivial
        | some n => rfl
      have hfactor : Suits (isFractional "global_delay_factor")
          ((c.delayFactor.map .decimal).getD .none) := by
        cases c.delayFactor with
        | none => trivial
        | some x => rfl
      simp only [hname, List.forall_mem_cons]
      exact ⟨trivial, trivial, suits_secretExpression _ redact name "password" c.password, hsecret,
        rfl, htimeout, hfactor, List.forall_mem_nil _⟩

namespace Node

/-- Every field of a node has a number of its own kind. -/
theorem suits_expressions (node : Node) (resolver : Resolver) (redact : Bool) :
    ∀ f ∈ node.expressions resolver redact, Suits (isFractional f.1) f.2 := by
  have hstep : ∀ f ∈ node.settings.step.expressions resolver redact,
      Suits (isFractional f.1) f.2 := by
    cases node.settings.step <;> simp only [Step.expressions, List.forall_mem_cons]
    case start => exact List.forall_mem_nil _
    case finish => exact List.forall_mem_nil _
    case task t => exact ⟨suits_ofText? _ _, suits_ofText? _ _, List.forall_mem_nil _⟩
    case condition c => exact ⟨trivial, List.forall_mem_nil _⟩
    case loop l => exact ⟨rfl, suits_ofText? _ _, List.forall_mem_nil _⟩
    case connect c =>
      have hfields := Connection.suits_credentialFields resolver redact c.credential
      simp only [Connection.expressions, List.forall_mem_cons]
      exact ⟨trivial, suits_ofText? _ _, hfields⟩
    case deploy d => exact ⟨trivial, trivial, suits_ofText? _ _, List.forall_mem_nil _⟩
    case execute e => exact ⟨trivial, List.forall_mem_nil _⟩
    case backup b => exact ⟨trivial, suits_ofText? _ _, List.forall_mem_nil _⟩
    case check c => exact ⟨trivial, trivial, List.forall_mem_nil _⟩
  simp only [expressions, List.forall_mem_cons]
  exact ⟨trivial, trivial, trivial, hstep⟩

/-- The text of a node is the standard template of its kind with an expression in the place of
each token. -/
theorem ownText_eq_join (node : Node) (resolver : Resolver) (redact : Bool) :
    node.ownText .standard resolver redact =
      String.join ((standardParts node.kind).map
        (Part.filled fun name => (node.expression resolver redact name).render)) := by
  have hfilled : ∀ part ∈ standardParts node.kind,
      part.filled (node.fieldText resolver redact) =
        part.filled fun name => (node.expression resolver redact name).render := by
    intro part hpart
    cases part with
    | text s => rfl
    | field name =>
      have hname : name ∈ names (ofKind node.kind) := by
        rw [names_ofKind]
        exact List.mem_filterMap.mpr ⟨_, hpart, rfl⟩
      exact node.fieldText_eq resolver redact (hasField_of_mem_names hname)
  show substitute (node.fieldText resolver redact) (ofKind node.kind) = _
  rw [ofKind_eq_join, substitute_join _ (isReadable_standardParts node.kind),
    List.map_congr_left hfilled]

/-- The text of a node is read as its fields. -/
theorem parts_ownText (node : Node) (resolver : Resolver) (redact : Bool) :
    Reader.parts (standardParts node.kind) (node.ownText .standard resolver redact).toList =
      some ((names (ofKind node.kind)).map fun name =>
        (name, node.expression resolver redact name), []) := by
  have hsuits : ∀ name ∈ (standardParts node.kind).filterMap Part.name?,
      Suits (isFractional name) (node.expression resolver redact name) := by
    intro name hname
    rw [← names_ofKind] at hname
    exact node.suits_expressions resolver redact _
      (node.mem_expressions resolver redact (hasField_of_mem_names hname))
  have hread := parts_filled (areArguments_standardParts node.kind) hsuits []
  rwa [List.append_nil, ← ownText_eq_join, ← names_ofKind] at hread

/-- Nodes of one kind with the same text have the same fields in it. -/
theorem expression_eq_of_ownText_eq {node other : Node} {resolver resolver' : Resolver}
    {redact redact' : Bool} (hkind : node.kind = other.kind)
    (htext : node.ownText .standard resolver redact = other.ownText .standard resolver' redact')
    {name : String} (hname : name ∈ names (ofKind node.kind)) :
    node.expression resolver redact name = other.expression resolver' redact' name := by
  have hnode := node.parts_ownText resolver redact
  have hother := other.parts_ownText resolver' redact'
  rw [htext, hkind, hother] at hnode
  have hfields := (Prod.mk.inj (Option.some.inj hnode)).1
  rw [hkind] at hname
  exact (Prod.mk.inj (List.map_inj_left.mp hfields name hname)).2.symm

/-- Nodes of one kind leave the same text if they say the same. -/
theorem ownText_eq_iff {node other : Node} {resolver resolver' : Resolver} {redact redact' : Bool}
    (hkind : node.kind = other.kind) :
    node.ownText .standard resolver redact = other.ownText .standard resolver' redact' ↔
      node.SaysSame resolver resolver' redact redact' other := by
  rw [saysSame_iff_expressions hkind, ← names_ofKind_eq_shownFields]
  constructor
  · exact fun htext name hname => expression_eq_of_ownText_eq hkind htext hname
  · intro hsame
    have hfilled : ∀ part ∈ standardParts node.kind,
        part.filled (fun name => (node.expression resolver redact name).render) =
          part.filled fun name => (other.expression resolver' redact' name).render := by
      intro part hpart
      cases part with
      | text s => rfl
      | field name =>
        rw [names_ofKind] at hsame
        have hname := hsame name (List.mem_filterMap.mpr ⟨_, hpart, rfl⟩)
        simp only [Part.filled, hname]
    rw [ownText_eq_join, ownText_eq_join, ← hkind, List.map_congr_left hfilled]

/-- Nothing in a text gets out of its quotes. A quoted text is read as the text whatever follows
it, and shows no control character and so no break; a list is read as its texts. The text of a node
is then the standard template of its kind with one whole expression in the place of each token,
and a reader takes out these and no others: nodes of one kind that leave the same text have the
same expressions in all fields that their template names, and so the same id and policy, and the
same actions, conditions, bounds, hosts, commands and logins once variables and references are
filled in. -/
theorem user_texts_stay_quoted :
    (∀ (s : String) (rest : List Char),
      Reader.text (Expression.quote s ++ rest) = some (s, rest) ∧
        (∀ c ∈ Expression.quote s, Expression.isControl c = false) ∧
        '\n' ∉ Expression.quote s ∧ '\r' ∉ Expression.quote s) ∧
    (∀ (list : List String) (rest : List Char),
      Reader.texts ((Expression.texts list).chars ++ rest) = some (list, rest)) ∧
    (∀ kind, ofKind kind = String.join ((standardParts kind).map Part.written) ∧
      names (ofKind kind) = kind.shownFields) ∧
    (∀ (node : Node) (resolver : Resolver) (redact : Bool),
      (∀ name ∈ names (ofKind node.kind),
        (name, node.expression resolver redact name) ∈ node.expressions resolver redact) ∧
      node.ownText .standard resolver redact =
        String.join ((standardParts node.kind).map
          (Part.filled fun name => (node.expression resolver redact name).render)) ∧
      Reader.parts (standardParts node.kind) (node.ownText .standard resolver redact).toList =
        some ((names (ofKind node.kind)).map fun name =>
          (name, node.expression resolver redact name), [])) ∧
    ∀ (node other : Node) (resolver resolver' : Resolver) (redact redact' : Bool),
      node.kind = other.kind →
      (node.ownText .standard resolver redact = other.ownText .standard resolver' redact' →
        ∀ name ∈ names (ofKind node.kind),
          node.expression resolver redact name = other.expression resolver' redact' name) ∧
      (node.ownText .standard resolver redact = other.ownText .standard resolver' redact' ↔
        node.SaysSame resolver resolver' redact redact' other) := by
  refine ⟨fun s rest => ⟨text_quote s rest, fun c hc => Expression.not_isControl_of_mem_quote hc,
      ?_, ?_⟩, texts_chars, fun kind => ⟨ofKind_eq_join kind, names_ofKind_eq_shownFields kind⟩,
    fun node resolver redact => ⟨fun name hname => ?_,
      node.ownText_eq_join resolver redact, node.parts_ownText resolver redact⟩,
    fun node other resolver resolver' redact redact' hkind => ⟨fun htext name hname =>
      expression_eq_of_ownText_eq hkind htext hname, ownText_eq_iff hkind⟩⟩
  · intro hmem
    exact absurd (Expression.not_isControl_of_mem_quote hmem) (by decide)
  · intro hmem
    exact absurd (Expression.not_isControl_of_mem_quote hmem) (by decide)
  · exact node.mem_expressions resolver redact (hasField_of_mem_names hname)

/-- A task whose texts look like the template around them. -/
def intruder (label : String) : Node where
  id := "\"), action=None\\\n\x7b\x7bid\x7d\x7d"
  label := label
  position := .origin
  settings := { step := .task { action := some "None", description := some label } }

theorem user_texts_stay_quoted_intruder :
    '\\' ∈ Expression.quote "\n" ∧ Expression.isControl '\\' = false ∧
    (intruder "a").kind = (intruder "b").kind ∧
    "action" ∈ names (ofKind (intruder "a").kind) ∧
    ("action", (intruder "a").expression ({} : Inventory).resolver false "action") ∈
      (intruder "a").expressions ({} : Inventory).resolver false ∧
    (intruder "a").ownText .standard ({} : Inventory).resolver false =
      (intruder "b").ownText .standard ({} : Inventory).resolver true ∧
    (intruder "a").expression ({} : Inventory).resolver false "action" =
      (intruder "b").expression ({} : Inventory).resolver true "action" ∧
    (intruder "a").SaysSame ({} : Inventory).resolver ({} : Inventory).resolver false true
      (intruder "b") := by
  have hmem : '\\' ∈ Expression.quote "\n" := by decide
  have hpart : Part.field "action" ∈ standardParts .task := by
    simp [standardParts, standardLines]
  have hname : "action" ∈ names (ofKind (intruder "a").kind) := by
    rw [names_ofKind]
    exact List.mem_filterMap.mpr ⟨_, hpart, rfl⟩
  have htext : (intruder "a").ownText .standard ({} : Inventory).resolver false =
      (intruder "b").ownText .standard ({} : Inventory).resolver true := by
    rw [ownText_eq_join, ownText_eq_join]
    rfl
  obtain ⟨hquote, -, -, hnode, hsame⟩ := user_texts_stay_quoted
  have hkind : (intruder "a").kind = (intruder "b").kind := rfl
  obtain ⟨hfields, hvalues⟩ := hsame (intruder "a") (intruder "b") ({} : Inventory).resolver
    ({} : Inventory).resolver false true hkind
  exact ⟨hmem, (hquote "\n" []).2.1 _ hmem, hkind, hname,
    (hnode (intruder "a") ({} : Inventory).resolver false).1 _ hname, htext, hfields htext _ hname,
    hvalues.mp htext⟩

end Node

end Runbook
