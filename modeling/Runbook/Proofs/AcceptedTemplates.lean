import Mathlib.Data.List.Induction
import Mathlib.Tactic.Common
import Runbook.Proofs.TemplateReading

/-!
Templates that a table accepts. A text is accepted for a kind if each of its tokens names a field
of the kind; the first text of a row that is not, and its first token that is to blame, are what
the error names. A table filled by any row of texts, whether the refused ones stop the row or are
passed over, holds accepted texts only, each the last of its kind. As a node has an expression for
every field of its kind, no token of such a table is ever left without a value.
-/
namespace Runbook

namespace Template

def accepts (kind : Kind) (text : String) : Bool := (names text).all kind.hasField

theorem accepts_iff {kind : Kind} {text : String} :
    accepts kind text = true ↔ ∀ name ∈ names text, kind.hasField name = true :=
  List.all_eq_true

/-- A text without braces has no tokens and is accepted for every kind. -/
theorem accepts_of_no_brace (kind : Kind) {text : String} (h : '\x7b' ∉ text.toList) :
    accepts kind text = true := by
  have hnames : names (text ++ "") = names "" := names_text_append h ""
  rw [String.append_empty] at hnames
  rw [accepts, hnames]
  simp [names, pieces]

/-- A token of a text names no field of the kind, and all tokens before it name one. -/
def IsFirstUnknown (kind : Kind) (text field : String) : Prop :=
  kind.hasField field = false ∧ ∃ above below, names text = above ++ field :: below ∧
    ∀ name ∈ above, kind.hasField name = true

namespace IsFirstUnknown

variable {kind : Kind} {text field : String}

theorem accepts_eq_false (h : IsFirstUnknown kind text field) : accepts kind text = false := by
  obtain ⟨hfield, above, below, hnames, -⟩ := h
  refine Bool.eq_false_iff.mpr fun haccepts => ?_
  rw [accepts_iff.mp haccepts field (by simp [hnames])] at hfield
  cases hfield

end IsFirstUnknown

/-- The text that the last override of a kind gives it. -/
def lastText (overrides : List (Kind × String)) (kind : Kind) : Option String :=
  (overrides.filter fun o => o.1 = kind).getLast?.map Prod.snd

theorem lastText_concat (overrides : List (Kind × String)) (o : Kind × String) (kind : Kind) :
    lastText (overrides ++ [o]) kind =
      if kind = o.1 then some o.2 else lastText overrides kind := by
  by_cases hkind : kind = o.1
  · subst hkind
    simp [lastText, List.filter_append]
  · simp [lastText, List.filter_append, hkind, Ne.symm hkind]

theorem mem_of_lastText {overrides : List (Kind × String)} {kind : Kind} {text : String}
    (h : lastText overrides kind = some text) : (kind, text) ∈ overrides := by
  obtain ⟨o, ho, rfl⟩ := Option.map_eq_some_iff.mp h
  obtain ⟨hmem, hkind⟩ := List.mem_filter.mp (List.mem_of_mem_getLast? ho)
  obtain rfl : o.1 = kind := of_decide_eq_true hkind
  exact hmem

namespace Table

theorem unknown?_eq_none_iff {kind : Kind} {text : String} :
    unknown? kind text = none ↔ accepts kind text = true := by
  simp [unknown?, accepts]

theorem unknown?_eq_some_iff {kind : Kind} {text field : String} :
    unknown? kind text = some field ↔ IsFirstUnknown kind text field := by
  simp [unknown?, IsFirstUnknown, List.find?_eq_some_iff_append]

def put (t : Table) (o : Kind × String) : Table := ⟨fun k => if k = o.1 then o.2 else t.text k⟩

theorem set_of_accepts (t : Table) {kind : Kind} {text : String} (h : accepts kind text = true) :
    set kind text t = .ok () (t.put (kind, text)) := by
  rw [set, unknown?_eq_none_iff.mpr h]
  rfl

theorem set_of_unknown (t : Table) {kind : Kind} {text field : String}
    (h : IsFirstUnknown kind text field) : set kind text t = .error ⟨kind, field⟩ t := by
  rw [set, unknown?_eq_some_iff.mpr h]

theorem accepts_or_unknown (kind : Kind) (text : String) :
    accepts kind text = true ∨ ∃ field, IsFirstUnknown kind text field := by
  cases hunknown : unknown? kind text with
  | none => exact .inl (unknown?_eq_none_iff.mp hunknown)
  | some field => exact .inr ⟨field, unknown?_eq_some_iff.mp hunknown⟩

theorem ext_text {t u : Table} (h : ∀ kind, t.text kind = u.text kind) : t = u := by
  cases t
  cases u
  exact congrArg Table.mk (funext h)

def attempt (t : Table) (o : Kind × String) : Table :=
  match set o.1 o.2 t with
  | .ok _ u | .error _ u => u

/-- A refused text leaves the table as it is. -/
theorem attempt_eq (t : Table) (o : Kind × String) :
    t.attempt o = if accepts o.1 o.2 = true then t.put o else t := by
  rcases accepts_or_unknown o.1 o.2 with haccepts | ⟨field, hunknown⟩
  · rw [attempt, t.set_of_accepts haccepts, if_pos haccepts]
  · rw [attempt, t.set_of_unknown hunknown,
      if_neg (Bool.eq_false_iff.mp hunknown.accepts_eq_false)]

theorem text_foldl_put (t : Table) (overrides : List (Kind × String)) (kind : Kind) :
    (overrides.foldl put t).text kind = (lastText overrides kind).getD (t.text kind) := by
  induction overrides using List.reverseRecOn with
  | nil => rfl
  | append_singleton overrides o ih =>
    rw [List.foldl_append, List.foldl_cons, List.foldl_nil, lastText_concat, put]
    by_cases hkind : kind = o.1
    · simp only [hkind, if_true, Option.getD_some]
    · simp only [hkind, if_false, ih]

/-- A row of texts set in place does what the accepted ones among them do. -/
theorem foldl_attempt (t : Table) (overrides : List (Kind × String)) :
    overrides.foldl attempt t =
      (overrides.filter fun o => accepts o.1 o.2).foldl put t := by
  rw [List.foldl_filter]
  congr
  funext t o
  exact t.attempt_eq o

theorem setAll_cons_of_accepts (t : Table) {o : Kind × String} (h : accepts o.1 o.2 = true)
    (rest : List (Kind × String)) : setAll (o :: rest) t = setAll rest (t.put o) := by
  show EStateM.bind (set o.1 o.2) _ t = _
  rw [EStateM.bind, t.set_of_accepts h]

theorem setAll_cons_of_unknown (t : Table) {o : Kind × String} {field : String}
    (h : IsFirstUnknown o.1 o.2 field) (rest : List (Kind × String)) :
    setAll (o :: rest) t = .error ⟨o.1, field⟩ t := by
  show EStateM.bind (set o.1 o.2) _ t = _
  rw [EStateM.bind, t.set_of_unknown h]

/-- A row of texts is taken if all of them are, and then each replaces the one before it. -/
theorem setAll_eq_ok_iff {t u : Table} {overrides : List (Kind × String)} :
    setAll overrides t = .ok () u ↔
      (∀ o ∈ overrides, accepts o.1 o.2 = true) ∧ u = overrides.foldl put t := by
  induction overrides generalizing t with
  | nil =>
    show EStateM.Result.ok () t = .ok () u ↔ _
    rw [EStateM.Result.ok.injEq, eq_comm (a := t)]
    simp
  | cons o rest ih =>
    rw [List.forall_mem_cons, List.foldl_cons]
    rcases accepts_or_unknown o.1 o.2 with haccepts | ⟨field, hunknown⟩
    · rw [t.setAll_cons_of_accepts haccepts, ih]
      simp only [haccepts, true_and]
    · rw [t.setAll_cons_of_unknown hunknown]
      simp [hunknown.accepts_eq_false]

/-- The first text of a row that is not accepted is the one that the row is refused for, once those
before it are set. -/
theorem setAll_eq_error_iff {t u : Table} {overrides : List (Kind × String)} {e : UnknownField} :
    setAll overrides t = .error e u ↔
      ∃ before text after, overrides = before ++ (e.kind, text) :: after ∧
        (∀ o ∈ before, accepts o.1 o.2 = true) ∧ IsFirstUnknown e.kind text e.field ∧
        u = before.foldl put t := by
  induction overrides generalizing t with
  | nil =>
    show EStateM.Result.ok () t = .error e u ↔ _
    simp
  | cons o rest ih =>
    rcases accepts_or_unknown o.1 o.2 with haccepts | ⟨field, hunknown⟩
    · rw [t.setAll_cons_of_accepts haccepts, ih]
      constructor
      · rintro ⟨before, text, after, rfl, hbefore, hfirst, hleft⟩
        exact ⟨o :: before, text, after, rfl, List.forall_mem_cons.mpr ⟨haccepts, hbefore⟩, hfirst,
          hleft⟩
      · rintro ⟨before, text, after, hsplit, hbefore, hfirst, hleft⟩
        cases before with
        | nil =>
          obtain ⟨rfl, -⟩ := List.cons.inj hsplit
          rw [hfirst.accepts_eq_false] at haccepts
          cases haccepts
        | cons p before =>
          obtain ⟨rfl, rfl⟩ := List.cons.inj hsplit
          exact ⟨before, text, after, rfl, (List.forall_mem_cons.mp hbefore).2, hfirst, hleft⟩
    · rw [t.setAll_cons_of_unknown hunknown, EStateM.Result.error.injEq]
      constructor
      · rintro ⟨rfl, rfl⟩
        exact ⟨[], o.2, rest, rfl, by simp, hunknown, rfl⟩
      · rintro ⟨before, text, after, hsplit, hbefore, hfirst, hleft⟩
        cases before with
        | nil =>
          obtain ⟨rfl, -⟩ := List.cons.inj hsplit
          obtain ⟨kind, other⟩ := e
          have hsame := (unknown?_eq_some_iff.mpr hunknown).symm.trans
            (unknown?_eq_some_iff.mpr hfirst)
          exact ⟨congrArg (UnknownField.mk kind) (Option.some.inj hsame), hleft.symm⟩
        | cons p before =>
          obtain ⟨rfl, -⟩ := List.cons.inj hsplit
          have haccepts := hbefore o List.mem_cons_self
          rw [hunknown.accepts_eq_false] at haccepts
          cases haccepts

/-- Whatever row of texts the standard table goes through, it holds accepted texts. -/
theorem accepts_text_foldl_put {overrides : List (Kind × String)}
    (h : ∀ o ∈ overrides, accepts o.1 o.2 = true) (kind : Kind) :
    accepts kind ((overrides.foldl put standard).text kind) = true := by
  rw [text_foldl_put]
  cases hlast : lastText overrides kind with
  | none => exact accepts_iff.mpr fun name hname => hasField_of_mem_names hname
  | some text => exact h _ (mem_of_lastText hlast)

end Table

end Template

open Template

def Node.fields (node : Node) (resolver : Resolver) (redact : Bool) : List (String × String) :=
  (node.expressions resolver redact).map fun f => (f.1, f.2.render)

/-- A row of templates is taken exactly if each token of each of them names a field of its kind,
and then the last one of a kind counts; else the error names the first template and the first token
in it that are to blame, and only the templates before it are set. A single template is taken or
refused in the same way, and a refused one leaves the table as it is. Either way a node has a value
for every token of its template in the table that comes of it. -/
theorem accepted_templates_leave_no_hole (overrides : List (Kind × String)) :
    (∀ table, Table.setAll overrides .standard = .ok () table ↔
      (∀ o ∈ overrides, ∀ name ∈ names o.2, o.1.hasField name = true) ∧
      ∀ kind, table.text kind = (lastText overrides kind).getD (ofKind kind)) ∧
    (∀ e table, Table.setAll overrides .standard = .error e table ↔
      ∃ before text after, overrides = before ++ (e.kind, text) :: after ∧
        (∀ o ∈ before, ∀ name ∈ names o.2, o.1.hasField name = true) ∧
        IsFirstUnknown e.kind text e.field ∧
        ∀ kind, table.text kind = (lastText before kind).getD (ofKind kind)) ∧
    (∀ (t : Table) (kind : Kind) (text : String),
      ((∀ name ∈ names text, kind.hasField name = true) →
        ∃ u, Table.set kind text t = .ok () u ∧ t.attempt (kind, text) = u ∧
          ∀ k, u.text k = if k = kind then text else t.text k) ∧
      (∀ field, IsFirstUnknown kind text field →
        Table.set kind text t = .error ⟨kind, field⟩ t ∧ t.attempt (kind, text) = t)) ∧
    (∀ kind, (overrides.foldl Table.attempt .standard).text kind =
      (lastText (overrides.filter fun o => accepts o.1 o.2) kind).getD (ofKind kind)) ∧
    ∀ table, Table.setAll overrides .standard = .ok () table ∨
        table = overrides.foldl Table.attempt .standard →
      ∀ (node : Node) (resolver : Resolver) (redact : Bool), ∀ name ∈ names (table.text node.kind),
        ∃ value, (node.fields resolver redact).lookup name = some value := by
  have haccepted : ∀ row : List (Kind × String), (∀ o ∈ row, accepts o.1 o.2 = true) ↔
      ∀ o ∈ row, ∀ name ∈ names o.2, o.1.hasField name = true :=
    fun row => forall₂_congr fun o _ => accepts_iff
  have htext : ∀ kind, (overrides.foldl Table.attempt .standard).text kind =
      (lastText (overrides.filter fun o => accepts o.1 o.2) kind).getD (ofKind kind) := by
    intro kind
    rw [Table.foldl_attempt, Table.text_foldl_put]
    rfl
  have hput : ∀ (row : List (Kind × String)) (table : Table),
      table = row.foldl Table.put .standard ↔
        ∀ kind, table.text kind = (lastText row kind).getD (ofKind kind) := by
    refine fun row table => ⟨?_, fun hall => Table.ext_text fun kind => ?_⟩
    · rintro rfl kind
      exact Table.text_foldl_put .standard row kind
    · rw [hall kind, Table.text_foldl_put]
      rfl
  refine ⟨fun table => ?_, fun e table => ?_, fun t kind text => ⟨fun h => ?_, fun field h => ?_⟩,
    htext, fun table htable node resolver redact name hname => ?_⟩
  · rw [Table.setAll_eq_ok_iff, haccepted, hput]
  · simp only [Table.setAll_eq_error_iff, haccepted, hput]
  · have haccepts := accepts_iff.mpr h
    refine ⟨t.put (kind, text), t.set_of_accepts haccepts, ?_, fun k => rfl⟩
    rw [Table.attempt_eq, if_pos haccepts]
  · refine ⟨t.set_of_unknown h, ?_⟩
    rw [Table.attempt_eq, if_neg (Bool.eq_false_iff.mp h.accepts_eq_false)]
  · have haccepts : accepts node.kind (table.text node.kind) = true := by
      rcases htable with htable | rfl
      · obtain ⟨hall, rfl⟩ := Table.setAll_eq_ok_iff.mp htable
        exact Table.accepts_text_foldl_put hall node.kind
      · rw [Table.foldl_attempt]
        refine Table.accepts_text_foldl_put (fun o ho => ?_) node.kind
        exact (List.mem_filter.mp ho).2
    have hfield := accepts_iff.mp haccepts name hname
    exact ⟨_, by rw [Node.fields, lookup_map_snd, node.lookup_expressions resolver redact hfield,
      Option.map_some]⟩

/-- A row of two templates for one kind is taken, and the second counts. A row whose first template
names a field of its kind and then two of none is refused for the first of these. -/
theorem accepted_templates_leave_no_hole_logins :
    let login := "login(\x7b\x7bpassword\x7d\x7d, \x7b\x7bport\x7d\x7d)"
    let save := "save(\x7b\x7bcommand\x7d\x7d, \x7b\x7bhosts\x7d\x7d, \x7b\x7buser\x7d\x7d)"
    (∃ table, Table.setAll [(.connect, "up"), (.connect, login)] .standard = .ok () table ∧
      table.text .connect = login ∧ "password" ∈ names login ∧
      ∀ (node : Node) (resolver : Resolver) (redact : Bool), node.kind = .connect →
        ∃ value, (node.fields resolver redact).lookup "password" = some value) ∧
    Table.setAll [(.backup, save), (.task, login)] .standard =
      .error ⟨.backup, "hosts"⟩ .standard ∧
    [(Kind.backup, save), (.task, "done")].foldl Table.attempt .standard =
      Table.standard.attempt (.task, "done") := by
  intro login save
  let loginParts : List Part :=
    [.text "login(", .field "password", .text ", ", .field "port", .text ")"]
  let saveParts : List Part :=
    [.text "save(", .field "command", .text ", ", .field "hosts", .text ", ", .field "user",
      .text ")"]
  have hlogin : names login = ["password", "port"] := by
    have hwritten : login = String.join (loginParts.map Part.written) := by decide +kernel
    rw [hwritten, names_join (by decide)]
    rfl
  have hsave : names save = ["command", "hosts", "user"] := by
    have hwritten : save = String.join (saveParts.map Part.written) := by decide +kernel
    rw [hwritten, names_join (by decide)]
    rfl
  have hup : ∀ name ∈ names "up", Kind.connect.hasField name = true :=
    accepts_iff.mp (accepts_of_no_brace .connect (by decide))
  have hunknown : IsFirstUnknown .backup save "hosts" :=
    ⟨rfl, ["command"], ["user"], hsave, by decide⟩
  obtain ⟨htaken, -, -, -, hfilled⟩ :=
    accepted_templates_leave_no_hole [(.connect, "up"), (.connect, login)]
  obtain ⟨-, hrefused, hsingle, -⟩ :=
    accepted_templates_leave_no_hole [(.backup, save), (.task, login)]
  refine ⟨?_, ?_, ?_⟩
  · let table : Table := Table.standard.put (.connect, login)
    have htable : Table.setAll [(.connect, "up"), (.connect, login)] .standard = .ok () table := by
      refine (htaken table).mpr ⟨?_, fun kind => ?_⟩
      · refine List.forall_mem_cons.mpr ⟨hup, List.forall_mem_singleton.mpr ?_⟩
        rw [hlogin]
        decide
      · cases kind <;> rfl
    have hname : "password" ∈ names login := by simp [hlogin]
    refine ⟨table, htable, rfl, hname, fun node resolver redact hkind => ?_⟩
    refine hfilled table (.inl htable) node resolver redact "password" ?_
    rw [hkind]
    exact hname
  · exact (hrefused ⟨.backup, "hosts"⟩ .standard).mpr
      ⟨[], save, _, rfl, by simp, hunknown, fun kind => rfl⟩
  · rw [List.foldl_cons, ((hsingle .standard .backup save).2 "hosts" hunknown).2]
    rfl

end Runbook
