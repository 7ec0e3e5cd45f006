import Mathlib.Tactic.Common
import Runbook.Proofs.TextLines
import Runbook.Proofs.Tokens
import Runbook.Template.Table

/-!
Templates put together from parts. A part is a plain text without braces or a field; written one
behind the other, parts are read back as such, so that substitution changes the fields and nothing
else. Each line of a standard template is made this way, so that a line of the template leaves one
line whatever stands in the fields.
-/
namespace Runbook.Template

inductive Part where
  | text (s : String)
  | field (name : String)
deriving DecidableEq, Repr

namespace Part

def written : Part → String
  | text s => s
  | field name => Template.written name

def filled (value : String → String) : Part → String
  | text s => s
  | field name => value name

def IsSafe (kind : Kind) : Part → Prop
  | text s => Text.IsPlainLine s ∧ '\x7b' ∉ s.toList
  | field name => kind.hasField name = true ∧
      name.toList.head?.any isNameStart = true ∧ name.toList.all isNameChar = true

instance (kind : Kind) (part : Part) : Decidable (part.IsSafe kind) :=
  match part with
  | text _ => inferInstanceAs (Decidable (_ ∧ _))
  | field _ => inferInstanceAs (Decidable (_ ∧ _))

def IsReadable : Part → Prop
  | text s => '\x7b' ∉ s.toList
  | field name => name.toList.head?.any isNameStart = true ∧ name.toList.all isNameChar = true

instance (part : Part) : Decidable part.IsReadable :=
  match part with
  | text _ => inferInstanceAs (Decidable (¬ _))
  | field _ => inferInstanceAs (Decidable (_ ∧ _))

theorem IsSafe.isReadable {kind : Kind} {part : Part} (h : part.IsSafe kind) :
    part.IsReadable := by
  cases part with
  | text s => exact h.2
  | field name => exact h.2

def name? : Part → Option String
  | text _ => none
  | field name => some name

end Part

/-- A token is read back with its name. -/
theorem token?_written {name : List Char} (hstart : name.head?.any isNameStart = true)
    (hchars : name.all isNameChar = true) (rest : List Char) :
    token? ('\x7b' :: '\x7b' :: (name ++ '\x7d' :: '\x7d' :: rest)) = some (name, rest) := by
  have hspelled : Spells name ('\x7b' :: '\x7b' :: ([] ++ name ++ [] ++ ['\x7d', '\x7d'])) :=
    .mk [] [] ⟨hstart, hchars⟩ (by simp) (by simp)
  simpa using hspelled.token?_append rest

theorem pieces_text (s rest : List Char) (h : '\x7b' ∉ s) :
    pieces (s ++ rest) = s.map Piece.plain ++ pieces rest := by
  induction s with
  | nil => rfl
  | cons c s ih =>
    obtain ⟨hc, hs⟩ := not_or.mp (mt List.mem_cons.mpr h)
    have hnone : token? (c :: (s ++ rest)) = none := by
      unfold token?
      split
      · rename_i heq
        exact absurd (List.cons.inj heq).1.symm hc
      · rfl
    rw [List.cons_append, pieces_of_plain hnone, ih hs, List.map_cons, List.cons_append]

theorem pieces_written_append {name : String}
    (hstart : name.toList.head?.any isNameStart = true)
    (hchars : name.toList.all isNameChar = true) (rest : String) :
    ∃ token, pieces (Template.written name ++ rest).toList =
      .token token name.toList :: pieces rest.toList := by
  obtain ⟨token, hpieces⟩ := pieces_of_token (token?_written hstart hchars rest.toList)
  have hlist : (Template.written name ++ rest).toList =
      '\x7b' :: '\x7b' :: (name.toList ++ '\x7d' :: '\x7d' :: rest.toList) := by
    simp [Template.written]
  exact ⟨token, by rw [hlist, hpieces]⟩

theorem substitute_empty (value : String → String) : substitute value "" = "" := by
  simp [substitute, pieces]

/-- Substitution leaves a text without braces alone. -/
theorem substitute_text_append (value : String → String) {s : String} (h : '\x7b' ∉ s.toList)
    (rest : String) : substitute value (s ++ rest) = s ++ substitute value rest := by
  have hplain : (s.toList.map Piece.plain).flatMap (Piece.chars value) = s.toList := by
    rw [List.flatMap_map]
    exact List.flatMap_singleton' s.toList
  apply String.toList_inj.mp
  simp only [substitute, String.toList_ofList, String.toList_append, pieces_text _ _ h,
    List.flatMap_append, hplain]

theorem substitute_written_append (value : String → String) {name : String}
    (hstart : name.toList.head?.any isNameStart = true)
    (hchars : name.toList.all isNameChar = true) (rest : String) :
    substitute value (Template.written name ++ rest) = value name ++ substitute value rest := by
  obtain ⟨token, hpieces⟩ := pieces_written_append hstart hchars rest
  apply String.toList_inj.mp
  rw [substitute, hpieces]
  simp only [substitute, String.toList_ofList, String.toList_append, List.flatMap_cons,
    Piece.chars, String.ofList_toList]

/-- Substitution fills the parts in front of a text and goes on behind them. -/
theorem substitute_append (value : String → String) {parts : List Part}
    (h : ∀ part ∈ parts, part.IsReadable) (rest : String) :
    substitute value (String.join (parts.map Part.written) ++ rest) =
      String.join (parts.map (Part.filled value)) ++ substitute value rest := by
  induction parts with
  | nil => simp
  | cons part parts ih =>
    obtain ⟨hpart, hparts⟩ := List.forall_mem_cons.mp h
    rw [List.map_cons, List.map_cons, String.join_cons, String.join_cons, String.append_assoc,
      String.append_assoc, ← ih hparts]
    cases part with
    | text s => exact substitute_text_append value hpart _
    | field name => exact substitute_written_append value hpart.1 hpart.2 _

theorem substitute_join (value : String → String) {parts : List Part}
    (h : ∀ part ∈ parts, part.IsReadable) :
    substitute value (String.join (parts.map Part.written)) =
      String.join (parts.map (Part.filled value)) := by
  simpa [substitute_empty] using substitute_append value h ""

theorem names_text_append {s : String} (h : '\x7b' ∉ s.toList) (rest : String) :
    names (s ++ rest) = names rest := by
  have hplain : (s.toList.map Piece.plain).filterMap Piece.name? = [] := by
    simp [Piece.name?]
  rw [names, String.toList_append, pieces_text _ _ h, List.filterMap_append, hplain]
  rfl

theorem names_written_append {name : String} (hstart : name.toList.head?.any isNameStart = true)
    (hchars : name.toList.all isNameChar = true) (rest : String) :
    names (Template.written name ++ rest) = name :: names rest := by
  obtain ⟨token, hpieces⟩ := pieces_written_append hstart hchars rest
  rw [names, hpieces, List.filterMap_cons, Piece.name?, String.ofList_toList]
  rfl

/-- The tokens of a text made of parts are its fields. -/
theorem names_join {parts : List Part} (h : ∀ part ∈ parts, part.IsReadable) :
    names (String.join (parts.map Part.written)) = parts.filterMap Part.name? := by
  induction parts with
  | nil => simp [names, pieces]
  | cons part parts ih =>
    obtain ⟨hpart, hparts⟩ := List.forall_mem_cons.mp h
    rw [List.map_cons, String.join_cons]
    cases part with
    | text s =>
      have hrest := names_text_append hpart (String.join (parts.map Part.written))
      rw [ih hparts] at hrest
      exact hrest
    | field name =>
      have hrest := names_written_append hpart.1 hpart.2 (String.join (parts.map Part.written))
      rw [ih hparts] at hrest
      exact hrest

/-- Substitution goes line by line. -/
theorem substitute_unlines (value : String → String) {kind : Kind} {ls : List (List Part)}
    (h : ∀ parts ∈ ls, ∀ part ∈ parts, part.IsSafe kind) :
    substitute value (Text.unlines (ls.map fun parts => String.join (parts.map Part.written))) =
      Text.unlines (ls.map fun parts =>
        substitute value (String.join (parts.map Part.written))) := by
  induction ls with
  | nil => exact substitute_empty value
  | cons parts rest ih =>
    obtain ⟨hparts, hrest⟩ := List.forall_mem_cons.mp h
    by_cases hnil : rest = []
    · subst hnil
      rfl
    · have hbreak : '\x7b' ∉ "\n".toList := by decide
      have hreadable : ∀ part ∈ parts, part.IsReadable :=
        fun part hpart => (hparts part hpart).isReadable
      rw [List.map_cons, Text.unlines_cons _ (by simpa using hnil), String.append_assoc,
        substitute_append value hreadable, substitute_text_append value hbreak, ih hrest,
        List.map_cons, Text.unlines_cons _ (by simpa using hnil), substitute_join value hreadable,
        String.append_assoc]

/-- Parts that leave something plain make a plain line. -/
theorem isPlainLine_join_filled {value : String → String} {kind : Kind}
    (hvalue : ∀ name, kind.hasField name = true → Text.IsPlainLine (value name))
    {parts : List Part} (hne : parts ≠ []) (h : ∀ part ∈ parts, part.IsSafe kind) :
    Text.IsPlainLine (String.join (parts.map (Part.filled value))) := by
  induction parts with
  | nil => exact absurd rfl hne
  | cons part rest ih =>
    obtain ⟨hpart, hrest⟩ := List.forall_mem_cons.mp h
    have hplain : Text.IsPlainLine (part.filled value) := by
      cases part with
      | text s => exact hpart.1
      | field name => exact hvalue name hpart.1
    rw [List.map_cons, String.join_cons]
    by_cases hnil : rest = []
    · subst hnil
      simpa using hplain
    · exact (ih hnil hrest).prepend hplain.2

def argument (name : String) : List Part := [.text ("    " ++ name ++ "="), .field name, .text ","]

def standardLines : Kind → List (List Part)
  | .start => [[.text "ctx.begin(", .field "id", .text ")"]]
  | .finish => [[.text "ctx.finish(", .field "id", .text ")"]]
  | .task =>
    [[.text "ctx.run_task(", .field "id", .text ", action=", .field "action", .text ", ",
      .field "policy", .text ")"]]
  | .condition =>
    [[.text "if ctx.evaluate(", .field "id", .text ", ", .field "expression", .text "):"]]
  | .loop =>
    [[.text "for iteration in ctx.iterations(", .field "id", .text ", max_iterations=",
      .field "max_iterations", .text ", until=", .field "until", .text "):"]]
  | .connect =>
    [[.text "ctx.connect("], [.text "    ", .field "id", .text ","]] ++
      ["hosts", "device_type", "username", "password", "secret", "port", "conn_timeout",
        "global_delay_factor"].map argument ++
      [[.text "    ", .field "policy", .text ","], [.text ")"]]
  | .deploy =>
    [[.text "ctx.deploy_config(", .field "id", .text ", commands=", .field "commands",
      .text ", save_config=", .field "save_config", .text ", ", .field "policy", .text ")"]]
  | .execute =>
    [[.text "ctx.execute(", .field "id", .text ", commands=", .field "commands", .text ", ",
      .field "policy", .text ")"]]
  | .backup =>
    [[.text "ctx.backup_config(", .field "id", .text ", command=", .field "command",
      .text ", destination=", .field "destination", .text ", ", .field "policy", .text ")"]]
  | .check =>
    [[.text "if ctx.check_status(", .field "id", .text ", command=", .field "command",
      .text ", expect=", .field "expect", .text ", ", .field "policy", .text "):"]]

theorem isSafe_standardLines (kind : Kind) :
    ∀ parts ∈ standardLines kind, parts ≠ [] ∧ ∀ part ∈ parts, part.IsSafe kind := by
  cases kind <;> decide +kernel

theorem ofKind_eq_unlines (kind : Kind) : ofKind kind =
    Text.unlines ((standardLines kind).map fun parts => String.join (parts.map Part.written)) := by
  cases kind <;> decide +kernel

theorem lines_ofKind (kind : Kind) : Text.lines (ofKind kind) =
    (standardLines kind).map fun parts => String.join (parts.map Part.written) := by
  have hplain : ∀ parts ∈ standardLines kind,
      Text.IsPlainLine (String.join (parts.map Part.written)) := by
    cases kind <;> decide +kernel
  rw [ofKind_eq_unlines]
  exact Text.lines_unlines (List.forall_mem_map.mpr hplain)

/-- The standard table fills in the template of a kind line by line. -/
theorem render_standard (kind : Kind) (fields : List (String × String)) :
    Table.standard.render kind fields =
      Text.unlines ((Text.lines (ofKind kind)).map
        (substitute fun name => (fields.lookup name).getD "")) := by
  have hsafe : ∀ parts ∈ standardLines kind, ∀ part ∈ parts, part.IsSafe kind :=
    fun parts hparts => (isSafe_standardLines kind parts hparts).2
  have hmade := substitute_unlines (fun name => (fields.lookup name).getD "") hsafe
  rw [← ofKind_eq_unlines] at hmade
  rw [lines_ofKind, List.map_map]
  exact hmade

/-- A line of a standard template leaves a plain line if all fields are plain lines. -/
theorem isPlainLine_substitute {value : String → String} {kind : Kind}
    (hvalue : ∀ name, kind.hasField name = true → Text.IsPlainLine (value name)) {line : String}
    (hline : line ∈ Text.lines (ofKind kind)) : Text.IsPlainLine (substitute value line) := by
  rw [lines_ofKind] at hline
  obtain ⟨parts, hparts, rfl⟩ := List.mem_map.mp hline
  obtain ⟨hne, hsafe⟩ := isSafe_standardLines kind parts hparts
  rw [substitute_join value fun part hpart => (hsafe part hpart).isReadable]
  exact isPlainLine_join_filled hvalue hne hsafe

end Runbook.Template
