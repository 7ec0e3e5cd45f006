import Mathlib.Tactic.Common
import Runbook.Compiler.Expression
import Runbook.Proofs.TextLines

/-!
Expressions stay on their line. Whatever stands in a text, a quoted form of it shows no control
character, and neither does any other expression, so no value of a step can break the line that it
is put in.
-/
namespace Runbook.Expression

theorem not_isControl_digitChar : ∀ n < 16, isControl (Nat.digitChar n) = false := by
  decide

theorem not_isControl_of_isDigit {c : Char} (h : c.isDigit = true) : isControl c = false := by
  simp only [Char.isDigit, Bool.and_eq_true, decide_eq_true_eq, UInt32.le_iff_toNat_le,
    ge_iff_le] at h
  obtain ⟨hlow, hhigh⟩ := h
  change 48 ≤ c.toNat at hlow
  change c.toNat ≤ 57 at hhigh
  simp only [isControl, Bool.or_eq_false_iff, decide_eq_false_iff_not, Bool.and_eq_false_iff]
  omega

theorem not_isControl_of_mem_toDigits {n : Nat} {c : Char} (h : c ∈ Nat.toDigits 10 n) :
    isControl c = false :=
  not_isControl_of_isDigit (Nat.isDigit_of_mem_toDigits (by decide) (by decide) h)

theorem not_isControl_of_mem_escapeChar {c d : Char} (h : d ∈ escapeChar c) :
    isControl d = false := by
  have hpair : ∀ e, isControl e = false → d ∈ ['\\', e] → isControl d = false := by
    intro e he hd
    rcases List.mem_cons.mp hd with rfl | hd
    · decide
    · rwa [List.mem_singleton.mp hd]
  unfold escapeChar at h
  split_ifs at h with _ _ _ _ _ hcontrol
  · exact hpair _ (by decide) h
  · exact hpair _ (by decide) h
  · exact hpair _ (by decide) h
  · exact hpair _ (by decide) h
  · exact hpair _ (by decide) h
  · -- A control has a code below 160, so both of its hexadecimal digits are digits.
    simp only [isControl, Bool.or_eq_true, Bool.and_eq_true, decide_eq_true_eq] at hcontrol
    simp only [hexByte, List.mem_cons, List.not_mem_nil, or_false] at h
    rcases h with rfl | rfl | rfl | rfl
    · decide
    · decide
    · exact not_isControl_digitChar _ (by omega)
    · exact not_isControl_digitChar _ (by omega)
  · obtain rfl := List.mem_singleton.mp h
    simpa using hcontrol

/-- A quoted text shows no control character. -/
theorem not_isControl_of_mem_quote {s : String} {c : Char} (h : c ∈ quote s) :
    isControl c = false := by
  simp only [quote, List.mem_append, List.mem_cons, List.mem_flatMap, List.not_mem_nil,
    or_false] at h
  rcases h with (rfl | ⟨d, _, h⟩) | rfl
  · decide
  · exact not_isControl_of_mem_escapeChar h
  · decide

theorem not_isControl_of_mem_separated {items : List (List Char)}
    (hitems : ∀ item ∈ items, ∀ c ∈ item, isControl c = false) {c : Char}
    (h : c ∈ separated items) : isControl c = false := by
  induction items with
  | nil => simp [separated] at h
  | cons item rest ih =>
    obtain ⟨hitem, hrest⟩ := List.forall_mem_cons.mp hitems
    cases rest with
    | nil => exact hitem c h
    | cons next rest =>
      simp only [separated, List.mem_append, List.mem_cons] at h
      rcases h with h | rfl | rfl | h
      · exact hitem c h
      · decide
      · decide
      · exact ih hrest h

theorem not_isControl_of_mem_positionalText {d : Decimal} {c : Char}
    (h : c ∈ Layout.positionalText false d) : isControl c = false := by
  have hpad : ∀ {n : Nat} {c : Char},
      c ∈ List.replicate n '0' ++ Nat.toDigits 10 d.digits → isControl c = false := by
    intro n c hc
    rcases List.mem_append.mp hc with hc | hc
    · rw [List.eq_of_mem_replicate hc]
      decide
    · exact not_isControl_of_mem_toDigits hc
  simp only [Layout.positionalText, Bool.false_eq_true, if_false, List.append_nil] at h
  split_ifs at h
  · rcases List.mem_append.mp h with h | h
    · exact not_isControl_of_mem_toDigits h
    · rw [List.eq_of_mem_replicate h]
      decide
  · rcases List.mem_append.mp h with h | h
    · exact hpad (List.mem_of_mem_take h)
    · rcases List.mem_cons.mp h with rfl | h
      · decide
      · exact hpad (List.mem_of_mem_drop h)

theorem not_isControl_of_mem_decimal {x : Binary64} {c : Char} (h : c ∈ Layout.script.text x) :
    isControl c = false := by
  simp only [Layout.text, Layout.script, if_true] at h
  split_ifs at h
  · rcases List.mem_cons.mp h with rfl | h
    · decide
    · exact not_isControl_of_mem_positionalText h
  · exact not_isControl_of_mem_positionalText h

/-- No expression shows a control character. -/
theorem not_isControl_of_mem_chars {e : Expression} {c : Char} (h : c ∈ e.chars) :
    isControl c = false := by
  have hword : ∀ {word : List Char}, word.all (fun c => !isControl c) = true → c ∈ word →
      isControl c = false := by
    intro word hall hc
    simpa using List.all_eq_true.mp hall c hc
  have hdigits : ∀ {n : Nat}, c ∈ Text.numeralChars n → isControl c = false := by
    intro n hc
    rw [Text.numeralChars] at hc
    exact not_isControl_of_mem_toDigits hc
  cases e with
  | none => exact hword (by decide) h
  | truth b => cases b <;> exact hword (by decide) h
  | natural n =>
    rw [chars_natural] at h
    exact hdigits h
  | decimal x =>
    rw [chars_decimal] at h
    exact not_isControl_of_mem_decimal h
  | text s => exact not_isControl_of_mem_quote h
  | texts items =>
    simp only [chars_texts, List.mem_append, List.mem_cons, List.not_mem_nil, or_false] at h
    rcases h with (rfl | h) | rfl
    · decide
    · refine not_isControl_of_mem_separated (fun item hitem d hd => ?_) h
      obtain ⟨s, _, rfl⟩ := List.mem_map.mp hitem
      exact not_isControl_of_mem_quote hd
    · decide
  | secret credential name =>
    simp only [chars_secret, List.mem_append, List.mem_cons, List.not_mem_nil, or_false] at h
    rcases h with ((h | h) | rfl | rfl | h) | rfl
    · exact hword (by decide) h
    · exact not_isControl_of_mem_quote h
    · decide
    · decide
    · exact not_isControl_of_mem_quote h
    · decide
  | policy p timeout =>
    simp only [chars_policy, List.mem_append] at h
    rcases h with ((((((h | h) | h) | h) | h) | h) | h) | h
    · exact hword (by decide) h
    · exact hdigits h
    · exact hword (by decide) h
    · exact hdigits h
    · exact hword (by decide) h
    · exact not_isControl_of_mem_quote h
    · exact hword (by decide) h
    · cases timeout with
      | none => exact hword (by decide) h
      | some seconds => exact hdigits h

theorem positionalText_ne_nil (d : Decimal) : Layout.positionalText false d ≠ [] := by
  simp only [Layout.positionalText, Bool.false_eq_true, if_false, List.append_nil]
  split_ifs
  · simp [Nat.toDigits_ne_nil]
  · simp

theorem decimal_ne_nil (x : Binary64) : Layout.script.text x ≠ [] := by
  simp only [Layout.text, Layout.script, if_true]
  split_ifs
  · exact List.cons_ne_nil _ _
  · exact positionalText_ne_nil _

theorem chars_ne_nil (e : Expression) : e.chars ≠ [] := by
  cases e with
  | none => decide
  | truth b => cases b <;> decide
  | natural n =>
    rw [chars_natural, Text.numeralChars]
    exact Nat.toDigits_ne_nil
  | decimal x =>
    rw [chars_decimal]
    exact decimal_ne_nil x
  | text s => simp [quote]
  | texts items => simp
  | secret credential name => simp
  | policy p timeout => simp

/-- An expression is a line of its own. -/
theorem isPlainLine_render (e : Expression) : Text.IsPlainLine e.render := by
  have habsent : ∀ c, isControl c = true → c ∉ e.render.toList := by
    intro c hc hmem
    rw [render, String.toList_ofList] at hmem
    rw [not_isControl_of_mem_chars hmem] at hc
    exact Bool.noConfusion hc
  refine ⟨fun hempty => e.chars_ne_nil ?_, habsent _ (by decide), habsent _ (by decide)⟩
  have hchars := congrArg String.toList hempty
  simpa [render] using hchars

end Runbook.Expression
