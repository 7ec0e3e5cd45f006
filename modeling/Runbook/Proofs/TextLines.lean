import Mathlib.Data.List.Infix
import Mathlib.Tactic.Common
import Runbook.Text.Blank
import Runbook.Text.Lines

/-!
Texts made of lines that can be told apart again. A line is plain if there is something on it and
no break in it. Plain lines put one below the other, with or without a break behind the last, are
the lines of the text that they make. The lines of any text are parts of it, and so is what is left
of them without the blanks that they end in.
-/
namespace Runbook.Text

/-- Characters of one sort in front of a text that does not begin with that sort. -/
theorem span_append {p : Char → Bool} {xs rest : List Char} (hxs : ∀ x ∈ xs, p x = true)
    (hrest : ∀ x ∈ rest.head?, p x = false) :
    (xs ++ rest).takeWhile p = xs ∧ (xs ++ rest).dropWhile p = rest := by
  rw [List.takeWhile_append_of_pos hxs, List.dropWhile_append_of_pos hxs]
  cases rest with
  | nil => simp
  | cons c more =>
    have hc : p c = false := hrest c rfl
    simp [hc]

def IsPlainLine (line : String) : Prop :=
  line ≠ "" ∧ '\n' ∉ line.toList ∧ '\r' ∉ line.toList

instance (line : String) : Decidable (IsPlainLine line) :=
  inferInstanceAs (Decidable (_ ∧ _ ∧ _))

def unlines : List String → String
  | [] => ""
  | line :: rest => rest.foldl (fun text line => text ++ "\n" ++ line) line

theorem splitLines_append (line xs rest : List Char) (h : '\n' ∉ xs) :
    splitLines line (xs ++ rest) = splitLines (xs.reverse ++ line) rest := by
  induction xs generalizing line with
  | nil => rfl
  | cons c xs ih =>
    obtain ⟨hc, hxs⟩ := not_or.mp (mt List.mem_cons.mpr h)
    rw [List.cons_append, splitLines]
    · rw [ih (c :: line) hxs, List.reverse_cons, List.append_assoc, List.singleton_append]
    · exact fun heq => hc heq.symm

theorem finishLine_reverse (line : List Char) (h : '\r' ∉ line) :
    finishLine line.reverse = line := by
  unfold finishLine
  split
  · rename_i rest heq
    have hmem : '\r' ∈ line.reverse := by rw [heq]; exact List.mem_cons_self
    exact absurd (List.mem_reverse.mp hmem) h
  · exact List.reverse_reverse line

theorem lines_of_isPlainLine {line : String} (h : IsPlainLine line) : lines line = [line] := by
  obtain ⟨hne, hbreak, -⟩ := h
  have hsplit := splitLines_append [] line.toList [] hbreak
  simp only [List.append_nil] at hsplit
  have hrev : line.toList.reverse.isEmpty = false := by simpa using hne
  simp [lines, hsplit, splitLines, hrev]

theorem lines_append_break {line : String} (h : IsPlainLine line) (rest : String) :
    lines (line ++ "\n" ++ rest) = line :: lines rest := by
  obtain ⟨-, hbreak, hreturn⟩ := h
  have hlist : (line ++ "\n" ++ rest).toList = line.toList ++ '\n' :: rest.toList := by simp
  have hsplit := splitLines_append [] line.toList ('\n' :: rest.toList) hbreak
  simp only [List.append_nil, splitLines] at hsplit
  rw [finishLine_reverse _ hreturn] at hsplit
  simp [lines, hlist, hsplit]

theorem unlines_cons (line : String) {rest : List String} (h : rest ≠ []) :
    unlines (line :: rest) = line ++ "\n" ++ unlines rest := by
  obtain ⟨next, rest, rfl⟩ := List.exists_cons_of_ne_nil h
  have hfold : ∀ (text : String), rest.foldl (fun text line => text ++ "\n" ++ line)
      (line ++ "\n" ++ text) =
        line ++ "\n" ++ rest.foldl (fun text line => text ++ "\n" ++ line) text := by
    induction rest with
    | nil => exact fun text => rfl
    | cons x rest ih =>
      intro text
      have := ih (by simp) (text ++ "\n" ++ x)
      simpa [String.append_assoc] using this
  exact hfold next

theorem unlines_append {above : List String} (h : above ≠ []) (below : List String) :
    unlines (above ++ below) =
      below.foldl (fun text line => text ++ "\n" ++ line) (unlines above) := by
  obtain ⟨line, rest, rfl⟩ := List.exists_cons_of_ne_nil h
  simp [unlines, List.foldl_append]

/-- Plain lines are the lines of the text that they make. -/
theorem lines_unlines {ls : List String} (h : ∀ line ∈ ls, IsPlainLine line) :
    lines (unlines ls) = ls := by
  induction ls with
  | nil => simp [lines, unlines, splitLines]
  | cons line rest ih =>
    obtain ⟨hline, hrest⟩ := List.forall_mem_cons.mp h
    by_cases hnil : rest = []
    · subst hnil
      exact lines_of_isPlainLine hline
    · rw [unlines_cons line hnil, lines_append_break hline, ih hrest]

/-- A break behind the last line makes no difference. -/
theorem lines_join_breaks {ls : List String} (h : ∀ line ∈ ls, IsPlainLine line) :
    lines (String.join (ls.map fun line => line ++ "\n")) = ls := by
  induction ls with
  | nil => simp [lines, splitLines]
  | cons line rest ih =>
    obtain ⟨hline, hrest⟩ := List.forall_mem_cons.mp h
    rw [List.map_cons, String.join_cons, lines_append_break hline, ih hrest]

/-- A line stays plain behind a text without breaks. -/
theorem IsPlainLine.prepend {s t : String} (hs : '\n' ∉ s.toList ∧ '\r' ∉ s.toList)
    (ht : IsPlainLine t) : IsPlainLine (s ++ t) := by
  obtain ⟨ht, htbreak, htreturn⟩ := ht
  simp [IsPlainLine, String.append_eq_empty_iff, ht, hs, htbreak, htreturn]

theorem isPrefix_finishLine (line : List Char) : finishLine line <+: line.reverse := by
  unfold finishLine
  split
  · rw [List.reverse_cons]
    exact List.prefix_append _ _
  · exact List.prefix_refl _

theorem infix_of_mem_splitLines {line s found : List Char} (h : found ∈ splitLines line s) :
    found <:+: line.reverse ++ s := by
  induction line, s using splitLines.induct with
  | case1 line hnone => simp [splitLines, hnone] at h
  | case2 line hsome =>
    obtain rfl : found = line.reverse := by simpa [splitLines, hsome] using h
    exact (List.prefix_append _ _).isInfix
  | case3 line rest ih =>
    rw [splitLines] at h
    rcases List.mem_cons.mp h with rfl | h
    · exact ((isPrefix_finishLine line).trans (List.prefix_append _ _)).isInfix
    · exact (ih h).trans ((List.suffix_cons _ _).trans (List.suffix_append _ _)).isInfix
  | case4 line c rest hbreak ih =>
    rw [splitLines] at h
    · simpa using ih h
    · exact hbreak

/-- The lines of a text are parts of it. -/
theorem infix_of_mem_lines {line s : String} (h : line ∈ lines s) : line.toList <:+: s.toList := by
  obtain ⟨found, hfound, rfl⟩ := List.mem_map.mp h
  rw [String.toList_ofList]
  exact infix_of_mem_splitLines hfound

theorem isPrefix_trimEnd (s : List Char) : trimEnd s <+: s := by
  have hsuffix := (List.dropWhile_suffix (l := s.reverse) isBlank).reverse
  rwa [List.reverse_reverse] at hsuffix

end Runbook.Text
