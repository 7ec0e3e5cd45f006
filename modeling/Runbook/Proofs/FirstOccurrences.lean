import Mathlib.Data.List.Induction
import Mathlib.Data.List.Nodup
import Mathlib.Tactic.Common
import Runbook.Compiler.Script

/-!
Lists without their repeats. What is left of a list stands in the order in which it first came up.
Missing references are listed this way: an entry for each one in the order in which they came up,
and in it the nodes in the order in which they came up with it.
-/
namespace Runbook

section

variable {α β : Type} [BEq α] [LawfulBEq α] [BEq β] [LawfulBEq β]

theorem eraseDups_concat (l : List α) (a : α) :
    (l ++ [a]).eraseDups = if a ∈ l then l.eraseDups else l.eraseDups ++ [a] := by
  rw [List.eraseDups_append]
  by_cases ha : a ∈ l <;> simp [List.removeAll, List.eraseDups_cons, ha]

theorem nodup_eraseDups (l : List α) : l.eraseDups.Nodup := by
  induction l using List.reverseRecOn with
  | nil => simp
  | append_singleton l a ih =>
    rw [eraseDups_concat]
    split
    · exact ih
    · rename_i ha
      have hfresh : a ∉ l.eraseDups := mt List.mem_eraseDups.mp ha
      rw [← List.concat_eq_append]
      exact List.Nodup.concat hfresh ih

/-- A choice that keeps elements apart may be made before or after repeats go. -/
theorem filterMap_eraseDups {f : α → Option β}
    (hf : ∀ a a' b, f a = some b → f a' = some b → a = a') (l : List α) :
    l.eraseDups.filterMap f = (l.filterMap f).eraseDups := by
  induction l using List.reverseRecOn with
  | nil => rfl
  | append_singleton l a ih =>
    rw [eraseDups_concat, List.filterMap_append]
    cases ha : f a with
    | none => split <;> simp [ha, ih]
    | some b =>
      have hmem : b ∈ l.filterMap f ↔ a ∈ l := by
        constructor
        · intro hb
          obtain ⟨a', ha', hb⟩ := List.mem_filterMap.mp hb
          rwa [hf a a' b ha hb]
        · exact fun hmem => List.mem_filterMap.mpr ⟨a, hmem, ha⟩
      have hone : [a].filterMap f = [b] := by simp [ha]
      rw [hone, eraseDups_concat]
      by_cases hmem' : a ∈ l
      · rw [if_pos hmem', if_pos (hmem.mpr hmem'), ih]
      · rw [if_neg hmem', if_neg (mt hmem.mp hmem'), List.filterMap_append, hone, ih]

theorem filter_eraseDups (p : α → Bool) (l : List α) :
    l.eraseDups.filter p = (l.filter p).eraseDups := by
  have hapart : ∀ a a' b, Option.guard p a = some b → Option.guard p a' = some b → a = a' := by
    intro a a' b ha ha'
    rw [Option.guard_eq_some_iff] at ha ha'
    exact ha.1.trans ha'.1.symm
  have h := filterMap_eraseDups hapart l
  rwa [List.filterMap_eq_filter] at h

/-- Repeats may go before a map as well as after it. -/
theorem eraseDups_map_eraseDups (f : α → β) (l : List α) :
    (l.eraseDups.map f).eraseDups = (l.map f).eraseDups := by
  induction l using List.reverseRecOn with
  | nil => rfl
  | append_singleton l a ih =>
    have hmem : f a ∈ l.eraseDups.map f ↔ f a ∈ l.map f := by simp
    rw [eraseDups_concat, List.map_append, List.map_singleton, eraseDups_concat]
    by_cases ha : a ∈ l
    · rw [if_pos ha, if_pos (List.mem_map_of_mem ha), ih]
    · rw [if_neg ha, List.map_append, List.map_singleton, eraseDups_concat, ih]
      simp only [hmem]

end

namespace Missing

def reference (m : Missing) : Reference := ⟨m.kind, m.id⟩

def entry (pairs : List (NodeId × Reference)) (r : Reference) : Missing :=
  ⟨r.kind, r.id, (pairs.filter fun p => p.2 = r).map Prod.fst⟩

theorem entry_concat_of_ne {pairs : List (NodeId × Reference)} {node : NodeId} {r other : Reference}
    (h : other ≠ r) : entry (pairs ++ [(node, r)]) other = entry pairs other := by
  simp [entry, List.filter_append, Ne.symm h]

theorem entry_concat_self (pairs : List (NodeId × Reference)) (node : NodeId) (r : Reference) :
    entry (pairs ++ [(node, r)]) r =
      { entry pairs r with referencedBy := (entry pairs r).referencedBy ++ [node] } := by
  simp [entry, List.filter_append]

/-- Adding a node changes the entry of its reference, or makes one behind all others. -/
theorem add_map_entry {pairs : List (NodeId × Reference)} (node : NodeId) {r : Reference}
    {refs : List Reference} (hnodup : refs.Nodup)
    (hpairs : r ∉ refs → (pairs.filter fun p => p.2 = r) = []) :
    add node r (refs.map (entry pairs)) =
      (if r ∈ refs then refs else refs ++ [r]).map (entry (pairs ++ [(node, r)])) := by
  induction refs with
  | nil =>
    have hnone := hpairs List.not_mem_nil
    simp [add, entry, hnone]
  | cons other refs ih =>
    obtain ⟨hother, hnodup⟩ := List.nodup_cons.mp hnodup
    by_cases hsame : other = r
    · subst hsame
      have hrest : refs.map (entry (pairs ++ [(node, other)])) = refs.map (entry pairs) := by
        apply List.map_congr_left
        intro r hr
        exact entry_concat_of_ne fun heq => hother (heq ▸ hr)
      rw [if_pos List.mem_cons_self, List.map_cons, List.map_cons, entry_concat_self, hrest, add]
      exact if_pos ⟨rfl, rfl⟩
    · have hkeys : ¬ ((entry pairs other).kind = r.kind ∧ (entry pairs other).id = r.id) := by
        intro hkey
        obtain ⟨hkind, hid⟩ := hkey
        exact hsame (by cases other; cases r; cases hkind; cases hid; rfl)
      have hmem : r ∈ other :: refs ↔ r ∈ refs := by simp [Ne.symm hsame]
      have hrest := ih hnodup fun hr => hpairs (mt hmem.mp hr)
      rw [List.map_cons, add, if_neg hkeys, hrest]
      by_cases hr : r ∈ refs
      · rw [if_pos hr, if_pos (hmem.mpr hr), List.map_cons, entry_concat_of_ne hsame]
      · rw [if_neg hr, if_neg (mt hmem.mp hr), List.cons_append, List.map_cons,
          entry_concat_of_ne hsame]

/-- Pairs leave an entry for each reference, where it first comes up. -/
theorem foldl_add (pairs : List (NodeId × Reference)) :
    pairs.foldl (fun entries p => add p.1 p.2 entries) [] =
      (pairs.map Prod.snd).eraseDups.map (entry pairs) := by
  induction pairs using List.reverseRecOn with
  | nil => rfl
  | append_singleton pairs p ih =>
    obtain ⟨node, r⟩ := p
    have hpairs : r ∉ (pairs.map Prod.snd).eraseDups →
        (pairs.filter fun p => p.2 = r) = [] := by
      intro hr
      apply List.filter_eq_nil_iff.mpr
      intro p hp heq
      exact hr (List.mem_eraseDups.mpr (List.mem_map.mpr ⟨p, hp, by simpa using heq⟩))
    rw [List.foldl_append, List.foldl_cons, List.foldl_nil, ih,
      add_map_entry node (nodup_eraseDups _) hpairs, List.map_append, List.map_singleton,
      eraseDups_concat]
    simp only [List.mem_eraseDups]

end Missing

end Runbook
