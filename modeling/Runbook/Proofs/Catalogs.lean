import Mathlib.Data.List.Nodup
import Mathlib.Data.List.Perm.Basic
import Mathlib.Tactic.Common
import Runbook.Catalog

/-!
Catalogs as finite maps. Putting entries of different names into a catalog one after another gives
the same catalog in every order, and a catalog is known by what it has for each name.
-/
namespace Runbook.Catalog

variable {α : Type}

theorem insertEntry_perm {name : String} {a : α} {entries : List (String × α)}
    (h : name ∉ entries.map Prod.fst) :
    (insertEntry name a entries).Perm ((name, a) :: entries) := by
  induction entries with
  | nil => exact .refl _
  | cons e rest ih =>
    rw [List.map_cons, List.mem_cons, not_or] at h
    unfold insertEntry
    split
    · exact .refl _
    · rw [if_neg h.1]
      exact ((ih h.2).cons e).trans (.swap _ _ _)

/-- Entries of different names, put in one after another, are all there. -/
theorem foldl_insertEntry_perm {entries : List (String × α)} {before : List (String × α)}
    (h : ((entries ++ before).map Prod.fst).Nodup) :
    (entries.foldl (fun sorted e => insertEntry e.1 e.2 sorted) before).Perm
      (entries ++ before) := by
  induction entries generalizing before with
  | nil => exact .refl _
  | cons e rest ih =>
    rw [List.cons_append, List.map_cons, List.nodup_cons] at h
    have hfresh : e.1 ∉ before.map Prod.fst := fun hmem =>
      h.1 (by rw [List.map_append]; exact List.mem_append_right _ hmem)
    have hrest : (rest ++ insertEntry e.1 e.2 before).Perm (e :: (rest ++ before)) :=
      ((insertEntry_perm hfresh).append_left rest).trans List.perm_middle
    have hnodup : ((rest ++ insertEntry e.1 e.2 before).map Prod.fst).Nodup :=
      (hrest.map Prod.fst).nodup_iff.mpr (List.nodup_cons.mpr h)
    exact (ih hnodup).trans hrest

theorem entries_ofList (entries : List (String × α)) :
    (ofList entries).entries =
      entries.foldl (fun sorted e => insertEntry e.1 e.2 sorted) [] := by
  have hfold (c : Catalog α) : (entries.foldl (fun c e => c.insert e.1 e.2) c).entries =
      entries.foldl (fun sorted e => insertEntry e.1 e.2 sorted) c.entries := by
    induction entries generalizing c with
    | nil => rfl
    | cons e rest ih => exact ih (c.insert e.1 e.2)
  exact hfold empty

theorem ext_entries {c d : Catalog α} (h : c.entries = d.entries) : c = d := by
  cases c
  cases d
  cases h
  rfl

theorem nodup_names (c : Catalog α) : (c.entries.map Prod.fst).Nodup := by
  rw [List.Nodup, List.pairwise_map]
  refine c.sorted.imp fun {a b} hlt heq => ?_
  rw [heq] at hlt
  exact String.lt_irrefl b.1 hlt

/-- A catalog is made again from its entries, in whatever order they come. -/
theorem ofList_eq {c : Catalog α} {entries : List (String × α)} (h : entries.Perm c.entries) :
    ofList entries = c := by
  have hnodup : ((entries ++ []).map Prod.fst).Nodup := by
    rw [List.append_nil]
    exact (h.map Prod.fst).nodup_iff.mpr c.nodup_names
  have hperm : (ofList entries).entries.Perm c.entries := by
    rw [entries_ofList]
    exact (foldl_insertEntry_perm hnodup).trans (by rw [List.append_nil]; exact h)
  have hanti : ∀ a b : String × α, a ∈ (ofList entries).entries → b ∈ c.entries →
      a.1 < b.1 → b.1 < a.1 → a = b := fun a b _ _ hab hba =>
    absurd (String.lt_trans hab hba) (String.lt_irrefl _)
  apply ext_entries
  exact hperm.eq_of_pairwise hanti (ofList entries).sorted c.sorted

theorem lookup_cons (e : String × α) (rest : List (String × α)) (name : String) :
    (e :: rest).lookup name = if name = e.1 then some e.2 else rest.lookup name := by
  obtain ⟨own, a⟩ := e
  by_cases h : name = own
  · subst h
    simp
  · have hkeep : (name == own) = false := by simpa using h
    rw [List.lookup_cons, hkeep, if_neg h]

theorem lookup_eq_none {entries : List (String × α)} {name : String}
    (h : name ∉ entries.map Prod.fst) : entries.lookup name = none := by
  rw [List.lookup_eq_none_iff]
  intro e he
  have hne : name ≠ e.1 := fun heq => h (heq ▸ List.mem_map_of_mem he)
  simpa using hne

/-- Leaving out entries of other names makes no difference to what stands under a name. -/
theorem lookup_filter {keep : String × α → Bool} {name : String}
    (hkeep : ∀ a, keep (name, a) = true) (entries : List (String × α)) :
    (entries.filter keep).lookup name = entries.lookup name := by
  induction entries with
  | nil => rfl
  | cons e rest ih =>
    obtain ⟨own, a⟩ := e
    by_cases hown : keep (own, a) = true
    · rw [List.filter_cons_of_pos hown, lookup_cons, lookup_cons, ih]
    · have hother : name ≠ own := fun heq => hown (heq ▸ hkeep a)
      rw [List.filter_cons_of_neg hown, lookup_cons, if_neg hother, ih]

/-- An entry put in is found under its name. -/
theorem lookup_insertEntry (name : String) (a : α) (entries : List (String × α)) (other : String) :
    (insertEntry name a entries).lookup other =
      if other = name then some a else entries.lookup other := by
  induction entries with
  | nil => rw [insertEntry, lookup_cons]
  | cons e rest ih =>
    unfold insertEntry
    split
    · rw [lookup_cons]
    · split
      · rename_i hsame
        rw [lookup_cons, lookup_cons, ← hsame]
        split_ifs <;> rfl
      · rename_i hother
        rw [lookup_cons, ih, lookup_cons]
        split_ifs with h h'
        · exact absurd (h'.symm.trans h) hother
        · rfl
        · rfl
        · rfl

/-- A catalog with an entry put in has it under its name. -/
theorem get?_insert (c : Catalog α) (name : String) (a : α) (other : String) :
    (c.insert name a).get? other = if other = name then some a else c.get? other :=
  lookup_insertEntry name a c.entries other

theorem get?_erase (c : Catalog α) (name other : String) :
    (c.erase name).get? other = if other = name then none else c.get? other := by
  show (c.entries.filter fun e => e.1 ≠ name).lookup other =
    if other = name then none else c.entries.lookup other
  induction c.entries with
  | nil => simp
  | cons e rest ih =>
    by_cases hown : e.1 = name
    · rw [List.filter_cons_of_neg (by simpa using hown), ih, lookup_cons, hown]
      split_ifs <;> rfl
    · rw [List.filter_cons_of_pos (by simpa using hown), lookup_cons, ih, lookup_cons]
      split_ifs with h h'
      · exact absurd (h.symm.trans h') hown
      · rfl
      · rfl
      · rfl

theorem lookup_eq_some_iff {entries : List (String × α)} (h : (entries.map Prod.fst).Nodup)
    {name : String} {a : α} : entries.lookup name = some a ↔ (name, a) ∈ entries := by
  induction entries with
  | nil => simp
  | cons e rest ih =>
    rw [List.map_cons, List.nodup_cons] at h
    rw [lookup_cons, List.mem_cons, Prod.ext_iff]
    split_ifs with hname
    · subst hname
      have hfresh : (e.1, a) ∉ rest := fun hmem => h.1 (List.mem_map.mpr ⟨_, hmem, rfl⟩)
      simp [hfresh, eq_comm]
    · simp [hname, ih h.2]

theorem get?_eq_some_iff {c : Catalog α} {name : String} {a : α} :
    c.get? name = some a ↔ (name, a) ∈ c.entries :=
  lookup_eq_some_iff c.nodup_names

/-- Catalogs that have the same for each name are equal. -/
theorem ext_get? {c d : Catalog α} (h : ∀ name, c.get? name = d.get? name) : c = d := by
  have hmem : ∀ e, e ∈ c.entries ↔ e ∈ d.entries := fun e => by
    rw [← get?_eq_some_iff, ← get?_eq_some_iff, h]
  have hperm : c.entries.Perm d.entries :=
    (List.perm_ext_iff_of_nodup (.of_map Prod.fst c.nodup_names)
      (.of_map Prod.fst d.nodup_names)).mpr hmem
  rw [← ofList_eq (.refl c.entries), ofList_eq hperm]

/-- Nothing is taken out under a name that is not there. -/
theorem erase_of_get?_none {c : Catalog α} {name : String} (h : c.get? name = none) :
    c.erase name = c := by
  apply ext_get?
  intro other
  rw [get?_erase]
  split_ifs with heq
  · rw [heq, h]
  · rfl

/-- What stands under a name after entries of different names have been put in. -/
theorem get?_foldl_insert {entries : List (String × α)} (h : (entries.map Prod.fst).Nodup)
    (c : Catalog α) (name : String) :
    (entries.foldl (fun c e => c.insert e.1 e.2) c).get? name =
      (entries.lookup name).or (c.get? name) := by
  induction entries generalizing c with
  | nil => rfl
  | cons e rest ih =>
    rw [List.map_cons, List.nodup_cons] at h
    rw [List.foldl_cons, ih h.2, get?_insert, lookup_cons]
    split_ifs with hname
    · rw [hname, lookup_eq_none h.1]
      rfl
    · rfl

end Runbook.Catalog
