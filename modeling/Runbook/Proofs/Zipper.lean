import Mathlib.Data.List.Basic
import Mathlib.Tactic.Common
import Runbook.Editor.History

/-!
Histories as zippers. A zipper holds what came before its present, the latest first, and what was
undone, the next first; it has no cursor and no row of snapshots. The row of a history is a zipper
laid flat with the cursor on the present, and every request keeps it so: histories and zippers give
the same answers in every run. What can be undone is then read off the zipper.
-/
namespace Runbook

def runAll {σ ρ β : Type} (perform : σ → ρ → σ × β) (s : σ) : List ρ → σ × List β
  | [] => (s, [])
  | r :: rest =>
    let next := perform s r
    let last := runAll perform next.1 rest
    (last.1, next.2 :: last.2)

/-- Two machines that stay related and answer alike in one step do so in every run. -/
theorem runAll_related {σ τ ρ β : Type} {perform : σ → ρ → σ × β} {perform' : τ → ρ → τ × β}
    (R : σ → τ → Prop)
    (hstep : ∀ s t r, R s t →
      (perform s r).2 = (perform' t r).2 ∧ R (perform s r).1 (perform' t r).1)
    {s : σ} {t : τ} (h : R s t) (requests : List ρ) :
    (runAll perform s requests).2 = (runAll perform' t requests).2 ∧
      R (runAll perform s requests).1 (runAll perform' t requests).1 := by
  induction requests generalizing s t with
  | nil => exact ⟨rfl, h⟩
  | cons r rest ih =>
    obtain ⟨hanswer, hnext⟩ := hstep s t r h
    obtain ⟨hanswers, hlast⟩ := ih hnext
    refine ⟨?_, hlast⟩
    show _ :: _ = _ :: _
    rw [hanswer, hanswers]

inductive History.Request (α : Type) where
  | record (a : α)
  | undo
  | redo
  | clear

/-- A present value between its past, the latest first, and its future, the next first. -/
structure Zipper (α : Type) where
  past : List α
  present : α
  future : List α

namespace Zipper

variable {α : Type}

def single (a : α) : Zipper α := ⟨[], a, []⟩

/-- The latest entries of a past that a limit leaves room for beside the present. -/
def keep (limit : Option Nat) (past : List α) : List α :=
  match limit with
  | none => past
  | some n => past.take (max n 1 - 1)

/-- Recording moves the present onto the past, drops the future and forgets the oldest entries;
undo and redo move one entry across the present and answer it; clearing leaves the present. -/
def perform (limit : Option Nat) (z : Zipper α) : History.Request α → Zipper α × Option α
  | .record a => (⟨keep limit (z.present :: z.past), a, []⟩, none)
  | .undo =>
    match z.past with
    | [] => (z, none)
    | b :: past => (⟨past, b, z.present :: z.future⟩, some b)
  | .redo =>
    match z.future with
    | [] => (z, none)
    | b :: future => (⟨z.present :: z.past, b, future⟩, some b)
  | .clear => (single z.present, none)

theorem keep_limit (limit : Option Nat) (past : List α) :
    keep (limit.map (max · 1)) past = keep limit past := by
  cases limit with
  | none => rfl
  | some n =>
    have hmax : max (max n 1) 1 = max n 1 := by omega
    show past.take _ = past.take _
    rw [hmax]

/-- A row with one more snapshot than the past loses as many as the past does. -/
theorem keep_eq_take (limit : Option Nat) (past : List α) :
    keep limit past = past.take (past.length - History.excess limit (past.length + 1)) := by
  cases limit with
  | none => exact (List.take_length).symm
  | some n =>
    show past.take _ = past.take _
    rw [List.take_eq_take_iff]
    simp only [History.excess]
    omega

theorem keep_append_keep (limit : Option Nat) (l past : List α) :
    keep limit (l ++ keep limit past) = keep limit (l ++ past) := by
  cases limit with
  | none => rfl
  | some n =>
    have hmin : min (max n 1 - 1 - l.length) (max n 1 - 1) = max n 1 - 1 - l.length := by omega
    simp only [keep, List.take_append, List.take_take, hmin]

/-- Entries that fit within a limit are all kept. -/
theorem exists_keep_append (limit : Option Nat) (l past : List α)
    (hroom : ∀ n, limit = some n → l.length < max n 1) :
    ∃ rest, keep limit (l ++ past) = l ++ rest := by
  cases limit with
  | none => exact ⟨past, rfl⟩
  | some n =>
    have hlength : l.length ≤ max n 1 - 1 := by
      have := hroom n rfl
      omega
    refine ⟨past.take (max n 1 - 1 - l.length), ?_⟩
    show (l ++ past).take (max n 1 - 1) = _
    rw [List.take_append, List.take_of_length_le hlength]

/-- After a run of records the past holds all presents there were, as far as there is room. -/
theorem past_record_all (limit : Option Nat) (z : Zipper α) (hkept : keep limit z.past = z.past)
    (entries : List α) :
    (runAll (perform limit) z (entries.map .record)).1.past =
      keep limit ((z.present :: entries).dropLast.reverse ++ z.past) := by
  induction entries generalizing z with
  | nil => exact hkept.symm
  | cons a rest ih =>
    have hnext : keep limit (keep limit (z.present :: z.past)) =
        keep limit (z.present :: z.past) := keep_append_keep limit [] _
    have hrest := ih ⟨keep limit (z.present :: z.past), a, []⟩ hnext
    show (runAll (perform limit) ⟨keep limit (z.present :: z.past), a, []⟩ _).1.past = _
    rw [hrest, keep_append_keep, List.dropLast_cons_cons, List.reverse_cons, List.append_assoc]
    rfl

theorem present_record_all (limit : Option Nat) (z : Zipper α) (entries : List α) :
    (runAll (perform limit) z (entries.map .record)).1.present =
      entries.getLastD z.present := by
  induction entries generalizing z with
  | nil => rfl
  | cons a rest ih =>
    have hrest := ih ⟨keep limit (z.present :: z.past), a, []⟩
    rw [List.getLastD_cons]
    exact hrest

/-- Undoing as often as there are entries at the end of the past answers these entries. -/
theorem undo_all (limit : Option Nat) (z : Zipper α) (entries rest : List α)
    (hpast : z.past = entries ++ rest) :
    (runAll (perform limit) z (List.replicate entries.length .undo)).2 = entries.map some ∧
      (runAll (perform limit) z (List.replicate entries.length .undo)).1.present =
        entries.getLastD z.present := by
  induction entries generalizing z with
  | nil => exact ⟨rfl, rfl⟩
  | cons b more ih =>
    have hstep : perform limit z .undo = (⟨more ++ rest, b, z.present :: z.future⟩, some b) := by
      simp only [perform, hpast, List.cons_append]
    obtain ⟨hanswers, hpresent⟩ := ih ⟨more ++ rest, b, z.present :: z.future⟩ rfl
    rw [List.length_cons, List.replicate_succ, List.getLastD_cons]
    simp only [runAll, hstep, hanswers, List.map_cons, true_and]
    exact hpresent

/-- As many undos as there were records come by every present in between and end at the first. -/
theorem undo_all_record_all (limit : Option Nat) (z : Zipper α)
    (hkept : keep limit z.past = z.past) (entries : List α)
    (hroom : ∀ n, limit = some n → entries.length < max n 1) :
    let undone := runAll (perform limit) (runAll (perform limit) z (entries.map .record)).1
      (List.replicate entries.length .undo)
    undone.2 = ((z.present :: entries).dropLast.reverse).map some ∧
      undone.1.present = z.present := by
  have hlength : ((z.present :: entries).dropLast.reverse).length = entries.length := by simp
  obtain ⟨rest, hrest⟩ := exists_keep_append limit ((z.present :: entries).dropLast.reverse) z.past
    (fun n hn => hlength ▸ hroom n hn)
  have hpast := (past_record_all limit z hkept entries).trans hrest
  obtain ⟨hanswers, hpresent⟩ := undo_all limit _ _ rest hpast
  rw [hlength] at hanswers hpresent
  refine ⟨hanswers, hpresent.trans ?_⟩
  rw [present_record_all]
  cases entries with
  | nil => rfl
  | cons a more => simp [List.getLastD_eq_getLast?]

end Zipper

namespace History

variable {α : Type}

def opened (a : α) : Option Nat → History α
  | none => .ofInitial a
  | some n => .withLimit a n

def perform (h : History α) : Request α → History α × Option α
  | .record a => (h.record a, none)
  | .undo => (h.undo?.getD h, h.undo?.map current)
  | .redo => (h.redo?.getD h, h.redo?.map current)
  | .clear => (h.clear, none)

/-- The row of snapshots is the zipper laid flat, with the cursor on the present. -/
structure LaysFlat (h : History α) (z : Zipper α) : Prop where
  snapshots_eq : h.snapshots = z.past.reverse ++ z.present :: z.future
  cursor_eq : h.cursor = z.past.length

namespace LaysFlat

variable {h : History α} {z : Zipper α}

theorem get?_cursor (hz : h.LaysFlat z) : h.snapshots[h.cursor]? = some z.present := by
  rw [hz.snapshots_eq, hz.cursor_eq]
  simp

theorem current_eq (hz : h.LaysFlat z) : h.current = z.present := by
  have hget : h.snapshots[h.cursor]? = some h.current := List.getElem?_eq_getElem h.cursor_lt
  exact Option.some.inj (hget.symm.trans hz.get?_cursor)

theorem size_eq (hz : h.LaysFlat z) : h.size = z.past.length + 1 + z.future.length := by
  rw [size, hz.snapshots_eq]
  simp only [List.length_append, List.length_reverse, List.length_cons]
  omega

theorem snapshots_eq_reverse (hz : h.LaysFlat z) :
    h.snapshots = (z.present :: z.past).reverse ++ z.future := by
  rw [hz.snapshots_eq, List.reverse_cons, List.append_assoc]
  rfl

theorem future_eq (hz : h.LaysFlat z) : h.future = z.future := by
  rw [future, hz.snapshots_eq_reverse, hz.cursor_eq]
  exact List.drop_left' (by simp)

theorem canUndo_iff (hz : h.LaysFlat z) : h.canUndo = true ↔ z.past ≠ [] := by
  rw [canUndo, decide_eq_true_iff, hz.cursor_eq, List.length_pos_iff]

theorem canRedo_iff (hz : h.LaysFlat z) : h.canRedo = true ↔ z.future ≠ [] := by
  have hsize := hz.size_eq
  have hcursor := hz.cursor_eq
  rw [canRedo, decide_eq_true_iff, ← List.length_pos_iff]
  unfold size at hsize
  omega

theorem record (hz : h.LaysFlat z) (a : α) :
    (h.record a).LaysFlat ⟨Zipper.keep h.limit (z.present :: z.past), a, []⟩ := by
  have hkept : h.snapshots.take (h.cursor + 1) ++ [a] =
      (z.present :: z.past).reverse ++ [a] := by
    have hall : (z.present :: z.past).reverse.length = h.cursor + 1 := by simp [hz.cursor_eq]
    rw [hz.snapshots_eq_reverse, List.take_left' hall]
  have hlength : ((z.present :: z.past).reverse ++ [a]).length = (z.present :: z.past).length + 1 :=
    by simp
  have hlt : excess h.limit ((z.present :: z.past).length + 1) < (z.present :: z.past).length + 1 :=
    excess_lt h.limit (Nat.succ_pos _)
  have hle := Nat.le_of_lt_succ hlt
  constructor
  · show (h.snapshots.take (h.cursor + 1) ++ [a]).drop _ = _
    rw [hkept, hlength, List.drop_append_of_le_length (by simpa using hle), List.drop_reverse,
      ← Zipper.keep_eq_take]
  · show (h.snapshots.take (h.cursor + 1) ++ [a]).length - 1 - _ = _
    rw [hkept, hlength, Zipper.keep_eq_take, List.length_take]
    omega

/-- An entry of the past is what undoing comes back to. -/
theorem undo (hz : h.LaysFlat z) {b : α} {past : List α} (hpast : z.past = b :: past) :
    ∃ back, h.undo? = some back ∧ back.limit = h.limit ∧
      back.LaysFlat ⟨past, b, z.present :: z.future⟩ := by
  have hcursor : h.cursor = past.length + 1 := by rw [hz.cursor_eq, hpast, List.length_cons]
  refine ⟨_, if_pos (by omega), rfl, ?_, ?_⟩
  · show h.snapshots = _
    rw [hz.snapshots_eq, hpast, List.reverse_cons, List.append_assoc]
    rfl
  · show h.cursor - 1 = past.length
    omega

theorem undo?_eq_none (hz : h.LaysFlat z) (hpast : z.past = []) : h.undo? = none := by
  have hcursor : h.cursor = 0 := by rw [hz.cursor_eq, hpast, List.length_nil]
  exact if_neg (by omega)

/-- An entry of the future is what redoing goes on to. -/
theorem redo (hz : h.LaysFlat z) {b : α} {future : List α} (hfuture : z.future = b :: future) :
    ∃ ahead, h.redo? = some ahead ∧ ahead.limit = h.limit ∧
      ahead.LaysFlat ⟨z.present :: z.past, b, future⟩ := by
  have hsize := hz.size_eq
  have hcursor := hz.cursor_eq
  rw [hfuture, List.length_cons] at hsize
  unfold size at hsize
  refine ⟨_, dif_pos (by omega), rfl, ?_, ?_⟩
  · show h.snapshots = _
    rw [hz.snapshots_eq, hfuture, List.reverse_cons, List.append_assoc]
    rfl
  · show h.cursor + 1 = _
    rw [hcursor, List.length_cons]

theorem redo?_eq_none (hz : h.LaysFlat z) (hfuture : z.future = []) : h.redo? = none := by
  have hsize := hz.size_eq
  have hcursor := hz.cursor_eq
  rw [hfuture, List.length_nil] at hsize
  unfold size at hsize
  exact dif_neg (by omega)

theorem clear (hz : h.LaysFlat z) : h.clear.LaysFlat (.single z.present) := by
  refine ⟨?_, rfl⟩
  show [h.current] = _
  rw [hz.current_eq]
  rfl

end LaysFlat

structure Follows (limit : Option Nat) (h : History α) (z : Zipper α) : Prop where
  flat : h.LaysFlat z
  limit_eq : h.limit = limit.map (max · 1)
  size_le : ∀ n, limit = some n → h.size ≤ max n 1

theorem follows_opened (a : α) (limit : Option Nat) :
    (opened a limit).Follows limit (.single a) := by
  cases limit with
  | none => exact ⟨⟨rfl, rfl⟩, rfl, by simp⟩
  | some n =>
    refine ⟨⟨rfl, rfl⟩, rfl, fun m hm => ?_⟩
    show 1 ≤ max m 1
    omega

namespace Follows

variable {limit : Option Nat} {h : History α} {z : Zipper α}

/-- The past is as short as the limit asks for. -/
theorem keep_past (hz : h.Follows limit z) : Zipper.keep limit z.past = z.past := by
  cases limit with
  | none => rfl
  | some n =>
    have hsize := hz.size_le n rfl
    rw [hz.flat.size_eq] at hsize
    exact List.take_of_length_le (by omega)

/-- Undo and redo only move entries across the present. -/
theorem move (hz : h.Follows limit z) {next : History α} {moved : Zipper α}
    (hlimit : next.limit = h.limit) (hflat : next.LaysFlat moved)
    (hlength : moved.past.length + moved.future.length = z.past.length + z.future.length) :
    next.Follows limit moved := by
  refine ⟨hflat, hlimit.trans hz.limit_eq, fun n hn => ?_⟩
  have hsize := hz.size_le n hn
  rw [hz.flat.size_eq] at hsize
  rw [hflat.size_eq]
  omega

/-- One request has the same answer from a history and from its zipper, and they stay together. -/
theorem perform (hz : h.Follows limit z) (r : Request α) :
    (h.perform r).2 = (z.perform limit r).2 ∧
      (h.perform r).1.Follows limit (z.perform limit r).1 := by
  cases r with
  | record a =>
    have hflat := hz.flat.record a
    rw [hz.limit_eq, Zipper.keep_limit] at hflat
    refine ⟨rfl, hflat, hz.limit_eq, fun n hn => ?_⟩
    have hlength := hflat.size_eq
    subst hn
    simp only [Zipper.keep, List.length_take, List.length_nil] at hlength
    show (h.record a).size ≤ _
    omega
  | undo =>
    cases hpast : z.past with
    | nil =>
      have hnone := hz.flat.undo?_eq_none hpast
      simp only [History.perform, Zipper.perform, hnone, hpast]
      exact ⟨rfl, hz⟩
    | cons b past =>
      obtain ⟨back, hback, hlimit, hflat⟩ := hz.flat.undo hpast
      have hlength : past.length + (z.present :: z.future).length =
          z.past.length + z.future.length := by
        rw [hpast, List.length_cons, List.length_cons]
        omega
      simp only [History.perform, Zipper.perform, hback, hpast]
      exact ⟨congrArg some hflat.current_eq, hz.move hlimit hflat hlength⟩
  | redo =>
    cases hfuture : z.future with
    | nil =>
      have hnone := hz.flat.redo?_eq_none hfuture
      simp only [History.perform, Zipper.perform, hnone, hfuture]
      exact ⟨rfl, hz⟩
    | cons b future =>
      obtain ⟨ahead, hahead, hlimit, hflat⟩ := hz.flat.redo hfuture
      have hlength : (z.present :: z.past).length + future.length =
          z.past.length + z.future.length := by
        rw [hfuture, List.length_cons, List.length_cons]
        omega
      simp only [History.perform, Zipper.perform, hahead, hfuture]
      exact ⟨congrArg some hflat.current_eq, hz.move hlimit hflat hlength⟩
  | clear =>
    refine ⟨rfl, hz.flat.clear, hz.limit_eq, fun n hn => ?_⟩
    show 1 ≤ max n 1
    omega

theorem runAll (hz : h.Follows limit z) (requests : List (Request α)) :
    (runAll History.perform h requests).2 = (runAll (Zipper.perform limit) z requests).2 ∧
      (runAll History.perform h requests).1.Follows limit
        (runAll (Zipper.perform limit) z requests).1 :=
  runAll_related (Follows limit) (fun _ _ r hst => hst.perform r) hz requests

end Follows

/-- Redoing takes back what was undone, with all that lay around it. -/
theorem redo?_of_undo? {h back : History α} (hback : h.undo? = some back) :
    back.redo? = some h := by
  have hpos : 0 < h.cursor := by
    by_contra hzero
    rw [undo?, if_neg hzero] at hback
    cases hback
  rw [undo?, if_pos hpos, Option.some.injEq] at hback
  subst hback
  have hnext : h.cursor - 1 + 1 = h.cursor := by omega
  have hlt := h.cursor_lt
  obtain ⟨snapshots, cursor, limit, hcursor⟩ := h
  simp_all [redo?]

/-- What was recorded can be undone and redone if the limit keeps more than the present. -/
theorem Follows.undo?_record {limit : Option Nat} {h : History α} {z : Zipper α}
    (hz : h.Follows limit z) (hroom : ∀ n, limit = some n → 1 < max n 1) (a : α) :
    ∃ back, (h.record a).undo? = some back ∧ back.current = h.current ∧
      back.redo? = some (h.record a) := by
  obtain ⟨-, hrecord⟩ := hz.perform (.record a)
  obtain ⟨rest, hrest⟩ := Zipper.exists_keep_append limit [z.present] z.past hroom
  obtain ⟨back, hback, -, hflat⟩ := hrecord.flat.undo hrest
  refine ⟨back, hback, ?_, redo?_of_undo? hback⟩
  rw [hflat.current_eq, hz.flat.current_eq]

/-- Histories answer every run as bounded zippers do and lie flat as their rows. Undoing as often
as entries were recorded comes back to the snapshot before them if the limit has room for all. -/
theorem runAll_eq_zipper (a : α) (limit : Option Nat) (requests : List (Request α)) :
    let run := runAll perform (opened a limit) requests
    let spec := runAll (Zipper.perform limit) (.single a) requests
    let h := run.1
    let z := spec.1
    run.2 = spec.2 ∧
      h.snapshots = z.past.reverse ++ z.present :: z.future ∧
      h.snapshots[h.cursor]? = some z.present ∧ h.current = z.present ∧
      h.cursor = z.past.length ∧ h.size = z.past.length + 1 + z.future.length ∧
      (∀ n, limit = some n → h.size ≤ max n 1) ∧
      (h.canUndo = true ↔ z.past ≠ []) ∧ (h.canRedo = true ↔ z.future ≠ []) ∧
      (∀ entries : List α, (∀ n, limit = some n → entries.length < max n 1) →
        let undone := runAll perform (runAll perform h (entries.map .record)).1
          (List.replicate entries.length .undo)
        undone.2 = ((h.current :: entries).dropLast.reverse).map some ∧
          undone.1.current = h.current) ∧
      ∀ back, h.undo? = some back → back.redo? = some h := by
  intro run spec h z
  obtain ⟨hanswers, hz⟩ : run.2 = spec.2 ∧ h.Follows limit z :=
    (follows_opened a limit).runAll requests
  have hflat := hz.flat
  refine ⟨hanswers, hflat.snapshots_eq, hflat.get?_cursor, hflat.current_eq, hflat.cursor_eq,
    hflat.size_eq, hz.size_le, hflat.canUndo_iff, hflat.canRedo_iff, ?_,
    fun back => redo?_of_undo?⟩
  intro entries hroom undone
  obtain ⟨-, hrecorded⟩ := hz.runAll (entries.map .record)
  obtain ⟨hundone, hback⟩ := hrecorded.runAll (List.replicate entries.length .undo)
  obtain ⟨hall, hpresent⟩ := Zipper.undo_all_record_all limit z hz.keep_past entries hroom
  refine ⟨?_, ?_⟩
  · rw [hflat.current_eq]
    exact hundone.trans hall
  · rw [hflat.current_eq]
    exact hback.flat.current_eq.trans hpresent

example : (runAll perform (opened 1 (some 2)) [.record 2, .record 3, .undo, .undo, .redo]).2 =
    [none, none, some 2, none, some 3] := by decide

end History

end Runbook
