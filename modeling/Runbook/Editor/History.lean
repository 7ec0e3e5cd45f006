/-!
Undo and redo over snapshots. A history is a row of snapshots with a cursor on the current one.
Recording drops what lies after the cursor; a limit drops the oldest snapshots beyond it. There
is always a current snapshot.
-/
namespace Runbook

structure History (α : Type) where
  snapshots : List α
  cursor : Nat
  limit : Option Nat
  cursor_lt : cursor < snapshots.length

namespace History

variable {α : Type}

def ofInitial (a : α) : History α := ⟨[a], 0, none, by simp⟩

/-- A history of one snapshot that keeps at most `limit` of them, and at least one. -/
def withLimit (a : α) (limit : Nat) : History α := ⟨[a], 0, some (max limit 1), by simp⟩

def current (h : History α) : α := h.snapshots.get ⟨h.cursor, h.cursor_lt⟩

/-- How many snapshots a limit drops from a row of `length`, of which the last stays. -/
def excess (limit : Option Nat) (length : Nat) : Nat :=
  match limit with
  | none => 0
  | some n => min (length - n) (length - 1)

theorem excess_lt (limit : Option Nat) {length : Nat} (h : 0 < length) :
    excess limit length < length := by
  unfold excess
  split <;> omega

def record (h : History α) (a : α) : History α :=
  let kept := h.snapshots.take (h.cursor + 1) ++ [a]
  let dropped := excess h.limit kept.length
  ⟨kept.drop dropped, kept.length - 1 - dropped, h.limit, by
    have : dropped < kept.length := excess_lt h.limit (by simp [kept])
    rw [List.length_drop]
    omega⟩

def canUndo (h : History α) : Bool := 0 < h.cursor

def canRedo (h : History α) : Bool := h.cursor + 1 < h.snapshots.length

def undo? (h : History α) : Option (History α) :=
  if 0 < h.cursor then
    some { h with cursor := h.cursor - 1, cursor_lt := by have := h.cursor_lt; omega }
  else none

def redo? (h : History α) : Option (History α) :=
  if hnext : h.cursor + 1 < h.snapshots.length then
    some { h with cursor := h.cursor + 1, cursor_lt := hnext }
  else none

def clear (h : History α) : History α := ⟨[h.current], 0, h.limit, by simp⟩

def size (h : History α) : Nat := h.snapshots.length

/-- The snapshots before the current one, the latest first. -/
def past (h : History α) : List α := (h.snapshots.take h.cursor).reverse

def future (h : History α) : List α := h.snapshots.drop (h.cursor + 1)

end History

end Runbook
