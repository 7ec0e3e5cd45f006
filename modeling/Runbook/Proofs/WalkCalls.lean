import Mathlib.Data.Nat.Find
import Mathlib.Tactic.Common
import Runbook.Proofs.Walk

/-!
The calls of a walk. The walk is back from a call when as many calls are left as were there when it
began, for the first time since. While it is within the call, what was on its stacks stays at their
bottom, so it finds there what it left, with a result in hand or with an error.
-/
namespace Runbook

namespace Walk

theorem suffix_of_suffix_cons {α : Type} {l rest : List α} {a : α} (h : l <:+ a :: rest)
    (hlength : l.length ≠ rest.length + 1) : l <:+ rest := by
  rcases List.suffix_cons_iff.mp h with rfl | h
  · exact absurd rfl hlength
  · exact h

/-- A call that the walk makes after `m` steps and is back from after `n` steps. -/
structure IsCall (moments : Nat → Walk) (m n : Nat) : Prop where
  lt : m + 1 < n
  inside : ∀ i, m < i → i < n → (moments m).callers.length < (moments i).callers.length
  back : (moments n).callers.length = (moments m).callers.length

structure IsWithin (g : Graph) (w : Walk) (c : Caller) (trail : List (List Node)) (later : Walk) :
    Prop where
  sound : ∃ now, later.IsSound g now ∧ w.path :: trail <:+ now
  callers : c :: w.callers <:+ later.callers

namespace IsWithin

variable {g : Graph} {limits : Limits} {w later : Walk} {c : Caller} {trail : List (List Node)}

/-- A call goes on as long as it is on the stack. -/
theorem next (h : IsWithin g w c trail later) (htrail : trail.length = w.callers.length)
    (hdeep : w.callers.length < (later.next g limits).callers.length) :
    IsWithin g w c trail (later.next g limits) := by
  obtain ⟨⟨now, hnow, hsuffix⟩, hcallers⟩ := h
  obtain ⟨following, hfollowing, hturns⟩ := hnow.next limits
  cases hturns with
  | stays hsame => exact ⟨⟨now, hfollowing, hsuffix⟩, hsame ▸ hcallers⟩
  | calls hmore _ _ =>
    exact ⟨⟨_, hfollowing, hsuffix.trans (List.suffix_cons _ _)⟩,
      hmore ▸ hcallers.trans (List.suffix_cons _ _)⟩
  | returns hless hnowtrail _ _ =>
    have hlength := hfollowing.nested.length_trail
    rw [hnowtrail] at hsuffix
    rw [hless] at hcallers
    refine ⟨⟨_, hfollowing, suffix_of_suffix_cons hsuffix ?_⟩, suffix_of_suffix_cons hcallers ?_⟩
    · rw [List.length_cons]
      omega
    · rw [List.length_cons]
      omega

end IsWithin

/-- What a call leaves as it was when it began: the path and the level it was made from, the calls
around it and the loops, both in the call and around it. -/
structure Restores (moments : Nat → Walk) (m n : Nat) : Prop where
  path : (moments n).path = (moments (m + 1)).path
  path_around : (moments n).path = (moments m).path
  loops : (moments (n - 1)).loops = (moments (m + 1)).loops
  loops_around : (moments n).loops = (moments m).loops
  level : (moments n).level = (moments m).level
  callers : (moments n).callers = (moments m).callers

namespace IsCall

variable {g : Graph} {limits : Limits} {node : Node} {m n : Nat}

/-- A call begins with a step onto the stack, and then the walk is within it. -/
theorem exists_isWithin (hnode : node ∈ g.nodes) (h : IsCall (after g limits node) m n) :
    ∃ c trail, (after g limits node (m + 1)).callers = c :: (after g limits node m).callers ∧
      c.level = (after g limits node m).level ∧
      (after g limits node (m + 1)).path = (after g limits node m).path ∧
      trail.length = (after g limits node m).callers.length ∧
      ∀ i, m < i → i < n → IsWithin g (after g limits node m) c trail (after g limits node i) := by
  obtain ⟨trail, hsound⟩ := IsSound.after hnode limits m
  obtain ⟨now, hnow, hturns⟩ := hsound.next limits
  have hdeep := h.inside (m + 1) (Nat.lt_succ_self m) h.lt
  rw [← after_succ] at hnow hturns
  cases hturns with
  | stays hsame =>
    rw [hsame] at hdeep
    exact absurd hdeep (Nat.lt_irrefl _)
  | returns hless _ _ _ =>
    rw [hless, List.length_cons] at hdeep
    omega
  | @calls c hmore hlevel hpath =>
    have htrail := hsound.nested.length_trail
    refine ⟨c, trail, hmore, hlevel, hpath, htrail, fun i hi => ?_⟩
    induction i, hi using Nat.le_induction with
    | base => exact fun _ => ⟨⟨_, hnow, List.suffix_refl _⟩, hmore ▸ List.suffix_refl _⟩
    | succ i hi ih =>
      intro hin
      have hlater := h.inside (i + 1) (Nat.lt_succ_of_lt hi) hin
      rw [after_succ] at hlater ⊢
      exact (ih (Nat.lt_of_succ_lt hin)).next htrail hlater

/-- Whatever a call comes to, a result or an error, it gives back what it found. -/
theorem restores (hnode : node ∈ g.nodes) (h : IsCall (after g limits node) m n) :
    Restores (after g limits node) m n := by
  obtain ⟨c, trail, hmore, hlevel, hpath, htrail, hwithin⟩ := h.exists_isWithin hnode
  obtain ⟨last, rfl⟩ : ∃ last, n = last + 1 := ⟨n - 1, by have := h.lt; omega⟩
  have hlast := h.lt
  obtain ⟨⟨now, hnow, hsuffix⟩, hcallers⟩ :=
    hwithin last (by omega) (Nat.lt_succ_self last)
  obtain ⟨later, hlater, hturns⟩ := hnow.next limits
  have hback := h.back
  have hfrom := hcallers.length_le
  rw [List.length_cons] at hfrom
  rw [← after_succ] at hlater hturns
  cases hturns with
  | stays hsame =>
    rw [hsame] at hback
    omega
  | calls hdeeper _ _ =>
    rw [hdeeper, List.length_cons] at hback
    omega
  | @returns d path _ hless hnowtrail hend hendlevel =>
    -- What is taken off the stack is what was put on it when the call began.
    have hsame : c :: (after g limits node m).callers =
        d :: (after g limits node (last + 1)).callers := by
      rw [hless] at hcallers
      exact hcallers.eq_of_length (by rw [List.length_cons, List.length_cons, hback])
    have hsametrail : (after g limits node m).path :: trail = path :: later := by
      rw [hnowtrail] at hsuffix
      have hrest := hlater.nested.length_trail
      exact hsuffix.eq_of_length (by rw [List.length_cons, List.length_cons]; omega)
    obtain ⟨rfl, hcallers⟩ := List.cons.inj hsame
    obtain ⟨rfl, -⟩ := List.cons.inj hsametrail
    obtain ⟨_, hbefore⟩ := IsSound.after hnode limits m
    obtain ⟨_, hbegun⟩ := IsSound.after hnode limits (m + 1)
    have hinside : (after g limits node last).callers = (after g limits node (m + 1)).callers := by
      rw [hless, hmore, hcallers]
    exact {
      path := hend.trans hpath.symm
      path_around := hend
      loops := by rw [Nat.add_sub_cancel, hnow.loops_eq, hbegun.loops_eq, hinside]
      loops_around := by rw [hlater.loops_eq, hbefore.loops_eq, hcallers]
      level := hendlevel.trans hlevel
      callers := hcallers.symm }

theorem length_callers_le (hnode : node ∈ g.nodes) (limits : Limits) (steps : Nat) :
    (after g limits node steps).callers.length ≤
      (after g limits node (steps + 1)).callers.length + 1 := by
  obtain ⟨trail, hsound⟩ := IsSound.after hnode limits steps
  obtain ⟨later, -, hturns⟩ := hsound.next limits
  rw [after_succ]
  cases hturns with
  | stays hsame => rw [hsame]; exact Nat.le_succ _
  | calls hmore _ _ => rw [hmore, List.length_cons]; omega
  | returns hless _ _ _ => rw [hless, List.length_cons]

/-- The walk comes back from every call once no calls are left later on. -/
theorem exists_of_callers_nil (hnode : node ∈ g.nodes)
    (hcall : (after g limits node m).callers.length <
      (after g limits node (m + 1)).callers.length)
    (hend : ∃ i, m < i ∧ (after g limits node i).callers = []) :
    ∃ n, IsCall (after g limits node) m n := by
  have hback : ∃ i, m < i ∧
      (after g limits node i).callers.length ≤ (after g limits node m).callers.length := by
    obtain ⟨i, hi, hnil⟩ := hend
    exact ⟨i, hi, by rw [hnil]; exact Nat.zero_le _⟩
  -- The call is over at the first moment since it began with no more calls than before it.
  obtain ⟨hlate, hless⟩ := Nat.find_spec hback
  have hfirst : ∀ i, m < i → i < Nat.find hback →
      (after g limits node m).callers.length < (after g limits node i).callers.length := by
    intro i hi hbefore
    have hnot := Nat.find_min hback hbefore
    omega
  obtain ⟨last, hlast⟩ : ∃ last, Nat.find hback = last + 1 := ⟨Nat.find hback - 1, by omega⟩
  have hne : m ≠ last := by
    rintro rfl
    rw [hlast] at hless
    omega
  have hbefore := hfirst last (by omega) (by omega)
  have hstep := length_callers_le hnode limits last
  rw [← hlast] at hstep
  exact ⟨Nat.find hback, by omega, hfirst, by omega⟩

end IsCall

end Walk

end Runbook
