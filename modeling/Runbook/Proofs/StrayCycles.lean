import Mathlib.Data.Fintype.Card
import Mathlib.Data.Set.Finite.Basic
import Mathlib.Logic.Relation
import Mathlib.Tactic.Common
import Runbook.Proofs.Catalogs
import Runbook.Proofs.ErrorFree
import Runbook.Proofs.FirstOccurrences

/-!
Cycles that pass no loop, and the peeling that finds them. At any time the counter of an id holds
the edges that still lead to it from ids not taken away, and an id waits to be taken away as soon
as no such edge is left. So an id goes exactly if no cycle lies on the way to it, in whatever order
the ids wait, and something stays behind exactly if there is a cycle.
-/
namespace Runbook.Graph

variable {g : Graph}

def IsPlain (g : Graph) (id : NodeId) : Prop := ∃ n ∈ g.nodes, n.id = id ∧ n.kind ≠ .loop

def PlainArc (g : Graph) (id target : NodeId) : Prop :=
  g.IsPlain id ∧ g.IsPlain target ∧ ∃ e ∈ g.edges, e.source = id ∧ e.target = target

/-- Edges between plain ids lead from one of them back to it. -/
def HasPlainCycle (g : Graph) : Prop := ∃ id, Relation.TransGen g.PlainArc id id

theorem mem_plainIds {id : NodeId} : id ∈ g.plainIds ↔ g.IsPlain id := by
  simp only [plainIds, List.mem_eraseDups, List.mem_map, List.mem_filter, decide_eq_true_eq,
    IsPlain]
  exact exists_congr fun n => and_right_comm.trans and_assoc

theorem nodup_plainIds (g : Graph) : g.plainIds.Nodup := nodup_eraseDups _

def arcsInto (g : Graph) (removed : List NodeId) (id : NodeId) : Nat :=
  g.edges.countP fun e => (e.source ∈ g.plainIds ∧ e.source ∉ removed) ∧ e.target = id

/-- No edge is left to an id if all that lead to it come from ids that are gone. -/
theorem arcsInto_eq_zero_iff {removed : List NodeId} {id : NodeId} (hid : g.IsPlain id) :
    g.arcsInto removed id = 0 ↔ ∀ other, g.PlainArc other id → other ∈ removed := by
  rw [arcsInto, List.countP_eq_zero]
  constructor
  · intro hnone other harc
    obtain ⟨hother, -, e, he, rfl, rfl⟩ := harc
    by_contra hstays
    exact hnone e he (by simpa using ⟨mem_plainIds.mpr hother, hstays⟩)
  · intro hall e he hleads
    simp only [decide_eq_true_eq] at hleads
    obtain ⟨⟨hsource, hstays⟩, htarget⟩ := hleads
    exact hstays (hall e.source ⟨mem_plainIds.mp hsource, hid, e, he, rfl, htarget⟩)

/-- The edges out of an id are no longer counted once it is taken away. -/
theorem arcsInto_concat {removed : List NodeId} {id : NodeId} (hid : id ∈ g.plainIds)
    (hstays : id ∉ removed) (target : NodeId) :
    g.arcsInto (removed ++ [id]) target + ((g.outgoing id).map Edge.target).count target =
      g.arcsInto removed target := by
  rw [arcsInto, arcsInto, outgoing]
  generalize g.edges = edges
  induction edges with
  | nil => rfl
  | cons e rest ih =>
    rw [List.countP_cons, List.countP_cons, List.filter_cons]
    by_cases hsource : e.source = id
    · by_cases htarget : e.target = target
      · simp [hsource, htarget, hid, hstays] at ih ⊢
        omega
      · simp [hsource, htarget] at ih ⊢
        omega
    · simp [hsource] at ih ⊢
      omega

theorem lookup_lower (id other : NodeId) (counters : List (NodeId × Nat)) :
    (lower id counters).lookup other =
      if other = id then (counters.lookup id).map (· - 1) else counters.lookup other := by
  induction counters with
  | nil => simp [lower]
  | cons c rest ih =>
    unfold lower
    by_cases hkey : c.1 = id
    · rw [if_pos hkey, Catalog.lookup_cons, Catalog.lookup_cons, Catalog.lookup_cons, hkey]
      by_cases hother : other = id <;> simp [hother]
    · rw [if_neg hkey, Catalog.lookup_cons, Catalog.lookup_cons, Catalog.lookup_cons, ih,
        if_neg (Ne.symm hkey)]
      by_cases hother : other = id
      · rw [if_pos hother, if_pos hother, hother, if_neg (Ne.symm hkey)]
      · rw [if_neg hother, if_neg hother]

/-- The counters of some keys count the edges to targets that are still to be let go of, on top of
those that are `left` then. -/
def Counts (keys : List NodeId) (left : NodeId → Nat) (targets : List NodeId)
    (counters : List (NodeId × Nat)) : Prop :=
  ∀ id, counters.lookup id = if id ∈ keys then some (left id + targets.count id) else none

namespace Counts

variable {keys targets : List NodeId} {left : NodeId → Nat} {counters : List (NodeId × Nat)}
  {target : NodeId}

theorem head (h : Counts keys left (target :: targets) counters) (hkey : target ∈ keys) :
    counters.lookup target = some (left target + targets.count target + 1) := by
  rw [h, if_pos hkey, List.count_cons_self]
  rfl

theorem lower (h : Counts keys left (target :: targets) counters) (hkey : target ∈ keys) :
    Counts keys left targets (lower target counters) := by
  intro id
  rw [lookup_lower]
  by_cases hid : id = target
  · subst hid
    rw [if_pos rfl, h.head hkey, if_pos hkey]
    rfl
  · rw [if_neg hid, h, List.count_cons_of_ne (Ne.symm hid)]

/-- A target without a counter does not count. -/
theorem skip (h : Counts keys left (target :: targets) counters) (hkey : target ∉ keys) :
    Counts keys left targets counters := by
  intro id
  rw [h]
  by_cases hid : id ∈ keys
  · have hne : target ≠ id := fun heq => hkey (heq ▸ hid)
    rw [List.count_cons_of_ne hne]
  · rw [if_neg hid, if_neg hid]

/-- Letting go of all edges to some targets takes each counter down by as many edges as lead to its
id, never below zero, and queues the ids whose counters come to zero, each once. -/
theorem exists_release (h : Counts keys left targets counters) (queue : List NodeId) :
    ∃ later freed, release counters queue targets = some (later, queue ++ freed) ∧
      Counts keys left [] later ∧
      freed.Nodup ∧ ∀ id, id ∈ freed ↔ id ∈ keys ∧ id ∈ targets ∧ left id = 0 := by
  induction targets generalizing counters queue with
  | nil => exact ⟨counters, [], by simp [release], h, List.nodup_nil, by simp⟩
  | cons target rest ih =>
    by_cases hkey : target ∈ keys
    · have htarget := h.head hkey
      by_cases hlast : left target + rest.count target = 0
      · -- the last edge to the target is gone, and no further one comes
        have hleft : left target = 0 := by omega
        have hgone : target ∉ rest := List.count_eq_zero.mp (by omega)
        obtain ⟨later, freed, hrelease, hlater, hnodup, hfreed⟩ :=
          ih (h.lower hkey) (queue ++ [target])
        have hnew : target ∉ freed := fun hmem => hgone ((hfreed target).mp hmem).2.1
        refine ⟨later, target :: freed, ?_, hlater, List.nodup_cons.mpr ⟨hnew, hnodup⟩, ?_⟩
        · rw [release, htarget, hlast]
          simpa using hrelease
        · intro id
          rw [List.mem_cons, List.mem_cons, hfreed]
          by_cases hid : id = target
          · subst hid
            simp [hkey, hleft]
          · simp [hid]
      · obtain ⟨n, hn⟩ := Nat.exists_eq_succ_of_ne_zero hlast
        obtain ⟨later, freed, hrelease, hlater, hnodup, hfreed⟩ := ih (h.lower hkey) queue
        refine ⟨later, freed, ?_, hlater, hnodup, ?_⟩
        · rw [release, htarget, hn]
          exact hrelease
        · intro id
          rw [List.mem_cons, hfreed]
          by_cases hid : id = target
          · subst hid
            have hmore : left id = 0 → id ∈ rest := fun hzero =>
              List.count_pos_iff.mp (by omega)
            simp only [true_or, true_and]
            exact ⟨fun h => ⟨h.1, h.2.2⟩, fun h => ⟨h.1, hmore h.2, h.2⟩⟩
          · simp [hid]
    · have hnone : counters.lookup target = none := by rw [h, if_neg hkey]
      obtain ⟨later, freed, hrelease, hlater, hnodup, hfreed⟩ := ih (h.skip hkey) queue
      refine ⟨later, freed, by rw [release, hnone]; exact hrelease, hlater, hnodup, ?_⟩
      intro id
      rw [hfreed, List.mem_cons]
      by_cases hid : id = target
      · subst hid
        simp [hkey]
      · simp [hid]

end Counts

/-- What holds at any time: the counters count the edges that are left, the ids that are gone or
wait to go are those without any, and no cycle lies on the way to them. -/
structure IsPeeled (g : Graph) (counters : List (NodeId × Nat)) (queue removed : List NodeId) :
    Prop where
  counts : ∀ id, counters.lookup id =
    if id ∈ g.plainIds then some (g.arcsInto removed id) else none
  nodup : (removed ++ queue).Nodup
  mem_iff : ∀ id, id ∈ removed ++ queue ↔ id ∈ g.plainIds ∧ g.arcsInto removed id = 0
  acc : ∀ id ∈ removed ++ queue, Acc g.PlainArc id

namespace IsPeeled

variable {counters : List (NodeId × Nat)} {queue removed : List NodeId} {id : NodeId}

/-- The first id in the queue can be taken away, and all holds again. -/
theorem step (h : g.IsPeeled counters (id :: queue) removed) :
    ∃ later after, release counters queue ((g.outgoing id).map Edge.target) =
      some (later, after) ∧ g.IsPeeled later after (removed ++ [id]) := by
  have hwaits : id ∈ removed ++ id :: queue := by simp
  have hid : id ∈ g.plainIds := ((h.mem_iff id).mp hwaits).1
  have hstays : id ∉ removed := by
    intro hmem
    exact (List.nodup_append.mp h.nodup).2.2 id hmem id List.mem_cons_self rfl
  have hcounts : Counts g.plainIds (g.arcsInto (removed ++ [id]))
      ((g.outgoing id).map Edge.target) counters := by
    intro other
    rw [h.counts, arcsInto_concat hid hstays]
  obtain ⟨later, freed, hrelease, hlater, hnodup, hfreed⟩ := hcounts.exists_release queue
  have hsplit : removed ++ [id] ++ (queue ++ freed) = removed ++ id :: queue ++ freed := by simp
  -- an id without edges before the step had none to lose in it
  have hnew : ∀ other, other ∈ freed → other ∉ removed ++ id :: queue := by
    intro other hmem hold
    obtain ⟨-, htarget, -⟩ := (hfreed other).mp hmem
    have hzero := ((h.mem_iff other).mp hold).2
    have hcount := arcsInto_concat hid hstays other
    have hpos := List.count_pos_iff.mpr htarget
    omega
  have hmem : ∀ other, other ∈ removed ++ id :: queue ++ freed ↔
      other ∈ g.plainIds ∧ g.arcsInto (removed ++ [id]) other = 0 := by
    intro other
    have hcount := arcsInto_concat hid hstays other
    rw [List.mem_append, h.mem_iff, hfreed]
    constructor
    · rintro (⟨hplain, hzero⟩ | ⟨hplain, -, hzero⟩)
      · exact ⟨hplain, by omega⟩
      · exact ⟨hplain, hzero⟩
    · rintro ⟨hplain, hzero⟩
      by_cases htarget : other ∈ (g.outgoing id).map Edge.target
      · exact .inr ⟨hplain, htarget, hzero⟩
      · have hnone := List.count_eq_zero.mpr htarget
        exact .inl ⟨hplain, by omega⟩
  refine ⟨later, queue ++ freed, hrelease, hlater, ?_, ?_, ?_⟩
  · rw [hsplit]
    exact List.nodup_append.mpr ⟨h.nodup, hnodup, fun a ha b hb heq => hnew b hb (heq ▸ ha)⟩
  · intro other
    rw [hsplit]
    exact hmem other
  · intro other hother
    rw [hsplit] at hother
    obtain ⟨hplain, hzero⟩ := (hmem other).mp hother
    -- whatever leads to an id without edges is gone, and was free of cycles when it went
    refine Acc.intro other fun before harc => ?_
    have hgone := (arcsInto_eq_zero_iff (mem_plainIds.mp hplain)).mp hzero before harc
    refine h.acc before ?_
    rw [List.mem_append, List.mem_singleton] at hgone
    rcases hgone with hgone | rfl
    · exact List.mem_append_left _ hgone
    · exact hwaits

/-- The peeling goes on until nothing waits. -/
theorem exists_peel (h : g.IsPeeled counters queue removed) :
    ∃ order later, g.peel counters queue removed = some order ∧ g.IsPeeled later [] order := by
  induction counters, queue, removed using peel.induct g with
  | case1 counters removed => exact ⟨removed, counters, by rw [peel], h⟩
  | case2 counters removed id queue hnone =>
    obtain ⟨later, after, hsome, -⟩ := h.step
    rw [hnone] at hsome
    cases hsome
  | case3 counters removed id queue later after hsome ih =>
    obtain ⟨later', after', hsome', hnext⟩ := h.step
    obtain ⟨rfl, rfl⟩ : later = later' ∧ after = after' := by
      simpa [hsome] using hsome'
    obtain ⟨order, last, horder, hlast⟩ := ih hnext
    refine ⟨order, last, ?_, hlast⟩
    rw [peel_cons, hsome]
    exact horder

/-- When nothing waits any more, the ids that are gone are those with no cycle on the way to
them. -/
theorem mem_iff_acc (h : g.IsPeeled counters [] removed) (hid : g.IsPlain id) :
    id ∈ removed ↔ Acc g.PlainArc id := by
  have hmem := h.mem_iff
  have hacc := h.acc
  rw [List.append_nil] at hmem hacc
  constructor
  · exact hacc id
  · intro hfree
    induction hfree with
    | intro id _ ih =>
      refine (hmem id).mpr ⟨mem_plainIds.mpr hid, (arcsInto_eq_zero_iff hid).mpr ?_⟩
      exact fun before harc => ih before harc harc.1

end IsPeeled

theorem names_startCounters (g : Graph) : g.startCounters.map Prod.fst = g.plainIds := by
  simp [startCounters, Function.comp_def]

theorem count_targetsFrom (id : NodeId) :
    (g.targetsFrom g.plainIds).count id = g.arcsInto [] id := by
  rw [targetsFrom, List.count_eq_countP, List.countP_map, List.countP_filter, arcsInto]
  refine List.countP_congr fun e _ => ?_
  simp [and_comm]

theorem mem_startCounters {id : NodeId} {n : Nat} :
    (id, n) ∈ g.startCounters ↔ id ∈ g.plainIds ∧ g.arcsInto [] id = n := by
  simp [startCounters, count_targetsFrom]

/-- In whatever order the counters and the first ids to go are listed, all holds at the start. -/
theorem isPeeled_start {counters : List (NodeId × Nat)} (hcounters : counters.Perm g.startCounters)
    {queue : List NodeId} (hqueue : queue.Perm g.startQueue) : g.IsPeeled counters queue [] := by
  have hnames : (counters.map Prod.fst).Nodup := by
    rw [(hcounters.map Prod.fst).nodup_iff, names_startCounters]
    exact nodup_plainIds g
  have hlookup : ∀ id n, counters.lookup id = some n ↔ id ∈ g.plainIds ∧ g.arcsInto [] id = n := by
    intro id n
    rw [Catalog.lookup_eq_some_iff hnames, hcounters.mem_iff, mem_startCounters]
  have hmem : ∀ id, id ∈ [] ++ queue ↔ id ∈ g.plainIds ∧ g.arcsInto [] id = 0 := by
    intro id
    rw [List.nil_append, hqueue.mem_iff, ← mem_startCounters]
    simp [startQueue]
  refine ⟨fun id => ?_, ?_, hmem, fun id hid => ?_⟩
  · by_cases hid : id ∈ g.plainIds
    · rw [if_pos hid]
      exact (hlookup id _).mpr ⟨hid, rfl⟩
    · rw [if_neg hid, Option.eq_none_iff_forall_ne_some]
      exact fun n hn => hid ((hlookup id n).mp hn).1
  · have hstart : g.startQueue.Nodup := by
      have hsub := (List.filter_sublist (p := fun c => c.2 = 0) (l := g.startCounters)).map Prod.fst
      rw [names_startCounters] at hsub
      exact hsub.nodup (nodup_plainIds g)
    rw [List.nil_append]
    exact hqueue.nodup_iff.mpr hstart
  · obtain ⟨hplain, hzero⟩ := (hmem id).mp hid
    have hnone := (arcsInto_eq_zero_iff (mem_plainIds.mp hplain)).mp hzero
    exact Acc.intro id fun before harc => absurd (hnone before harc) List.not_mem_nil

theorem not_acc_of_cycle {id : NodeId} (h : Relation.TransGen g.PlainArc id id) :
    ¬ Acc g.PlainArc id := by
  intro hacc
  have hback := hacc.transGen
  clear hacc
  induction hback with
  | intro id _ ih => exact ih id h h

/-- Without a cycle none lies on the way to an id. There are finitely many plain ids, so steps back
from one to another would not go on for ever. -/
theorem acc_of_not_hasPlainCycle (h : ¬ g.HasPlainCycle) (id : NodeId) : Acc g.PlainArc id := by
  have hfinite : Finite { id // id ∈ g.plainIds } := (List.finite_toSet g.plainIds).to_subtype
  have hwf : WellFounded fun a b : { id // id ∈ g.plainIds } =>
      Relation.TransGen g.PlainArc a b := by
    have htrans : IsTrans { id // id ∈ g.plainIds } fun a b =>
        Relation.TransGen g.PlainArc a b := ⟨fun _ _ _ => Relation.TransGen.trans⟩
    have hirrefl : Std.Irrefl fun a b : { id // id ∈ g.plainIds } =>
        Relation.TransGen g.PlainArc a b := ⟨fun a hcycle => h ⟨a, hcycle⟩⟩
    exact Finite.wellFounded_of_trans_of_irrefl _
  have hplain : ∀ a : { id // id ∈ g.plainIds }, Acc g.PlainArc a := by
    intro a
    induction a using hwf.induction with
    | h a ih =>
      refine Acc.intro _ fun before harc => ?_
      exact ih ⟨before, mem_plainIds.mpr harc.1⟩ (.single harc)
  refine Acc.intro id fun before harc => ?_
  exact hplain ⟨before, mem_plainIds.mpr harc.1⟩

/-- Peeling comes to an end in whatever order it begins. It takes no id away twice, and what it
leaves behind tells whether there is a cycle. -/
theorem exists_peel_start {counters : List (NodeId × Nat)}
    (hcounters : counters.Perm g.startCounters) {queue : List NodeId}
    (hqueue : queue.Perm g.startQueue) :
    ∃ order, g.peel counters queue [] = some order ∧ order.Nodup ∧
      (∀ id, id ∈ order ↔ g.IsPlain id ∧ Acc g.PlainArc id) ∧
      (order.length < g.plainIds.length ↔ g.HasPlainCycle) := by
  obtain ⟨order, later, horder, hlast⟩ := (isPeeled_start hcounters hqueue).exists_peel
  have hmem : ∀ id, id ∈ order ↔ g.IsPlain id ∧ Acc g.PlainArc id := by
    intro id
    have hplain : id ∈ order → g.IsPlain id := fun hid =>
      mem_plainIds.mp ((hlast.mem_iff id).mp (List.mem_append_left _ hid)).1
    exact ⟨fun hid => ⟨hplain hid, (hlast.mem_iff_acc (hplain hid)).mp hid⟩,
      fun hid => (hlast.mem_iff_acc hid.1).mpr hid.2⟩
  have hnodup : order.Nodup := by simpa using hlast.nodup
  have hsub : order ⊆ g.plainIds := fun id hid => mem_plainIds.mpr ((hmem id).mp hid).1
  refine ⟨order, horder, hnodup, hmem, ?_⟩
  constructor
  · intro hshort
    by_contra hnone
    have hall : g.plainIds ⊆ order := fun id hid =>
      (hmem id).mpr ⟨mem_plainIds.mp hid, acc_of_not_hasPlainCycle hnone id⟩
    have hle := (List.subperm_of_subset (nodup_plainIds g) hall).length_le
    omega
  · intro hcycle
    obtain ⟨id, hid⟩ := hcycle
    by_contra hlong
    have hperm := (List.subperm_of_subset hnodup hsub).perm_of_length_le (by omega)
    have hplain : g.IsPlain id := by
      cases hid with
      | single harc => exact harc.1
      | tail _ harc => exact harc.2.1
    have hgone := hperm.mem_iff.mpr (mem_plainIds.mpr hplain)
    exact not_acc_of_cycle hid ((hmem id).mp hgone).2

theorem hasStrayCycle_iff : g.hasStrayCycle = true ↔ g.HasPlainCycle := by
  obtain ⟨order, horder, -, -, hshort⟩ :=
    exists_peel_start (List.Perm.refl g.startCounters) (List.Perm.refl g.startQueue)
  rw [hasStrayCycle, horder, Option.any_some, decide_eq_true_eq, hshort]

/-- The findings about stray cycles: one warning if there is such a cycle, else none. -/
theorem filter_cycleOutsideLoop_findings (g : Graph) :
    ∃ told : Finding, told.severity = .warning ∧ told.topic = .cycleOutsideLoop ∧
      (g.HasPlainCycle → (g.findings.filter fun f => f.topic = .cycleOutsideLoop) = [told]) ∧
      (¬ g.HasPlainCycle → (g.findings.filter fun f => f.topic = .cycleOutsideLoop) = []) := by
  have hfound : (g.findings.filter fun f => f.topic = .cycleOutsideLoop) = g.cycleFindings :=
    filter_topic_findings rfl
  simp only [hfound, ← hasStrayCycle_iff]
  exact ⟨_, rfl, rfl, fun hcycle => if_pos hcycle, fun hnone => if_neg hnone⟩

/-- Every graph is told of a cycle among its plain ids exactly if there is one. The ids can be
peeled in whatever order the counters are listed and the first ids to go stand in the queue: each
goes at most once, no counter would fall below zero, the peeling comes to an end, and the order
makes no difference to whether something stays behind. -/
theorem stray_cycle_told_in_any_order (g : Graph) {counters : List (NodeId × Nat)}
    (hcounters : counters.Perm g.startCounters) {queue : List NodeId}
    (hqueue : queue.Perm g.startQueue) :
    (∃ order, g.peel counters queue [] = some order ∧ order.Nodup ∧
      (∀ id ∈ order, g.IsPlain id) ∧ (order.length < g.plainIds.length ↔ g.HasPlainCycle)) ∧
    ∃ told : Finding, told.severity = .warning ∧ told.topic = .cycleOutsideLoop ∧
      (g.HasPlainCycle → (g.findings.filter fun f => f.topic = .cycleOutsideLoop) = [told]) ∧
      (¬ g.HasPlainCycle → (g.findings.filter fun f => f.topic = .cycleOutsideLoop) = []) := by
  obtain ⟨order, horder, hnodup, hmem, hshort⟩ := exists_peel_start hcounters hqueue
  have hplain : ∀ id ∈ order, g.IsPlain id := fun id hid => ((hmem id).mp hid).1
  exact ⟨⟨order, horder, hnodup, hplain, hshort⟩, g.filter_cycleOutsideLoop_findings⟩

/-- Two starts lead into an eddy: one node leads to itself and, twice, to an id that a loop and
a task share, and from there back to it and to no node at all. -/
def eddy : Graph where
  nodes := [.ofStep "north" .start .origin, .ofStep "south" .start .origin,
    .ofStep "turn" (.task {}) .origin, .ofStep "ring" (.loop {}) .origin,
    .ofStep "ring" (.task {}) .origin]
  edges := [⟨"in", "north", "turn", none⟩, ⟨"in2", "south", "ring", none⟩,
    ⟨"self", "turn", "turn", none⟩, ⟨"there", "turn", "ring", none⟩,
    ⟨"there2", "turn", "ring", none⟩, ⟨"back", "ring", "turn", some .body⟩,
    ⟨"off", "ring", "nowhere", some .exit⟩]

theorem stray_cycle_told_in_any_order_eddy :
    eddy.startCounters.reverse.Perm eddy.startCounters ∧
    ["south", "north"].Perm eddy.startQueue ∧ eddy.HasPlainCycle ∧
    (∃ order, eddy.peel eddy.startCounters.reverse ["south", "north"] [] = some order ∧
      order.Nodup ∧ order.length < eddy.plainIds.length) ∧
    ∃ told : Finding, told.severity = .warning ∧ told.topic = .cycleOutsideLoop ∧
      (eddy.findings.filter fun f => f.topic = .cycleOutsideLoop) = [told] := by
  have hcounters := List.reverse_perm eddy.startCounters
  have hqueue : ["south", "north"].Perm eddy.startQueue := by decide +kernel
  have hturn : eddy.IsPlain "turn" := by unfold IsPlain; decide +kernel
  have hcycle : eddy.HasPlainCycle :=
    ⟨"turn", .single ⟨hturn, hturn, ⟨"self", "turn", "turn", none⟩, by decide +kernel⟩⟩
  obtain ⟨⟨order, horder, hnodup, -, hshort⟩, told, hseverity, htopic, honce, -⟩ :=
    stray_cycle_told_in_any_order eddy hcounters hqueue
  exact ⟨hcounters, hqueue, hcycle, ⟨order, horder, hnodup, hshort.mpr hcycle⟩, told, hseverity,
    htopic, honce hcycle⟩

end Runbook.Graph
