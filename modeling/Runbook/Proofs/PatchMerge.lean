import Mathlib.Data.List.Induction
import Mathlib.Tactic.Common
import Runbook.Proofs.SessionRun
import Runbook.Proofs.SettingSlots
import Runbook.Workflow.Patch

/-!
Patches of settings, slot by slot. A patch that applies leaves the kind as it is, puts what it
decodes to into the slots it names and leaves the others as they were, and it applies if it decodes
and names nothing else, unless to clear it.
-/
namespace Runbook

open Json Json.Format

namespace Json.Value

variable {name : String}

theorem member?_append (before after : List (String × Value)) :
    member? name (before ++ after) = (member? name after).or (member? name before) := by
  simp [member?, List.find?_append, Option.map_or]

theorem member?_map (f : Value → Value) (members : List (String × Value)) :
    member? name (members.map fun m => (m.1, f m.2)) = (member? name members).map f := by
  simp [member?, ← List.map_reverse, List.find?_map, Function.comp_def]

theorem member?_without (other : String) (members : List (String × Value)) :
    member? other (members.filter fun m => m.1 ≠ name) =
      if other = name then none else member? other members := by
  rw [member?, ← List.filter_reverse, List.find?_filter]
  split_ifs with hsame
  · subst hsame
    simp
  · rw [member?]
    congr 2
    funext m
    by_cases hm : m.1 = other <;> simp [hm, hsame]

theorem lookup_sortMembers (members : List (String × Value)) :
    (sortMembers members).lookup name = member? name members := by
  induction members using List.reverseRecOn with
  | nil => rfl
  | append_singleton members m ih =>
    rw [sortMembers, List.foldl_append, List.foldl_cons, List.foldl_nil, ← sortMembers,
      Arrangement.insertMember_eq, Catalog.lookup_insertEntry, ih, member?_append]
    by_cases hname : name = m.1
    · simp [member?, hname]
    · simp [member?, hname, Ne.symm hname]

theorem names_sortMembers (members : List (String × Value)) :
    ((sortMembers members).map Prod.fst).Nodup := by
  have heq : sortMembers members = (Catalog.ofList members).entries := by
    simp only [Catalog.entries_ofList, sortMembers, Arrangement.insertMember_eq]
  rw [heq]
  exact Catalog.nodup_names _

theorem member?_eq_some_iff {members : List (String × Value)} (h : (members.map Prod.fst).Nodup)
    {v : Value} : member? name members = some v ↔ (name, v) ∈ members := by
  have hreverse : (members.reverse.map Prod.fst).Nodup := by
    rw [List.map_reverse, List.nodup_reverse]
    exact h
  constructor
  · intro hfound
    obtain ⟨m, hm, rfl⟩ := Option.map_eq_some_iff.mp hfound
    have hmem := List.mem_reverse.mp (List.mem_of_find?_eq_some hm)
    have hname : m.1 = name := by simpa using List.find?_some hm
    rw [← hname]
    exact hmem
  · intro hmem
    have hfound := find?_of_nodup hreverse (List.mem_reverse.mpr hmem)
    rw [member?, hfound]
    rfl

theorem member?_eq_lookup {members : List (String × Value)} (h : (members.map Prod.fst).Nodup) :
    member? name members = members.lookup name := by
  refine Option.ext fun v => ?_
  rw [member?_eq_some_iff h, Catalog.lookup_eq_some_iff h]

end Json.Value

namespace Settings

def found (patch : List (String × Json.Value)) (name : String) : Option Json.Value :=
  (Value.member? name patch).map Value.sorted

/-- Settings that hold what a patch decodes to in the slots it names, and what was there before in
the others. The shared slots are decoded as parts of a whole value, those of a step as parts of a
buffer that is kept until the kind is known. -/
def Takes (patch : List (String × Json.Value)) (old new : Settings) : Prop :=
  Slot.Takes slots ⟨.value, 1⟩ (found patch) old new ∧
    ∃ a b, old.step.kind.payload.part? old.step = some a ∧
      old.step.kind.payload.part? new.step = some b ∧
      Slot.Takes old.step.kind.payload.slots ⟨.buffer, 1⟩ (found patch) a b

def Decodes (patch : List (String × Json.Value)) (kind : Kind) : Prop :=
  Slot.Decodes slots ⟨.value, 1⟩ (found patch) ∧
    Slot.Decodes kind.payload.slots ⟨.buffer, 1⟩ (found patch)

variable {kind : Kind} {fields : List (Json.Field kind.payload.Content)}
  {blank : kind.payload.Content} {patch : List (String × Json.Value)}

def merged (old : Settings) (patch : List (String × Json.Value)) : List (String × Json.Value) :=
  Value.sortMembers (Value.sortedMembers (old.members ++ Value.sortMembers patch))

theorem lookup_merged (old : Settings) (patch : List (String × Json.Value)) (name : String) :
    (merged old patch).lookup name =
      (found patch name).or ((old.members.lookup name).map Value.sorted) := by
  rw [merged, Value.lookup_sortMembers, Arrangement.sortedMembers_eq, Value.member?_map,
    Value.member?_append, Value.member?_eq_lookup (Value.names_sortMembers patch),
    Value.lookup_sortMembers, Value.member?_eq_lookup old.names_members, Option.map_or, found]

/-- A patch names no kind but this one. -/
def KeepsKind (patch : List (String × Json.Value)) (kind : Kind) : Prop :=
  ∀ v, Value.member? "kind" patch = some v → v = .text kind.name

/-- A patch names nothing but fields of a kind, unless to clear it. -/
def NamesOnly (patch : List (String × Json.Value)) (kind : Kind) : Prop :=
  ∀ name v, Value.member? name patch = some v → name ∈ kind.settingNames ∨ v.Clears

theorem keepsKind_iff :
    keepsKind kind (Value.sortMembers patch) = true ↔ KeepsKind patch kind := by
  rw [keepsKind, Value.member?_eq_lookup (Value.names_sortMembers patch),
    Value.lookup_sortMembers, KeepsKind]
  cases Value.member? "kind" patch with
  | none => simp
  | some v => cases v <;> simp

theorem lookup_notShared {name : String} (h : ∀ v, isShared (name, v) = false)
    (members : List (String × Json.Value)) :
    (members.filter fun m => !isShared m).lookup name = members.lookup name :=
  Catalog.lookup_filter (fun v => by simp [h v]) members

/-- The merged members are read as the settings that take the patch. -/
theorem ofValue_eq_ok_iff {old new : Settings} (hkeeps : KeepsKind patch old.step.kind) :
    format.ofValue (.object (old.members ++ Value.sortMembers patch)) = .ok new ↔
      Takes patch old new := by
  obtain ⟨fields, blank, hfields⟩ := old.step.kind.exists_fields
  obtain ⟨a, ha⟩ := Kind.exists_part old.step
  have hmembers := hfields.members ha
  have hstep : ((old.members.filter fun m => !isShared m)) =
      ("kind", .text old.step.kind.name) :: Json.Field.written fields a := by
    rw [filter_not_members, hmembers]
  have hkind : (merged old patch).lookup "kind" = some (.text old.step.kind.name) := by
    have htag (v : Json.Value) : isShared ("kind", v) = false := by
      simp [isShared, shared, Json.Field.option]
    rw [lookup_merged, ← lookup_notShared htag, hstep]
    cases hpatch : Value.member? "kind" patch with
    | none => simp [found, hpatch, Value.sorted]
    | some v => simp [found, hpatch, hkeeps v hpatch, Value.sorted]
  have hshared : ∀ slot ∈ slots, (merged old patch).lookup slot.name =
      (found patch slot.name).or
        (((Json.Field.written shared old).lookup slot.name).map Value.sorted) := by
    intro slot hslot
    rw [lookup_merged, ← filter_members, Catalog.lookup_filter (isShared_of_slot hslot)]
  have hpayload : ∀ slot ∈ old.step.kind.payload.slots, (merged old patch).lookup slot.name =
      (found patch slot.name).or
        (((Json.Field.written fields a).lookup slot.name).map Value.sorted) := by
    intro slot hslot
    have hnot := not_isShared_of_slot hfields hslot
    rw [lookup_merged, ← lookup_notShared fun v => (hnot v).1, hstep, Catalog.lookup_cons,
      if_neg (hnot .null).2]
  have htakes :
      Slot.Takes slots ⟨.value, 1⟩ ((merged old patch).lookup ·) ⟨.start, none, none⟩ new ↔
        Slot.Takes slots ⟨.value, 1⟩ (found patch) old new :=
    slotted.takes_over_iff (by decide) hshared
  have htakes' (b : old.step.kind.payload.Content) :
      Slot.Takes old.step.kind.payload.slots ⟨.buffer, 1⟩ ((merged old patch).lookup ·) blank b ↔
        Slot.Takes old.step.kind.payload.slots ⟨.buffer, 1⟩ (found patch) a b :=
    hfields.takes_over_iff (by decide) hpayload
  have hnames : ((merged old patch).map Prod.fst).Nodup := Value.names_sortMembers _
  show read ⟨.value, 0⟩ (Source.ofValue (.object (merged old patch))) = .ok new ↔ _
  rw [read_eq_ok_iff hfields hnames hkind new, htakes]
  constructor
  · rintro ⟨hnew, b, hb, hpart⟩
    exact ⟨hnew, a, b, ha, hb, (htakes' b).mp hpart⟩
  · rintro ⟨hnew, a', b, ha', hb, hpart⟩
    obtain rfl : a = a' := Option.some.inj (ha.symm.trans ha')
    exact ⟨hnew, b, hb, (htakes' b).mpr hpart⟩

/-- Where all that a patch has for the slots of a kind decodes, it can be taken. -/
theorem exists_takes {old : Settings} (hdecodes : Decodes patch old.step.kind) :
    ∃ new, Takes patch old new := by
  obtain ⟨fields, blank, hfields⟩ := old.step.kind.exists_fields
  obtain ⟨a, ha⟩ := Kind.exists_part old.step
  have hfound : found patch =
      ((Value.sortMembers (Value.sortedMembers patch)).lookup ·) := by
    funext name
    rw [Value.lookup_sortMembers, Arrangement.sortedMembers_eq, Value.member?_map, found]
  have hnames := Value.names_sortMembers (Value.sortedMembers patch)
  rw [Decodes, hfound] at hdecodes
  obtain ⟨settings, hsettings⟩ := slotted.exists_takes hnames hdecodes.1 old
  obtain ⟨b, hb⟩ := hfields.exists_takes hnames hdecodes.2 a
  obtain ⟨step, hstep⟩ := hfields.onto b
  refine ⟨{ settings with step }, fun slot hslot => ?_, a, b, ha, hstep, ?_⟩
  · rw [get_step hslot, hfound]
    exact hsettings slot hslot
  · rw [hfound]
    exact hb

theorem clears_sorted {v : Json.Value} : v.sorted.Clears ↔ v.Clears := by
  cases v with
  | array items =>
    cases items <;> simp [Value.sorted, Value.sortedItems, Value.Clears, Value.isNull,
      Value.isEmptyArray]
  | _ => simp [Value.sorted, Value.Clears, Value.isNull, Value.isEmptyArray]

/-- The names of written settings are those of their kind. -/
theorem names_members_subset {new : Settings} {b : kind.payload.Content}
    (hfields : kind.payload.HasFields kind fields blank) (hb : kind.payload.part? new.step = some b)
    {m : String × Json.Value} (hm : m ∈ new.members) : m.1 ∈ kind.settingNames := by
  rw [Kind.settingNames, List.mem_cons, List.mem_append]
  rcases List.mem_append.mp hm with hstep | hwritten
  · rw [hfields.members hb] at hstep
    rcases List.mem_cons.mp hstep with rfl | hpart
    · exact .inl rfl
    · exact .inr (.inr (hfields.mem_names_of_mem_written hpart))
  · exact .inr (.inl (slotted.mem_names_of_mem_written hwritten))

/-- A member of a patch is taken up if it names a field, or clears. -/
theorem takesUp_iff {old new : Settings} (htakes : Takes patch old new) {m : String × Json.Value}
    (hm : Value.member? m.1 patch = some m.2) :
    new.takesUp m = true ↔ m.1 ∈ old.step.kind.settingNames ∨ m.2.Clears := by
  obtain ⟨fields, blank, hfields⟩ := old.step.kind.exists_fields
  obtain ⟨hnew, a, b, -, hb, hpart⟩ := htakes
  have hfound : found patch m.1 = some m.2.sorted := by rw [found, hm]; rfl
  have hup : new.takesUp m = true ↔ (∃ k ∈ new.members, k.1 = m.1) ∨ m.2.Clears := by
    simp [takesUp, Value.Clears, or_assoc]
  rw [hup]
  constructor
  · rintro (⟨k, hk, hname⟩ | hclears)
    · rw [← hname]
      exact .inl (names_members_subset hfields hb hk)
    · exact .inr hclears
  · rintro (hname | hclears)
    · rw [Kind.settingNames, List.mem_cons, List.mem_append] at hname
      have hmembers : new.members = ("kind", .text old.step.kind.name) ::
          Json.Field.written fields b ++ Json.Field.written shared new := by
        rw [← hfields.members hb]
        rfl
      rcases hname with hname | hname | hname
      · exact .inl ⟨_, by rw [hmembers]; exact List.mem_cons_self, hname.symm⟩
      · obtain ⟨slot, hslot, hname⟩ := List.mem_map.mp hname
        rcases slotted.written_or_clears hnew hslot (hname ▸ hfound) with hwritten | hclears
        · obtain ⟨k, hk, heq⟩ := List.mem_map.mp hwritten
          exact .inl ⟨k, by rw [hmembers]; exact List.mem_append_right _ hk, heq.trans hname⟩
        · exact .inr (clears_sorted.mp hclears)
      · obtain ⟨slot, hslot, hname⟩ := List.mem_map.mp hname
        rcases hfields.written_or_clears hpart hslot (hname ▸ hfound) with hwritten | hclears
        · obtain ⟨k, hk, heq⟩ := List.mem_map.mp hwritten
          refine .inl ⟨k, ?_, heq.trans hname⟩
          rw [hmembers]
          exact List.mem_append_left _ (List.mem_cons_of_mem _ hk)
        · exact .inr (clears_sorted.mp hclears)
    · exact .inr hclears

/-- A patch applies exactly if it names no other kind, can be taken, and names nothing but fields
of the kind, unless to clear it. -/
theorem patched_eq_ok_iff {old new : Settings} :
    old.patched (.object patch) = .ok new ↔
      KeepsKind patch old.step.kind ∧ Takes patch old new ∧ NamesOnly patch old.step.kind := by
  have hmem : ∀ m, m ∈ Value.sortMembers patch ↔ Value.member? m.1 patch = some m.2 := by
    intro m
    rw [← Value.lookup_sortMembers, Catalog.lookup_eq_some_iff (Value.names_sortMembers patch)]
  rw [patched]
  by_cases hkeeps : KeepsKind patch old.step.kind
  · rw [if_neg (by simp [keepsKind_iff.mpr hkeeps])]
    simp only [hkeeps, true_and, ← ofValue_eq_ok_iff hkeeps]
    cases hread : format.ofValue (.object (old.members ++ Value.sortMembers patch)) with
    | error fault => simp
    | ok merged =>
      have htakes := (ofValue_eq_ok_iff hkeeps).mp hread
      have hnone : ((Value.sortMembers patch).find? fun m => !merged.takesUp m) = none ↔
          NamesOnly patch old.step.kind := by
        rw [List.find?_eq_none]
        constructor
        · intro hall name v hv
          have hup := hall (name, v) ((hmem _).mpr hv)
          exact (takesUp_iff htakes hv).mp (by simpa using hup)
        · intro hall m hm
          have hup := (takesUp_iff htakes ((hmem m).mp hm)).mpr (hall m.1 m.2 ((hmem m).mp hm))
          simp [hup]
      rw [← hnone]
      dsimp only
      cases (Value.sortMembers patch).find? fun m => !merged.takesUp m <;> simp
  · have hother : ¬ keepsKind old.step.kind (Value.sortMembers patch) = true := fun h =>
      hkeeps (keepsKind_iff.mp h)
    rw [if_pos (by simp [hother])]
    simp [hkeeps]

theorem Takes.kind_eq {old new : Settings} (h : Takes patch old new) :
    new.step.kind = old.step.kind := by
  obtain ⟨fields, blank, hfields⟩ := old.step.kind.exists_fields
  obtain ⟨-, -, b, -, hb, -⟩ := h
  exact hfields.kind_eq hb

theorem Takes.decodes {old new : Settings} (h : Takes patch old new) :
    Decodes patch old.step.kind := by
  obtain ⟨hnew, a, b, -, -, hpart⟩ := h
  exact ⟨hnew.decodes, hpart.decodes⟩

theorem exists_patched {old : Settings} (hkeeps : KeepsKind patch old.step.kind)
    (hdecodes : Decodes patch old.step.kind) (hnames : NamesOnly patch old.step.kind) :
    ∃ new, old.patched (.object patch) = .ok new := by
  obtain ⟨new, hnew⟩ := exists_takes hdecodes
  exact ⟨new, patched_eq_ok_iff.mpr ⟨hkeeps, hnew, hnames⟩⟩

/-- The empty patch changes nothing. -/
theorem patched_nil (old : Settings) : old.patched (.object []) = .ok old := by
  obtain ⟨a, ha⟩ := Kind.exists_part old.step
  have hnone : ∀ name, found [] name = none := fun _ => rfl
  refine patched_eq_ok_iff.mpr ⟨nofun, ⟨Slot.takes_refl (fun slot _ => hnone slot.name) old,
    a, a, ha, ha, Slot.takes_refl (fun slot _ => hnone slot.name) a⟩, nofun⟩

/-- A patch that has been applied changes nothing any more. -/
theorem patched_again {old new : Settings} (h : old.patched (.object patch) = .ok new) :
    new.patched (.object patch) = .ok new := by
  obtain ⟨hkeeps, htakes, hnames⟩ := patched_eq_ok_iff.mp h
  have hkind := htakes.kind_eq
  obtain ⟨hnew, a, b, -, hb, hpart⟩ := htakes
  rw [patched_eq_ok_iff, Takes, hkind]
  exact ⟨hkeeps, ⟨hnew.again, b, b, hb, hb, hpart.again⟩, hnames⟩

/-- Patches that name different fields may be applied in either order. -/
theorem patched_comm {patch' : List (String × Json.Value)} {old first second : Settings}
    (hapart : ∀ name, Value.member? name patch = none ∨ Value.member? name patch' = none)
    (h : old.patched (.object patch) = .ok first)
    (h' : old.patched (.object patch') = .ok second) :
    ∃ both, first.patched (.object patch') = .ok both ∧
      second.patched (.object patch) = .ok both := by
  obtain ⟨fields, blank, hfields⟩ := old.step.kind.exists_fields
  obtain ⟨hkeeps, htakes, hnames⟩ := patched_eq_ok_iff.mp h
  obtain ⟨hkeeps', htakes', hnames'⟩ := patched_eq_ok_iff.mp h'
  have hkind := htakes.kind_eq
  have hkind' := htakes'.kind_eq
  obtain ⟨both, hboth⟩ : ∃ both, first.patched (.object patch') = .ok both := by
    refine exists_patched ?_ ?_ ?_ <;> rw [hkind]
    · exact hkeeps'
    · exact htakes'.decodes
    · exact hnames'
  obtain ⟨both', hboth'⟩ : ∃ both', second.patched (.object patch) = .ok both' := by
    refine exists_patched ?_ ?_ ?_ <;> rw [hkind']
    · exact hkeeps
    · exact htakes.decodes
    · exact hnames
  suffices heq : both = both' by exact ⟨both, hboth, heq ▸ hboth'⟩
  have hapart' (name : String) : found patch name = none ∨ found patch' name = none := by
    rcases hapart name with hnone | hnone
    · exact .inl (by rw [found, hnone]; rfl)
    · exact .inr (by rw [found, hnone]; rfl)
  obtain ⟨-, hlast, -⟩ := patched_eq_ok_iff.mp hboth
  obtain ⟨-, hlast', -⟩ := patched_eq_ok_iff.mp hboth'
  rw [Takes, hkind] at hlast
  rw [Takes, hkind'] at hlast'
  obtain ⟨hnew, a, b, ha, hb, hpart⟩ := htakes
  obtain ⟨hnew', a', b', ha', hb', hpart'⟩ := htakes'
  obtain ⟨hend, b₁, c, hb₁, hc, hpartEnd⟩ := hlast
  obtain ⟨hend', b₁', c', hb₁', hc', hpartEnd'⟩ := hlast'
  obtain rfl : a = a' := Option.some.inj (ha.symm.trans ha')
  obtain rfl : b = b₁ := Option.some.inj (hb.symm.trans hb₁)
  obtain rfl : b' = b₁' := Option.some.inj (hb'.symm.trans hb₁')
  have hsame : c = c' := hfields.complete c c' fun slot hslot =>
    hpart.get_comm (fun slot _ => hapart' slot.name) hpartEnd hpart' hpartEnd' hslot
  refine eq_of_slots (hfields.injective hc (hsame ▸ hc')) fun slot hslot => ?_
  exact hnew.get_comm (fun slot _ => hapart' slot.name) hend hnew' hend' hslot

/-- A name that is no field of the kind and is only cleared makes no difference. -/
theorem patched_without_iff {old new : Settings} {name : String}
    (hname : name ∉ old.step.kind.settingNames)
    (hclears : ∀ v, Value.member? name patch = some v → v.Clears) :
    old.patched (.object (patch.filter fun m => m.1 ≠ name)) = .ok new ↔
      old.patched (.object patch) = .ok new := by
  have hkeep {other : String} (hother : other ∈ old.step.kind.settingNames) :
      Value.member? other (patch.filter fun m => m.1 ≠ name) = Value.member? other patch := by
    rw [Value.member?_without, if_neg]
    rintro rfl
    exact hname hother
  have hshared {slot : Slot Settings} (hslot : slot ∈ slots) :
      slot.name ∈ old.step.kind.settingNames :=
    List.mem_cons_of_mem _ (List.mem_append_left _ (List.mem_map_of_mem hslot))
  have hpayload {slot : Slot old.step.kind.payload.Content}
      (hslot : slot ∈ old.step.kind.payload.slots) : slot.name ∈ old.step.kind.settingNames :=
    List.mem_cons_of_mem _ (List.mem_append_right _ (List.mem_map_of_mem hslot))
  have htakes : Takes (patch.filter fun m => m.1 ≠ name) old new ↔ Takes patch old new := by
    have hfirst : Slot.Takes slots ⟨.value, 1⟩ (found (patch.filter fun m => m.1 ≠ name)) old new ↔
        Slot.Takes slots ⟨.value, 1⟩ (found patch) old new :=
      Slot.takes_congr fun slot hslot => by rw [found, hkeep (hshared hslot), found]
    have hsecond (a b : old.step.kind.payload.Content) :
        Slot.Takes old.step.kind.payload.slots ⟨.buffer, 1⟩
          (found (patch.filter fun m => m.1 ≠ name)) a b ↔
        Slot.Takes old.step.kind.payload.slots ⟨.buffer, 1⟩ (found patch) a b :=
      Slot.takes_congr fun slot hslot => by rw [found, hkeep (hpayload hslot), found]
    simp only [Takes, hfirst, hsecond]
  have hkind : KeepsKind (patch.filter fun m => m.1 ≠ name) old.step.kind ↔
      KeepsKind patch old.step.kind := by
    rw [KeepsKind, hkeep List.mem_cons_self, KeepsKind]
  have hnames : NamesOnly (patch.filter fun m => m.1 ≠ name) old.step.kind ↔
      NamesOnly patch old.step.kind := by
    refine forall_congr' fun other => ?_
    rw [Value.member?_without]
    split_ifs with hsame
    · subst hsame
      exact ⟨fun _ v hv => .inr (hclears v hv), fun _ => nofun⟩
    · exact Iff.rfl
  rw [patched_eq_ok_iff, patched_eq_ok_iff, htakes, hkind, hnames]

end Settings

namespace Graph

variable {g g' : Graph} {id : NodeId}

theorem exists_split_of_node? {node : Node} (h : g.node? id = some node) :
    ∃ before after, g.nodes = before ++ node :: after ∧ (∀ n ∈ before, n.id ≠ id) ∧
      node.id = id := by
  obtain ⟨hid, before, after, hnodes, hbefore⟩ := List.find?_eq_some_iff_append.mp h
  exact ⟨before, after, hnodes, fun n hn => by simpa using hbefore n hn, by simpa using hid⟩

theorem changeFirst_append {change : Node → Node} {before after : List Node} {node : Node}
    (hbefore : ∀ n ∈ before, n.id ≠ id) (hid : node.id = id) :
    changeFirst id change (before ++ node :: after) = before ++ change node :: after := by
  induction before with
  | nil => rw [List.nil_append, changeFirst, if_pos hid, List.nil_append]
  | cons n rest ih =>
    have hrest := ih fun n hn => hbefore n (List.mem_cons_of_mem _ hn)
    rw [List.cons_append, changeFirst, if_neg (hbefore n List.mem_cons_self), hrest,
      List.cons_append]

def around (before : List Node) (node : Node) (after : List Node) (edges : List Edge)
    (settings : Settings) : Graph :=
  ⟨before ++ { node with settings } :: after, edges⟩

/-- A patch goes to the first node of an id. -/
theorem updateSettings_around {before after : List Node} {node : Node} (edges : List Edge)
    (hbefore : ∀ n ∈ before, n.id ≠ id) (hid : node.id = id) (settings : Settings)
    (patch : Json.Value) :
    (around before node after edges settings).updateSettings id patch =
      match settings.patched patch with
      | .error e => .error (.invalidPatch id e.message)
      | .ok new => .ok (around before node after edges new) := by
  have hnode : (around before node after edges settings).node? id =
      some { node with settings } := by
    refine List.find?_eq_some_iff_append.mpr ⟨by simpa using hid, before, after, rfl, ?_⟩
    exact fun n hn => by simpa using hbefore n hn
  rw [updateSettings, hnode]
  cases hpatched : settings.patched patch with
  | error e => simp only [hpatched]
  | ok new =>
    have hchange : (around before node after edges settings).changeNode id
        (fun n => { n with settings := new }) = around before node after edges new :=
      congrArg (Graph.mk · edges)
        (changeFirst_append hbefore (show ({ node with settings } : Node).id = id from hid))
    simp only [hpatched, hchange]

theorem exists_around {node : Node} (h : g.node? id = some node) :
    ∃ before after, g.nodes = before ++ node :: after ∧ (∀ n ∈ before, n.id ≠ id) ∧
      node.id = id ∧ g = around before node after g.edges node.settings := by
  obtain ⟨before, after, hnodes, hbefore, hid⟩ := exists_split_of_node? h
  refine ⟨before, after, hnodes, hbefore, hid, ?_⟩
  cases g
  cases hnodes
  rfl

/-- A patch that applies is an object that the settings of a node take. -/
theorem exists_around_of_updateSettings {patch : Json.Value}
    (h : g.updateSettings id patch = .ok g') :
    ∃ members before node after settings, patch = .object members ∧
      g.nodes = before ++ node :: after ∧ (∀ n ∈ before, n.id ≠ id) ∧ node.id = id ∧
      g = around before node after g.edges node.settings ∧
      g' = around before node after g.edges settings ∧
      node.settings.patched (.object members) = .ok settings := by
  cases hnode : g.node? id with
  | none =>
    rw [updateSettings, hnode] at h
    cases h
  | some node =>
    obtain ⟨before, after, hnodes, hbefore, hid, heq⟩ := exists_around hnode
    rw [heq, updateSettings_around g.edges hbefore hid] at h
    cases hpatched : node.settings.patched patch with
    | error e =>
      rw [hpatched] at h
      cases h
    | ok settings =>
      rw [hpatched] at h
      cases patch with
      | object members =>
        exact ⟨members, before, node, after, settings, rfl, hnodes, hbefore, hid, heq,
          (Except.ok.inj h).symm, hpatched⟩
      | _ => cases hpatched

/-- Patches of settings are shallow merges. One that applies changes nothing but the first node of
the id, keeps its kind, and puts what it decodes to into the fields it names. One that names fields
of the kind, and no other kind, applies if it decodes. So the empty patch changes nothing, a second
time changes nothing more, and patches that name different fields may come in either order. -/
theorem patches_merge_shallowly (g : Graph) (id : NodeId) :
    (∀ patch g', g.updateSettings id patch = .ok g' →
      ∃ members before node after settings, patch = .object members ∧
        g.nodes = before ++ node :: after ∧ (∀ n ∈ before, n.id ≠ id) ∧ node.id = id ∧
        g' = { g with nodes := before ++ { node with settings } :: after } ∧
        settings.step.kind = node.settings.step.kind ∧
        Settings.Takes members node.settings settings) ∧
    (∀ node members, g.node? id = some node →
      (∀ m ∈ members, m.1 ∈ node.settings.step.kind.settingNames) →
      Settings.KeepsKind members node.settings.step.kind →
      Settings.Decodes members node.settings.step.kind →
      ∃ g', g.updateSettings id (.object members) = .ok g') ∧
    (∀ node, g.node? id = some node → g.updateSettings id (.object []) = .ok g) ∧
    (∀ patch g', g.updateSettings id patch = .ok g' → g'.updateSettings id patch = .ok g') ∧
    ∀ members members' g₁ g₂,
      (∀ name, Json.Value.member? name members = none ∨ Json.Value.member? name members' = none) →
      g.updateSettings id (.object members) = .ok g₁ →
      g.updateSettings id (.object members') = .ok g₂ →
      ∃ both, g₁.updateSettings id (.object members') = .ok both ∧
        g₂.updateSettings id (.object members) = .ok both := by
  refine ⟨?merges, ?applies, ?empty, ?again, ?either_order⟩
  case merges =>
    intro patch g' h
    obtain ⟨members, before, node, after, settings, rfl, hnodes, hbefore, hid, -, rfl, hpatched⟩ :=
      exists_around_of_updateSettings h
    obtain ⟨-, htakes, -⟩ := Settings.patched_eq_ok_iff.mp hpatched
    exact ⟨members, before, node, after, settings, rfl, hnodes, hbefore, hid, rfl, htakes.kind_eq,
      htakes⟩
  case applies =>
    intro node members hnode hnames hkeeps hdecodes
    obtain ⟨before, after, -, hbefore, hid, heq⟩ := exists_around hnode
    have honly : Settings.NamesOnly members node.settings.step.kind := by
      intro name v hv
      obtain ⟨m, hm, rfl⟩ := Option.map_eq_some_iff.mp hv
      have hname : m.1 = name := by simpa using List.find?_some hm
      exact .inl (hname ▸ hnames m (List.mem_reverse.mp (List.mem_of_find?_eq_some hm)))
    obtain ⟨settings, hpatched⟩ := Settings.exists_patched hkeeps hdecodes honly
    refine ⟨around before node after g.edges settings, ?_⟩
    rw [heq, updateSettings_around g.edges hbefore hid, hpatched]
    rfl
  case empty =>
    intro node hnode
    obtain ⟨before, after, -, hbefore, hid, heq⟩ := exists_around hnode
    rw [heq, updateSettings_around g.edges hbefore hid, Settings.patched_nil]
  case again =>
    intro patch g' h
    obtain ⟨members, before, node, after, settings, rfl, -, hbefore, hid, -, rfl, hpatched⟩ :=
      exists_around_of_updateSettings h
    rw [updateSettings_around g.edges hbefore hid, Settings.patched_again hpatched]
  case either_order =>
    intro members members' g₁ g₂ hapart h h'
    obtain ⟨_, before, node, after, settings, hobject, -, hbefore, hid, heq, rfl, hpatched⟩ :=
      exists_around_of_updateSettings h
    cases hobject
    rw [heq, updateSettings_around g.edges hbefore hid] at h'
    cases hpatched' : node.settings.patched (.object members') with
    | error e =>
      rw [hpatched'] at h'
      cases h'
    | ok settings' =>
      rw [hpatched'] at h'
      obtain rfl : around before node after g.edges settings' = g₂ := Except.ok.inj h'
      obtain ⟨both, hboth, hboth'⟩ := Settings.patched_comm hapart hpatched hpatched'
      refine ⟨around before node after g.edges both, ?_, ?_⟩
      · rw [updateSettings_around g.edges hbefore hid, hboth]
      · rw [updateSettings_around g.edges hbefore hid, hboth']

/-- Two nodes of one id, of which the first deploys a template. -/
def rollout : Graph where
  nodes := [.ofStep "push" (.deploy { template := some "base", commands := ["ntp"] }) .origin,
    .ofStep "push" (.task {}) .origin]
  edges := []

def rolloutPatch : List (String × Json.Value) :=
  [("timeoutSeconds", .ofNat 30), ("kind", .text "configDeploy"), ("templateRef", .null)]

theorem patches_merge_shallowly_rollout :
    ∃ first second both,
      rollout.updateSettings "push" (.object rolloutPatch) = .ok first ∧
      first.nodes = [⟨"push", "push", .origin,
        { step := .deploy { commands := ["ntp"] }, timeoutSeconds := some 30 }⟩,
        .ofStep "push" (.task {}) .origin] ∧
      first.updateSettings "push" (.object rolloutPatch) = .ok first ∧
      rollout.updateSettings "push" (.object [("commands", .array [])]) = .ok second ∧
      first.updateSettings "push" (.object [("commands", .array [])]) = .ok both ∧
      second.updateSettings "push" (.object rolloutPatch) = .ok both ∧
      rollout.updateSettings "push" (.object []) = .ok rollout := by
  obtain ⟨hmerges, happlies, hempty, hagain, horder⟩ := patches_merge_shallowly rollout "push"
  have hfirst : rollout.updateSettings "push" (.object rolloutPatch) =
      .ok ⟨[⟨"push", "push", .origin,
        { step := .deploy { commands := ["ntp"] }, timeoutSeconds := some 30 }⟩,
        .ofStep "push" (.task {}) .origin], []⟩ := by rfl
  have hdecodes : Settings.Decodes [("commands", .array [])] .deploy := by
    constructor
    · simp only [Slot.Decodes, Settings.slots, List.forall_mem_cons]
      refine ⟨fun v hv => ?_, fun v hv => ?_, List.forall_mem_nil _⟩ <;> cases hv
    · show Slot.Decodes Deployment.slots _ _
      simp only [Slot.Decodes, Deployment.slots, List.forall_mem_cons]
      refine ⟨fun v hv => ?_, fun v hv => ?_, fun v hv => ?_, List.forall_mem_nil _⟩ <;> cases hv
      exact ⟨[], rfl⟩
  have hapart (name : String) : Json.Value.member? name rolloutPatch = none ∨
      Json.Value.member? name [("commands", .array [])] = none := by
    by_cases hname : name = "commands"
    · exact .inl (by rw [hname]; rfl)
    · exact .inr (by simp [Json.Value.member?, Ne.symm hname])
  obtain ⟨second, hsecond⟩ := happlies _ _ rfl (by decide) (fun v hv => by cases hv) hdecodes
  obtain ⟨both, hboth, hboth'⟩ := horder _ _ _ second hapart hfirst hsecond
  exact ⟨_, second, both, hfirst, rfl, hagain _ _ hfirst, hsecond, hboth, hboth', hempty _ rfl⟩

/-- A patch that gives a value to a name which is no field of the kind is refused, and a session
stays as it was. But null and the empty list pass under any such name, as if it were not there. -/
theorem unknown_settings_refused_unless_cleared (g : Graph) (id : NodeId) {node : Node}
    (hnode : g.node? id = some node) {members : List (String × Json.Value)} {name : String}
    {v : Json.Value} (hfound : Json.Value.member? name members = some v)
    (hname : name ∉ node.settings.step.kind.settingNames) :
    (¬ v.Clears → ∃ reason,
      g.updateSettings id (.object members) = .error (.invalidPatch id reason) ∧
      ∀ {σ : Type} [Sink σ] (s : Session σ), s.graph = g →
        s.perform (.edit (.updateSettings id (.object members))) =
          (s, .refused (.invalidPatch id reason))) ∧
    (v.Clears → ∀ g',
      g.updateSettings id (.object (members.filter fun m => m.1 ≠ name)) = .ok g' ↔
        g.updateSettings id (.object members) = .ok g') := by
  obtain ⟨before, after, -, hbefore, hid, heq⟩ := exists_around hnode
  refine ⟨fun hkept => ?_, fun hclears g' => ?_⟩
  · cases hpatched : node.settings.patched (.object members) with
    | ok settings =>
      obtain ⟨-, -, honly⟩ := Settings.patched_eq_ok_iff.mp hpatched
      rcases honly name v hfound with hmem | hclears
      · exact absurd hmem hname
      · exact absurd hclears hkept
    | error e =>
      have herror : g.updateSettings id (.object members) =
          .error (.invalidPatch id e.message) := by
        rw [heq, updateSettings_around g.edges hbefore hid, hpatched]
      refine ⟨e.message, herror, fun s hs => Session.perform_edit_of_error ?_⟩
      rw [hs]
      exact herror
  · have hpatched (settings : Settings) :
        node.settings.patched (.object (members.filter fun m => m.1 ≠ name)) = .ok settings ↔
          node.settings.patched (.object members) = .ok settings := by
      refine Settings.patched_without_iff hname fun w hw => ?_
      rw [hfound] at hw
      exact Option.some.inj hw ▸ hclears
    rw [heq, updateSettings_around g.edges hbefore hid, updateSettings_around g.edges hbefore hid]
    cases hwith : node.settings.patched (.object members) with
    | ok settings => rw [(hpatched settings).mpr hwith]
    | error e =>
      cases hwithout : node.settings.patched
          (.object (members.filter fun m => m.1 ≠ name)) with
      | ok settings =>
        rw [(hpatched settings).mp hwithout] at hwith
        cases hwith
      | error e' => simp

def lone : Graph where
  nodes := [.ofStep "b" (.task {}) .origin]
  edges := []

theorem unknown_settings_refused_unless_cleared_lone :
    "bogus" ∉ Kind.task.settingNames ∧
    (∃ reason, lone.updateSettings "b" (.object [("bogus", .bool true)]) =
      .error (.invalidPatch "b" reason)) ∧
    ∃ g', lone.updateSettings "b" (.object [("timeoutSeconds", .ofNat 5)]) = .ok g' ∧
      lone.updateSettings "b" (.object [("bogus", .null), ("timeoutSeconds", .ofNat 5)]) =
        .ok g' := by
  have hname : "bogus" ∉ Kind.task.settingNames := by decide
  have hnode : lone.node? "b" = some (.ofStep "b" (.task {}) .origin) := rfl
  have hset : Json.Value.member? "bogus" [("bogus", .bool true)] = some (.bool true) := rfl
  have hcleared : Json.Value.member? "bogus"
      [("bogus", .null), ("timeoutSeconds", .ofNat 5)] = some .null := rfl
  have hbool : ¬ (Json.Value.bool true).Clears := by
    simp [Json.Value.Clears, Json.Value.isNull, Json.Value.isEmptyArray]
  obtain ⟨reason, hrefused, -⟩ :=
    (unknown_settings_refused_unless_cleared lone "b" hnode hset hname).1 hbool
  have hsame := (unknown_settings_refused_unless_cleared lone "b" hnode hcleared hname).2
    (.inl rfl)
  exact ⟨hname, ⟨reason, hrefused⟩, _, rfl, (hsame _).mp rfl⟩

/-- A name that no task has passes under null. -/
theorem unknown_setting_accepted :
    "bogus" ∉ Kind.task.settingNames ∧
      lone.updateSettings "b" (.object [("bogus", .null)]) = .ok lone := by
  have hname : "bogus" ∉ Kind.task.settingNames := by decide
  exact ⟨hname, rfl⟩

end Graph

end Runbook
