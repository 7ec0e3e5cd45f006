import Mathlib.Tactic.Common
import Runbook.Proofs.SlotLaws
import Runbook.Proofs.StepForms

/-!
The slots of settings. Each kind has the slots of its parameters, beside the two that all kinds
share. No slot of a kind has the name of a shared one or of the tag, so settings are read from their
members slot by slot, in whatever order these come.
-/
namespace Runbook

open Json Json.Format

def Task.slots : List (Slot Task) :=
  [⟨"action", .optional .text, action⟩, ⟨"description", .optional .text, description⟩]

def Condition.slots : List (Slot Condition) := [⟨"expression", .text, expression⟩]

def Loop.slots : List (Slot Loop) :=
  [⟨"maxIterations", .uint32, maxIterations⟩, ⟨"until", .optional .text, untilExpression⟩]

def Connection.slots : List (Slot Connection) :=
  [⟨"credentialRef", .optional .text, credential⟩, ⟨"target", .optional Target.format, target⟩]

def Deployment.slots : List (Slot Deployment) :=
  [⟨"templateRef", .optional .text, template⟩, ⟨"commands", .list .text, commands⟩,
    ⟨"saveConfig", .bool, save⟩]

def Execution.slots : List (Slot Execution) :=
  [⟨"commands", .list .text, commands⟩, ⟨"templateRef", .optional .text, template⟩]

def Backup.slots : List (Slot Backup) :=
  [⟨"command", .optional .text, command⟩, ⟨"destination", .optional .text, destination⟩]

def StatusCheck.slots : List (Slot StatusCheck) :=
  [⟨"command", .text, command⟩, ⟨"expect", .text, expect⟩]

def Settings.slots : List (Slot Settings) :=
  [⟨"errorHandling", .optional Policy.format, policy⟩,
    ⟨"timeoutSeconds", .optional .uint32, timeoutSeconds⟩]

structure Payload where
  {Content : Type}
  slots : List (Slot Content)
  part? : Step → Option Content

def Payload.bare (only : Step) : Payload :=
  ⟨([] : List (Slot Unit)), fun step => if step = only then some () else none⟩

def Kind.payload : Kind → Payload
  | .start => .bare .start
  | .finish => .bare .finish
  | .task => ⟨Task.slots, Step.task?⟩
  | .condition => ⟨Condition.slots, Step.condition?⟩
  | .loop => ⟨Loop.slots, Step.loop?⟩
  | .connect => ⟨Connection.slots, Step.connect?⟩
  | .deploy => ⟨Deployment.slots, Step.deploy?⟩
  | .execute => ⟨Execution.slots, Step.execute?⟩
  | .backup => ⟨Backup.slots, Step.backup?⟩
  | .check => ⟨StatusCheck.slots, Step.check?⟩

def Kind.settingNames (kind : Kind) : List String :=
  "kind" :: (Settings.slots.map Slot.name ++ kind.payload.slots.map Slot.name)

structure RecordSlots {β : Type} (r : Record β) (slots : List (Slot β)) : Prop
    extends Slotted r.fields slots r.blank where
  complete : ∀ a b, (∀ slot ∈ slots, slot.get a = slot.get b) → a = b

/-- The fields of a payload, which fill its slots, and the variant that reads them. -/
structure Payload.HasFields (p : Payload) (kind : Kind) (fields : List (Json.Field p.Content))
    (blank : p.Content) : Prop extends Slotted fields p.slots blank where
  reserved : ∀ name ∈ p.slots.map Slot.name, name ∉ Settings.reserved
  complete : ∀ a b, (∀ slot ∈ p.slots, slot.get a = slot.get b) → a = b
  kind_eq : ∀ {step a}, p.part? step = some a → step.kind = kind
  onto : ∀ a, ∃ step, p.part? step = some a
  injective : ∀ {step step' a}, p.part? step = some a → p.part? step' = some a → step = step'
  members : ∀ {step a}, p.part? step = some a →
    Step.tagged.members step = ("kind", .text kind.name) :: Json.Field.written fields a
  reads : ∃ v ∈ Step.tagged.variants, v.name = kind.name ∧ ∀ members step,
    v.read Tagged.buffer (Source.ofValue (.object members)) = .ok step ↔
      ∃ met b, Record.fill fields ⟨.buffer, 1⟩ [] blank (Source.ofMembers members) = .ok (met, b) ∧
        p.part? step = some b

namespace Payload

variable {kind : Kind}

theorem part?_bare {only step : Step} {a : Unit} (h : (bare only).part? step = some a) :
    step = only := by
  by_contra hne
  have hif : (if step = only then some () else none) = some a := h
  rw [if_neg hne] at hif
  cases hif

/-- A kind without parameters has no fields. -/
theorem hasFields_bare {only : Step} (hkind : only.kind = kind)
    (hvariant : Variant.bare kind.name only (· = only) ∈ Step.tagged.variants)
    (hmembers : Step.tagged.members only = [("kind", .text kind.name)]) :
    (bare only).HasFields kind [] () where
  fills := .nil
  names := .nil
  reserved := by simp [bare]
  complete _ _ _ := rfl
  kind_eq h := by rw [part?_bare h, hkind]
  onto _ := ⟨only, if_pos rfl⟩
  injective h h' := (part?_bare h).trans (part?_bare h').symm
  members h := by
    rw [part?_bare h, hmembers]
    rfl
  reads := by
    refine ⟨_, hvariant, rfl, fun members step => ?_⟩
    have hfill : ∀ rest, Record.fill ([] : List (Json.Field Unit)) ⟨.buffer, 1⟩ [] ()
        (Source.ofMembers rest) = .ok ([], ()) := by
      intro rest
      induction rest with
      | nil => rfl
      | cons m rest ih =>
        rw [Source.ofMembers, Record.fill]
        simp only [Leaf.read, bind, Except.bind, List.find?_nil, Source.skip_ofValue, ih]
    show Except.ok only = .ok step ↔ _
    simp [hfill, bare, eq_comm]

/-- A kind with the parameters of a record has its fields. -/
theorem hasFields_record {β : Type} {r : Record β} {slots : List (Slot β)} (wrap : β → Step)
    {unwrap : Step → Option β} (h : RecordSlots r slots)
    (hkind : ∀ b, (wrap b).kind = kind) (hwrap : ∀ step b, unwrap step = some b ↔ wrap b = step)
    (hreserved : ∀ name ∈ slots.map Slot.name, name ∉ Settings.reserved)
    (hvariant : Variant.record kind.name r wrap unwrap ∈ Step.tagged.variants)
    (hmembers : ∀ b, Step.tagged.members (wrap b) = ("kind", .text kind.name) :: r.members b) :
    HasFields ⟨slots, unwrap⟩ kind r.fields r.blank where
  toSlotted := h.toSlotted
  reserved := hreserved
  complete := h.complete
  kind_eq {step a} ha := by
    rw [← (hwrap step a).mp ha]
    exact hkind a
  onto b := ⟨wrap b, (hwrap _ b).mpr rfl⟩
  injective ha ha' := ((hwrap _ _).mp ha).symm.trans ((hwrap _ _).mp ha')
  members {step a} ha := by
    rw [← (hwrap step a).mp ha]
    exact hmembers a
  reads := by
    refine ⟨_, hvariant, rfl, fun members step => ?_⟩
    have hread : r.read Tagged.buffer (Source.ofValue (.object members)) =
        (Record.fill r.fields ⟨.buffer, 1⟩ [] r.blank (Source.ofMembers members)).map
          Prod.snd := by
      show (Record.fill r.fields ⟨.buffer, 1⟩ [] r.blank (Source.ofMembers members) >>= fun met =>
        Record.require r.fields met.1 >>= fun _ => .ok met.2) = _
      cases Record.fill r.fields ⟨.buffer, 1⟩ [] r.blank (Source.ofMembers members) with
      | error e => rfl
      | ok met =>
        simp only [bind, Except.bind, h.require_eq]
        rfl
    show wrap <$> r.read Tagged.buffer (Source.ofValue (.object members)) = .ok step ↔ _
    rw [hread]
    cases Record.fill r.fields ⟨.buffer, 1⟩ [] r.blank (Source.ofMembers members) with
    | error e => simp [Except.map, Functor.map]
    | ok met =>
      obtain ⟨met, b⟩ := met
      simp [Except.map, Functor.map, hwrap]

end Payload

section Records

open Json.Field (fills_lenient fills_option fills_many)

theorem Task.recordSlots : RecordSlots record slots where
  fills := .cons (fills_option 0 lawful_text (fun _ _ => rfl) (by simp [slots]) rfl)
    (.cons (fills_option 0 lawful_text (fun _ _ => rfl) (by simp [slots]) rfl) .nil)
  names := by decide
  complete a b h := by
    cases a
    cases b
    simp_all [slots]

theorem Condition.recordSlots : RecordSlots record slots where
  fills := .cons (fills_lenient 0 lawful_text (fun _ _ => rfl) (by simp [slots])) .nil
  names := by decide
  complete a b h := by
    cases a
    cases b
    simp_all [slots]

theorem Loop.recordSlots : RecordSlots record slots where
  fills := .cons (fills_lenient 0 lawful_uint32 (fun _ _ => rfl) (by simp [slots]))
    (.cons (fills_option 0 lawful_text (fun _ _ => rfl) (by simp [slots]) rfl) .nil)
  names := by decide
  complete a b h := by
    cases a
    cases b
    simp_all [slots]

theorem Connection.recordSlots : RecordSlots record slots where
  fills := .cons (fills_option 0 lawful_text (fun _ _ => rfl) (by simp [slots]) rfl)
    (.cons (fills_option 1 Target.lawful (fun _ _ => rfl) (by simp [slots]) rfl) .nil)
  names := by decide
  complete a b h := by
    cases a
    cases b
    simp_all [slots]

theorem Deployment.recordSlots : RecordSlots record slots where
  fills := .cons (fills_option 0 lawful_text (fun _ _ => rfl) (by simp [slots]) rfl)
    (.cons (fills_many 0 lawful_text (fun _ _ => rfl) (by simp [slots]) rfl)
      (.cons (fills_lenient 0 lawful_bool (fun _ _ => rfl) (by simp [slots])) .nil))
  names := by decide
  complete a b h := by
    cases a
    cases b
    simp_all [slots]

theorem Execution.recordSlots : RecordSlots record slots where
  fills := .cons (fills_many 0 lawful_text (fun _ _ => rfl) (by simp [slots]) rfl)
    (.cons (fills_option 0 lawful_text (fun _ _ => rfl) (by simp [slots]) rfl) .nil)
  names := by decide
  complete a b h := by
    cases a
    cases b
    simp_all [slots]

theorem Backup.recordSlots : RecordSlots record slots where
  fills := .cons (fills_option 0 lawful_text (fun _ _ => rfl) (by simp [slots]) rfl)
    (.cons (fills_option 0 lawful_text (fun _ _ => rfl) (by simp [slots]) rfl) .nil)
  names := by decide
  complete a b h := by
    cases a
    cases b
    simp_all [slots]

theorem StatusCheck.recordSlots : RecordSlots record slots where
  fills := .cons (fills_lenient 0 lawful_text (fun _ _ => rfl) (by simp [slots]))
    (.cons (fills_lenient 0 lawful_text (fun _ _ => rfl) (by simp [slots])) .nil)
  names := by decide
  complete a b h := by
    cases a
    cases b
    simp_all [slots]

theorem Settings.slotted : Slotted shared slots ⟨.start, none, none⟩ where
  fills := .cons (fills_option 1 Policy.lawful (fun _ _ => rfl) (by simp [slots]) rfl)
    (.cons (fills_option 0 lawful_uint32 (fun _ _ => rfl) (by simp [slots]) rfl) .nil)
  names := by decide

end Records

theorem Kind.exists_fields (kind : Kind) :
    ∃ fields blank, kind.payload.HasFields kind fields blank := by
  cases kind with
  | start => exact ⟨_, _, Payload.hasFields_bare rfl (by simp [Step.tagged, name]) rfl⟩
  | finish => exact ⟨_, _, Payload.hasFields_bare rfl (by simp [Step.tagged, name]) rfl⟩
  | task =>
    exact ⟨_, _, Payload.hasFields_record Step.task Task.recordSlots (fun _ => rfl)
      (fun step b => by cases step <;> simp [Step.task?, eq_comm]) (by decide)
      (by simp [Step.tagged, name]) fun _ => rfl⟩
  | condition =>
    exact ⟨_, _, Payload.hasFields_record Step.condition Condition.recordSlots (fun _ => rfl)
      (fun step b => by cases step <;> simp [Step.condition?, eq_comm]) (by decide)
      (by simp [Step.tagged, name]) fun _ => rfl⟩
  | loop =>
    exact ⟨_, _, Payload.hasFields_record Step.loop Loop.recordSlots (fun _ => rfl)
      (fun step b => by cases step <;> simp [Step.loop?, eq_comm]) (by decide)
      (by simp [Step.tagged, name]) fun _ => rfl⟩
  | connect =>
    exact ⟨_, _, Payload.hasFields_record Step.connect Connection.recordSlots (fun _ => rfl)
      (fun step b => by cases step <;> simp [Step.connect?, eq_comm]) (by decide)
      (by simp [Step.tagged, name]) fun _ => rfl⟩
  | deploy =>
    exact ⟨_, _, Payload.hasFields_record Step.deploy Deployment.recordSlots (fun _ => rfl)
      (fun step b => by cases step <;> simp [Step.deploy?, eq_comm]) (by decide)
      (by simp [Step.tagged, name]) fun _ => rfl⟩
  | execute =>
    exact ⟨_, _, Payload.hasFields_record Step.execute Execution.recordSlots (fun _ => rfl)
      (fun step b => by cases step <;> simp [Step.execute?, eq_comm]) (by decide)
      (by simp [Step.tagged, name]) fun _ => rfl⟩
  | backup =>
    exact ⟨_, _, Payload.hasFields_record Step.backup Backup.recordSlots (fun _ => rfl)
      (fun step b => by cases step <;> simp [Step.backup?, eq_comm]) (by decide)
      (by simp [Step.tagged, name]) fun _ => rfl⟩
  | check =>
    exact ⟨_, _, Payload.hasFields_record Step.check StatusCheck.recordSlots (fun _ => rfl)
      (fun step b => by cases step <;> simp [Step.check?, eq_comm]) (by decide)
      (by simp [Step.tagged, name]) fun _ => rfl⟩

theorem Kind.exists_part (step : Step) : ∃ a, step.kind.payload.part? step = some a := by
  cases step <;> exact ⟨_, rfl⟩

namespace Settings

variable {kind : Kind} {fields : List (Json.Field kind.payload.Content)}
  {blank : kind.payload.Content} {members : List (String × Json.Value)}

theorem isShared_of_slot {slot : Slot Settings} (hslot : slot ∈ slots) (v : Json.Value) :
    isShared (slot.name, v) = true := by
  rw [isShared_iff, slotted.names_fields]
  exact List.mem_map_of_mem hslot

theorem not_isShared_of_slot (hfields : kind.payload.HasFields kind fields blank)
    {slot : Slot kind.payload.Content} (hslot : slot ∈ kind.payload.slots) (v : Json.Value) :
    isShared (slot.name, v) = false ∧ slot.name ≠ "kind" := by
  have hname := hfields.reserved slot.name (List.mem_map_of_mem hslot)
  rw [reserved, List.mem_cons, not_or] at hname
  refine ⟨?_, hname.1⟩
  rw [← Bool.not_eq_true, isShared_iff]
  exact hname.2

def stepMembers (members : List (String × Json.Value)) : List (String × Json.Value) :=
  (members.filter fun m => !isShared m).filter fun m => m.1 ≠ "kind"

theorem lookup_stepMembers (hfields : kind.payload.HasFields kind fields blank)
    {slot : Slot kind.payload.Content} (hslot : slot ∈ kind.payload.slots) :
    (stepMembers members).lookup slot.name = members.lookup slot.name := by
  have hnot := not_isShared_of_slot hfields hslot
  rw [stepMembers, Catalog.lookup_filter fun v => by simp [(hnot v).2],
    Catalog.lookup_filter fun v => by simp [(hnot v).1]]

/-- The step is read by the variant of the kind that the members name. -/
theorem readMembers_eq {v : Variant Step} (hv : v ∈ Step.tagged.variants)
    (hnames : (members.map Prod.fst).Nodup) (hkind : ("kind", .text v.name) ∈ members) :
    Step.tagged.readMembers Tagged.buffer
      (Source.ofMembers (members.filter fun m => !isShared m)) .closed =
    v.read Tagged.buffer (Source.ofValue (.object (stepMembers members))) := by
  have hmem : ("kind", .text v.name) ∈ members.filter fun m => !isShared m :=
    List.mem_filter.mpr ⟨hkind, by simp [isShared, shared, Json.Field.option]⟩
  have hnodup := (hnames.sublist ((List.filter_sublist (p := fun m => !isShared m)).map Prod.fst))
  obtain ⟨before, after, heq⟩ := List.append_of_mem hmem
  rw [heq, List.map_append, List.map_cons, List.nodup_middle, List.nodup_cons,
    ← List.map_append] at hnodup
  have htag : ∀ m ∈ before ++ after, m.1 ≠ "kind" := fun m hm hname =>
    hnodup.1 (List.mem_map.mpr ⟨m, hm, hname⟩)
  have hothers : stepMembers members = before ++ after := by
    rw [stepMembers, heq, List.filter_append, List.filter_cons_of_neg (by simp),
      ← List.filter_append]
    exact List.filter_eq_self.mpr fun m hm => by simpa using htag m hm
  have hsplit : Step.tagged.split Tagged.buffer none
      (Source.ofMembers (before ++ ("kind", .text v.name) :: after)) =
      .ok (some v, before ++ after) :=
    Tagged.split_tag (by decide) hv htag fun m _ => Source.value_ofValue_none m.2
  rw [hothers, heq, Tagged.readMembers]
  simp only [hsplit, bind, Except.bind, Closing.readMembers]

theorem get_step {slot : Slot Settings} (hslot : slot ∈ slots) (s : Settings) (step : Step) :
    slot.get { s with step } = slot.get s := by
  revert slot
  simp [slots]

theorem eq_of_slots {a b : Settings} (hstep : a.step = b.step)
    (h : ∀ slot ∈ slots, slot.get a = slot.get b) : a = b := by
  cases a
  cases b
  simp_all [slots]

/-- The shared members are read first, then the step from the others. -/
theorem read_eq {v : Variant Step} (hv : v ∈ Step.tagged.variants)
    (hnames : (members.map Prod.fst).Nodup) (hkind : ("kind", .text v.name) ∈ members) :
    read ⟨.value, 0⟩ (Source.ofValue (.object members)) =
      Record.fill shared ⟨.value, 1⟩ [] ⟨.start, none, none⟩
        (Source.ofMembers (members.filter isShared)) >>= fun met =>
      v.read Tagged.buffer (Source.ofValue (.object (stepMembers members))) >>= fun step =>
      .ok { met.2 with step } := by
  have hvalues : ∀ m ∈ members,
      (Source.ofValue m.2).value (Tagged.valueDepth ⟨.value, 1⟩) = .ok m.2 :=
    fun m _ => Source.value_ofValue_none m.2
  show (fill ⟨.value, 1⟩ [] ⟨.start, none, none⟩ (Source.ofMembers members) >>= fun met =>
    Step.tagged.readMembers Tagged.buffer (Source.ofMembers met.2) .closed >>= fun step =>
    .ok { met.1 with step }) = _
  rw [fill_eq hvalues [] ⟨.start, none, none⟩]
  cases Record.fill shared ⟨.value, 1⟩ [] ⟨.start, none, none⟩
    (Source.ofMembers (members.filter isShared)) with
  | error e => rfl
  | ok met =>
    show Step.tagged.readMembers Tagged.buffer _ .closed >>= _ = _ >>= _
    rw [readMembers_eq hv hnames hkind]
    rfl

/-- The step is read from members slot by slot. -/
theorem read_step_iff (hfields : kind.payload.HasFields kind fields blank)
    (hnames : (members.map Prod.fst).Nodup) {v : Variant Step}
    (hreads : ∀ members step, v.read Tagged.buffer (Source.ofValue (.object members)) = .ok step ↔
      ∃ met b, Record.fill fields ⟨.buffer, 1⟩ [] blank (Source.ofMembers members) = .ok (met, b) ∧
        kind.payload.part? step = some b)
    (step : Step) :
    v.read Tagged.buffer (Source.ofValue (.object (stepMembers members))) = .ok step ↔
      ∃ b, kind.payload.part? step = some b ∧
        Slot.Takes kind.payload.slots ⟨.buffer, 1⟩ (members.lookup ·) blank b := by
  have hstepNames : ((stepMembers members).map Prod.fst).Nodup :=
    hnames.sublist ((List.filter_sublist.trans List.filter_sublist).map Prod.fst)
  have htakes (b : kind.payload.Content) :
      (∃ met, Record.fill fields ⟨.buffer, 1⟩ [] blank (Source.ofMembers (stepMembers members)) =
        .ok (met, b)) ↔
      Slot.Takes kind.payload.slots ⟨.buffer, 1⟩ (members.lookup ·) blank b :=
    (hfields.fill_iff hfields.complete hstepNames).trans
      (Slot.takes_congr fun slot hslot => lookup_stepMembers hfields hslot)
  rw [hreads]
  constructor
  · rintro ⟨met, b, hfill, hpart⟩
    exact ⟨b, hpart, (htakes b).mp ⟨met, hfill⟩⟩
  · rintro ⟨b, hpart, hb⟩
    obtain ⟨met, hfill⟩ := (htakes b).mpr hb
    exact ⟨met, b, hfill, hpart⟩

/-- Settings are read from members slot by slot, and what is not there is blank. -/
theorem read_eq_ok_iff (hfields : kind.payload.HasFields kind fields blank)
    (hnames : (members.map Prod.fst).Nodup)
    (hkind : members.lookup "kind" = some (.text kind.name)) (new : Settings) :
    read ⟨.value, 0⟩ (Source.ofValue (.object members)) = .ok new ↔
      Slot.Takes slots ⟨.value, 1⟩ (members.lookup ·) ⟨.start, none, none⟩ new ∧
      ∃ b, kind.payload.part? new.step = some b ∧
        Slot.Takes kind.payload.slots ⟨.buffer, 1⟩ (members.lookup ·) blank b := by
  obtain ⟨v, hv, hname, hreads⟩ := hfields.reads
  have hmem : ("kind", .text v.name) ∈ members := by
    rw [hname]
    exact (Catalog.lookup_eq_some_iff hnames).mp hkind
  have hstep := read_step_iff hfields hnames hreads
  have hshared (s : Settings) :
      Slot.Takes slots ⟨.value, 1⟩ ((members.filter isShared).lookup ·) ⟨.start, none, none⟩ s ↔
        Slot.Takes slots ⟨.value, 1⟩ (members.lookup ·) ⟨.start, none, none⟩ s :=
    Slot.takes_congr fun slot hslot => Catalog.lookup_filter (isShared_of_slot hslot) members
  have hsharedNames : ((members.filter isShared).map Prod.fst).Nodup :=
    hnames.sublist (List.filter_sublist.map Prod.fst)
  rw [read_eq hv hnames hmem]
  constructor
  · intro hok
    cases hfill : Record.fill shared ⟨.value, 1⟩ [] ⟨.start, none, none⟩
        (Source.ofMembers (members.filter isShared)) with
    | error e =>
      rw [hfill] at hok
      cases hok
    | ok met =>
      obtain ⟨met, settings⟩ := met
      have htakes := slotted.takes_of_fill hsharedNames (fun _ _ => List.not_mem_nil) hfill
      cases hread : v.read Tagged.buffer (Source.ofValue (.object (stepMembers members))) with
      | error e =>
        rw [hfill, hread] at hok
        cases hok
      | ok step =>
        rw [hfill, hread] at hok
        obtain rfl : { settings with step } = new := Except.ok.inj hok
        refine ⟨fun slot hslot => ?_, (hstep step).mp hread⟩
        rw [get_step hslot]
        exact (hshared settings).mp htakes slot hslot
  · rintro ⟨htakes, hpart⟩
    rw [← hshared] at htakes
    obtain ⟨met, settings, hfill⟩ := slotted.exists_fill ⟨.start, none, none⟩ hsharedNames
      (fun _ _ => List.not_mem_nil) htakes.decodes
    have hsettings := slotted.takes_of_fill hsharedNames (fun _ _ => List.not_mem_nil) hfill
    have hnew : { settings with step := new.step } = new := by
      refine eq_of_slots rfl fun slot hslot => ?_
      rw [get_step hslot]
      exact hsettings.get_eq htakes hslot
    rw [hfill, ← hnew]
    show v.read Tagged.buffer _ >>= _ = _
    rw [(hstep new.step).mpr hpart]
    rfl

end Settings

end Runbook
