import Mathlib.Data.List.Forall2
import Mathlib.Data.List.Nodup
import Mathlib.Tactic.Common
import Runbook.Proofs.RecordLaws

/-!
What the fields of a record hold. A slot names a field, the form that decodes it and its value in a
record. Reading members fills the slots that they name and no others, and a field that is left out
in writing has its blank value. So members laid over those of a record change it slot by slot.
-/
namespace Runbook.Json

variable {α β : Type}

structure Slot (α : Type) where
  {Content : Type}
  name : String
  form : Format Content
  get : α → Content

namespace Slot

def Decodes (slots : List (Slot α)) (setting : Setting) (found : String → Option Value) : Prop :=
  ∀ slot ∈ slots, ∀ v, found slot.name = some v →
    ∃ x, slot.form.read setting (Source.ofValue v) = .ok x

/-- A record holds the decoded value of every slot for which one is found, and what was there
before in every other slot. -/
def Takes (slots : List (Slot α)) (setting : Setting) (found : String → Option Value)
    (old new : α) : Prop :=
  ∀ slot ∈ slots, (found slot.name = none → slot.get new = slot.get old) ∧
    ∀ v, found slot.name = some v →
      slot.form.read setting (Source.ofValue v) = .ok (slot.get new)

variable {slots : List (Slot α)} {setting : Setting} {found found' : String → Option Value}
  {old new : α}

theorem Takes.decodes (h : Takes slots setting found old new) : Decodes slots setting found :=
  fun slot hslot v hv => ⟨slot.get new, (h slot hslot).2 v hv⟩

theorem takes_congr (h : ∀ slot ∈ slots, found slot.name = found' slot.name) :
    Takes slots setting found old new ↔ Takes slots setting found' old new :=
  forall₂_congr fun slot hslot => by rw [h slot hslot]

/-- Nothing is found, so nothing changes. -/
theorem takes_refl (hnone : ∀ slot ∈ slots, found slot.name = none) (a : α) :
    Takes slots setting found a a := by
  intro slot hslot
  refine ⟨fun _ => rfl, fun v hv => ?_⟩
  rw [hnone slot hslot] at hv
  cases hv

/-- What has been taken once is there already. -/
theorem Takes.again (h : Takes slots setting found old new) : Takes slots setting found new new :=
  fun slot hslot => ⟨fun _ => rfl, (h slot hslot).2⟩

theorem Takes.get_eq {new' : α} (h : Takes slots setting found old new)
    (h' : Takes slots setting found old new') {slot : Slot α} (hslot : slot ∈ slots) :
    slot.get new = slot.get new' := by
  obtain ⟨hkeep, htake⟩ := h slot hslot
  obtain ⟨hkeep', htake'⟩ := h' slot hslot
  cases hfound : found slot.name with
  | none => rw [hkeep hfound, hkeep' hfound]
  | some v =>
    have hread := htake v hfound
    rw [htake' v hfound] at hread
    exact (Except.ok.inj hread).symm

/-- Values found for different slots may be taken in either order. -/
theorem Takes.get_comm {first second both both' : α}
    (hapart : ∀ slot ∈ slots, found slot.name = none ∨ found' slot.name = none)
    (hfirst : Takes slots setting found old first) (hboth : Takes slots setting found' first both)
    (hsecond : Takes slots setting found' old second)
    (hboth' : Takes slots setting found second both') {slot : Slot α} (hslot : slot ∈ slots) :
    slot.get both = slot.get both' := by
  rcases hapart slot hslot with hnone | hnone
  · rw [(hboth' slot hslot).1 hnone]
    have hkept := (hfirst slot hslot).1 hnone
    cases hfound : found' slot.name with
    | none => rw [(hboth slot hslot).1 hfound, hkept, (hsecond slot hslot).1 hfound]
    | some v =>
      have hread := (hboth slot hslot).2 v hfound
      rw [(hsecond slot hslot).2 v hfound] at hread
      exact (Except.ok.inj hread).symm
  · rw [(hboth slot hslot).1 hnone]
    have hkept := (hsecond slot hslot).1 hnone
    cases hfound : found slot.name with
    | none => rw [(hboth' slot hslot).1 hfound, hkept, (hfirst slot hslot).1 hfound]
    | some v =>
      have hread := (hboth' slot hslot).2 v hfound
      rw [(hfirst slot hslot).2 v hfound] at hread
      exact Except.ok.inj hread

end Slot

/-- Null and the empty list clear a field. -/
def Value.Clears (v : Value) : Prop := v.isNull ∨ v.isEmptyArray

/-- A field that fills a slot and leaves the others alone. When it is left out in writing it has
its blank value, and only what clears is read as that. -/
structure Field.Fills (f : Field α) (slots : List (Slot α)) (blank : α) (slot : Slot α) : Prop where
  name : f.name = slot.name
  optional : f.required = false
  reads : ∀ {setting s x}, slot.form.read setting s = .ok x → ∃ set, f.read setting s = .ok set
  sets : ∀ {setting s set}, f.read setting s = .ok set → ∀ a,
    slot.form.read setting s = .ok (slot.get (set a)) ∧
      ∀ other ∈ slots, other.name ≠ slot.name → other.get (set a) = other.get a
  written : ∀ {a v}, f.write a = some v → ∀ {setting : Setting}, setting.medium ≠ .text →
    slot.form.read setting (Source.ofValue v.sorted) = .ok (slot.get a)
  absent : ∀ {a}, f.write a = none → slot.get a = slot.get blank
  clears : ∀ {a}, f.write a = none → ∀ {setting v},
    slot.form.read setting (Source.ofValue v) = .ok (slot.get a) → v.Clears

namespace Field

variable {slots : List (Slot α)} {blank : α}

theorem exists_read {name : String} {form : Format β} {get : α → β} {set : β → α → α}
    (hget : ∀ x a, get (set x a) = x)
    (hapart : ∀ other ∈ slots, other.name ≠ name → ∀ x a, other.get (set x a) = other.get a)
    {setting : Setting} {s : Source} {change : α → α}
    (hread : set <$> form.read setting s = .ok change) (a : α) :
    form.read setting s = .ok (get (change a)) ∧
      ∀ other ∈ slots, other.name ≠ name → other.get (change a) = other.get a := by
  cases hform : form.read setting s with
  | error e =>
    rw [hform] at hread
    cases hread
  | ok x =>
    rw [hform] at hread
    obtain rfl : set x = change := Except.ok.inj hread
    exact ⟨by rw [hget], fun other hother hname => hapart other hother hname x a⟩

theorem fills_lenient (levels : Nat) {name : String} {form : Format β} {get : α → β}
    {set : β → α → α} (h : form.Lawful levels Format.Any) (hget : ∀ x a, get (set x a) = x)
    (hapart : ∀ other ∈ slots, other.name ≠ name → ∀ x a, other.get (set x a) = other.get a) :
    (lenient name form get set).Fills slots blank ⟨name, form, get⟩ where
  name := rfl
  optional := rfl
  reads {setting s x} hread := by
    have hform : form.read setting s = .ok x := hread
    exact ⟨set x, by simp only [lenient, plain, hform]; rfl⟩
  sets hread := exists_read hget hapart hread
  written {a v} hv setting hmedium := by
    obtain rfl : form.write (get a) = v := Option.some.inj hv
    exact h.reads trivial Arrangement.sorted (Setting.hasRoom_of_ne_text hmedium levels)
  absent hv := by cases hv
  clears hv := by cases hv

theorem fills_option (levels : Nat) {name : String} {form : Format β} {get : α → Option β}
    {set : Option β → α → α} (h : form.Lawful levels Format.Any)
    (hget : ∀ x a, get (set x a) = x)
    (hapart : ∀ other ∈ slots, other.name ≠ name → ∀ x a, other.get (set x a) = other.get a)
    (hblank : get blank = none) :
    (option name form get set).Fills slots blank ⟨name, form.optional, get⟩ where
  name := rfl
  optional := rfl
  reads {setting s x} hread := by
    have hform : form.optional.read setting s = .ok x := hread
    exact ⟨set x, by simp only [option, hform]; rfl⟩
  sets hread := exists_read hget hapart hread
  written {a v} hv setting hmedium := by
    obtain ⟨b, hb, rfl⟩ := Option.map_eq_some_iff.mp hv
    have hne := Arrangement.sorted.ne_null (h.fits trivial) (h.not_null b)
    have hread := h.reads (a := b) trivial Arrangement.sorted
      (Setting.hasRoom_of_ne_text hmedium levels)
    show Decoder.optional form.read setting _ = .ok (get a)
    rw [Decoder.optional_ofValue form.read setting hne, hread, hb]
    rfl
  absent {a} hv := by
    have hnone : get a = none := Option.map_eq_none_iff.mp hv
    show get a = get blank
    rw [hnone, hblank]
  clears {a} hv setting v hread := by
    have hnone : get a = none := Option.map_eq_none_iff.mp hv
    have hoptional : Decoder.optional form.read setting (Source.ofValue v) = .ok (get a) := hread
    by_cases hnull : v = .null
    · exact .inl (by rw [hnull]; rfl)
    · rw [Decoder.optional_ofValue form.read setting hnull, hnone] at hoptional
      cases hform : form.read setting (Source.ofValue v) <;> rw [hform] at hoptional <;>
        cases hoptional

/-- Only the empty list is read as no values. -/
theorem items_eq_nil_of_read {form : Format β} {setting : Setting} {v : Value}
    (h : form.list.read setting (Source.ofValue v) = .ok []) : v = .array [] := by
  cases v with
  | array items =>
    cases items with
    | nil => rfl
    | cons first rest =>
      have hread : Decoder.list form.read setting
          (.array (Source.ofValue first :: Source.ofItems rest) .closed) = .ok [] := h
      rw [Decoder.list] at hread
      cases henter : setting.enter with
      | error e => simp [henter, bind, Except.bind] at hread
      | ok inner =>
        cases hfirst : form.read inner (Source.ofValue first) with
        | error e => simp [henter, hfirst, bind, Except.bind] at hread
        | ok b =>
          cases hrest : (Source.ofItems rest).mapM (form.read inner) with
          | error e => simp [henter, hfirst, hrest, bind, Except.bind] at hread
          | ok bs =>
            simp [henter, hfirst, hrest, bind, Except.bind, pure, Except.pure,
              Closing.readItems] at hread
  | _ => cases h

theorem fills_many (levels : Nat) {name : String} {form : Format β} {get : α → List β}
    {set : List β → α → α} (h : form.Lawful levels Format.Any) (hget : ∀ x a, get (set x a) = x)
    (hapart : ∀ other ∈ slots, other.name ≠ name → ∀ x a, other.get (set x a) = other.get a)
    (hblank : get blank = []) :
    (many name form get set).Fills slots blank ⟨name, form.list, get⟩ where
  name := rfl
  optional := rfl
  reads {setting s x} hread := by
    have hform : form.list.read setting s = .ok x := hread
    exact ⟨set x, by simp only [many, hform]; rfl⟩
  sets hread := exists_read hget hapart hread
  written {a v} hv setting hmedium := by
    obtain ⟨-, rfl⟩ : _ ∧ form.list.write (get a) = v := by simpa [many] using hv
    exact h.lists.reads trivial Arrangement.sorted
      (Setting.hasRoom_of_ne_text hmedium (levels + 1))
  absent {a} hv := by
    have hempty : get a = [] := by simpa [many] using hv
    show get a = get blank
    rw [hempty, hblank]
  clears {a} hv setting v hread := by
    have hempty : get a = [] := by simpa [many] using hv
    have hlist : form.list.read setting (Source.ofValue v) = .ok (get a) := hread
    rw [hempty] at hlist
    exact .inr (by rw [items_eq_nil_of_read hlist]; rfl)

end Field

namespace Source

mutual

/-- A whole value is skipped without a fault. -/
theorem skip_ofValue : ∀ v : Value, (ofValue v).skip = .ok ()
  | .null => rfl
  | .bool _ => rfl
  | .number _ => rfl
  | .text _ => rfl
  | .array items => by
    rw [ofValue, skip, skipItems_ofItems items]
    rfl
  | .object members => by
    rw [ofValue, skip, skipMembers_ofMembers members]
    rfl

theorem skipItems_ofItems : ∀ items : List Value, skipItems (ofItems items) = .ok ()
  | [] => rfl
  | v :: rest => by
    rw [ofItems, skipItems, skip_ofValue v]
    exact skipItems_ofItems rest

theorem skipMembers_ofMembers : ∀ members : List (String × Value),
    skipMembers (ofMembers members) = .ok ()
  | [] => rfl
  | (name, v) :: rest => by
    rw [ofMembers, skipMembers, skip_ofValue v]
    exact skipMembers_ofMembers rest

end

end Source

structure Slotted (fields : List (Field α)) (slots : List (Slot α)) (blank : α) : Prop where
  fills : List.Forall₂ (fun f slot => f.Fills slots blank slot) fields slots
  names : (slots.map Slot.name).Nodup

namespace Slotted

variable {fields : List (Field α)} {slots : List (Slot α)} {blank : α} {setting : Setting}

theorem exists_slot (h : Slotted fields slots blank) {f : Field α} (hf : f ∈ fields) :
    ∃ slot ∈ slots, f.Fills slots blank slot :=
  (exists_of_forall₂ h.fills).1 f hf

theorem exists_field (h : Slotted fields slots blank) {slot : Slot α} (hslot : slot ∈ slots) :
    ∃ f ∈ fields, f.Fills slots blank slot :=
  (exists_of_forall₂ h.fills).2 slot hslot

theorem slot_unique (h : Slotted fields slots blank) {slot other : Slot α} (hslot : slot ∈ slots)
    (hother : other ∈ slots) (hname : slot.name = other.name) : slot = other :=
  List.inj_on_of_nodup_map h.names hslot hother hname

/-- A member has the name of no slot and is passed over, or it is read into its slot, or it does
not decode. -/
theorem fill_member (h : Slotted fields slots blank) (setting : Setting) {name : String}
    {seen : List String} (hseen : name ∉ seen) (v : Value) (a : α)
    (rest : List (Leaf String × Source)) :
    (∀ slot ∈ slots, slot.name ≠ name) ∧
      Record.fill fields setting seen a ((.good name, Source.ofValue v) :: rest) =
        Record.fill fields setting seen a rest ∨
    (∃ slot ∈ slots, slot.name = name ∧ ∃ set : α → α,
      slot.form.read setting (Source.ofValue v) = .ok (slot.get (set a)) ∧
      (∀ other ∈ slots, other.name ≠ name → other.get (set a) = other.get a) ∧
      Record.fill fields setting seen a ((.good name, Source.ofValue v) :: rest) =
        Record.fill fields setting (name :: seen) (set a) rest) ∨
    ∃ slot ∈ slots, slot.name = name ∧ (∀ x, slot.form.read setting (Source.ofValue v) ≠ .ok x) ∧
      ∃ e, Record.fill fields setting seen a ((.good name, Source.ofValue v) :: rest) =
        .error e := by
  cases hfind : fields.find? fun f => f.name = name with
  | none =>
    refine .inl ⟨fun slot hslot hname => ?_, ?_⟩
    · obtain ⟨f, hf, hfills⟩ := h.exists_field hslot
      have hother := List.find?_eq_none.mp hfind f hf
      simp [hfills.name, hname] at hother
    · rw [Record.fill]
      simp only [Leaf.read, bind, Except.bind, hfind, Source.skip_ofValue]
  | some f =>
    obtain ⟨slot, hslot, hfills⟩ := h.exists_slot (List.mem_of_find?_eq_some hfind)
    have hname : slot.name = name := by
      rw [← hfills.name]
      simpa using List.find?_some hfind
    cases hread : f.read setting (Source.ofValue v) with
    | error e =>
      refine .inr (.inr ⟨slot, hslot, hname, fun x hx => ?_, e, ?_⟩)
      · obtain ⟨set, hset⟩ := hfills.reads hx
        rw [hread] at hset
        cases hset
      · rw [Record.fill]
        simp only [Leaf.read, bind, Except.bind, hfind, if_neg hseen, hread]
    | ok set =>
      obtain ⟨hown, hapart⟩ := hfills.sets hread a
      refine .inr (.inl ⟨slot, hslot, hname, set, hown, fun other hother hne => ?_, ?_⟩)
      · exact hapart other hother fun heq => hne (heq.trans hname)
      · rw [Record.fill]
        simp only [Leaf.read, bind, Except.bind, hfind, if_neg hseen, hread]

/-- Members of different names change a record slot by slot. -/
theorem takes_of_fill (h : Slotted fields slots blank) {members : List (String × Value)}
    {seen met : List String} {a b : α} (hnames : (members.map Prod.fst).Nodup)
    (hseen : ∀ m ∈ members, m.1 ∉ seen)
    (hfill : Record.fill fields setting seen a (Source.ofMembers members) = .ok (met, b)) :
    Slot.Takes slots setting (members.lookup ·) a b := by
  induction members generalizing seen a with
  | nil =>
    cases hfill
    exact Slot.takes_refl (fun _ _ => rfl) b
  | cons m rest ih =>
    obtain ⟨name, v⟩ := m
    rw [List.map_cons, List.nodup_cons] at hnames
    have hfresh : name ∉ seen := hseen _ List.mem_cons_self
    have hrest := fun m hm => hseen m (List.mem_cons_of_mem _ hm)
    rw [Source.ofMembers] at hfill
    rcases h.fill_member setting hfresh v a (Source.ofMembers rest) with
      ⟨hnone, heq⟩ | ⟨own, hown, hname, set, hread, hapart, heq⟩ | ⟨own, -, -, -, e, heq⟩
    · have htakes := ih hnames.2 hrest (heq ▸ hfill)
      intro slot hslot
      simp only [Catalog.lookup_cons, if_neg (hnone slot hslot)]
      exact htakes slot hslot
    · have hlater : ∀ m ∈ rest, m.1 ∉ name :: seen := by
        intro m hm hmem
        rcases List.mem_cons.mp hmem with hsame | hmem
        · exact hnames.1 (List.mem_map.mpr ⟨m, hm, hsame⟩)
        · exact hrest m hm hmem
      have htakes := ih hnames.2 hlater (heq ▸ hfill)
      intro slot hslot
      by_cases hsame : slot.name = name
      · obtain rfl := h.slot_unique hslot hown (hsame.trans hname.symm)
        have hnone : rest.lookup slot.name = none := by
          rw [hsame]
          exact Catalog.lookup_eq_none hnames.1
        have hgone := (htakes slot hslot).1 hnone
        simp only [Catalog.lookup_cons, if_pos hsame, hgone]
        refine ⟨fun hnever => ?_, fun w hw => ?_⟩
        · cases hnever
        · cases hw
          exact hread
      · simp only [Catalog.lookup_cons, if_neg hsame, ← hapart slot hslot hsame]
        exact htakes slot hslot
    · rw [heq] at hfill
      cases hfill

/-- Members of different names are read if they decode. -/
theorem exists_fill (h : Slotted fields slots blank) {members : List (String × Value)}
    {seen : List String} (a : α) (hnames : (members.map Prod.fst).Nodup)
    (hseen : ∀ m ∈ members, m.1 ∉ seen) (hdecodes : Slot.Decodes slots setting (members.lookup ·)) :
    ∃ met b, Record.fill fields setting seen a (Source.ofMembers members) = .ok (met, b) := by
  induction members generalizing seen a with
  | nil => exact ⟨seen, a, rfl⟩
  | cons m rest ih =>
    obtain ⟨name, v⟩ := m
    rw [List.map_cons, List.nodup_cons] at hnames
    have hfresh : name ∉ seen := hseen _ List.mem_cons_self
    have hrest := fun m hm => hseen m (List.mem_cons_of_mem _ hm)
    have hlater : ∀ m ∈ rest, m.1 ∉ name :: seen := by
      intro m hm hmem
      rcases List.mem_cons.mp hmem with hsame | hmem
      · exact hnames.1 (List.mem_map.mpr ⟨m, hm, hsame⟩)
      · exact hrest m hm hmem
    have hdecodes' : Slot.Decodes slots setting (rest.lookup ·) := by
      intro slot hslot w hw
      refine hdecodes slot hslot w ?_
      have hother : slot.name ≠ name := by
        intro hsame
        simp only [hsame, Catalog.lookup_eq_none hnames.1] at hw
        cases hw
      simp only [Catalog.lookup_cons, if_neg hother]
      exact hw
    rw [Source.ofMembers]
    rcases h.fill_member setting hfresh v a (Source.ofMembers rest) with
      ⟨-, heq⟩ | ⟨own, -, -, set, -, -, heq⟩ | ⟨own, hown, hname, hnot, -⟩
    · rw [heq]
      exact ih a hnames.2 hrest hdecodes'
    · rw [heq]
      exact ih (set a) hnames.2 hlater hdecodes'
    · obtain ⟨x, hx⟩ := hdecodes own hown v (by simp only [Catalog.lookup_cons, if_pos hname])
      exact absurd hx (hnot x)

/-- What decodes can be taken. -/
theorem exists_takes (h : Slotted fields slots blank) {members : List (String × Value)}
    (hnames : (members.map Prod.fst).Nodup)
    (hdecodes : Slot.Decodes slots setting (members.lookup ·)) (a : α) :
    ∃ b, Slot.Takes slots setting (members.lookup ·) a b := by
  obtain ⟨met, b, hfill⟩ := h.exists_fill a hnames (fun _ _ => List.not_mem_nil) hdecodes
  exact ⟨b, h.takes_of_fill hnames (fun _ _ => List.not_mem_nil) hfill⟩

/-- When the slots hold all of a record, members fill it with what the slots take. -/
theorem fill_iff (h : Slotted fields slots blank)
    (hcomplete : ∀ a b, (∀ slot ∈ slots, slot.get a = slot.get b) → a = b)
    {members : List (String × Value)} (hnames : (members.map Prod.fst).Nodup) {a b : α} :
    (∃ met, Record.fill fields setting [] a (Source.ofMembers members) = .ok (met, b)) ↔
      Slot.Takes slots setting (members.lookup ·) a b := by
  constructor
  · rintro ⟨met, hfill⟩
    exact h.takes_of_fill hnames (fun _ _ => List.not_mem_nil) hfill
  · intro htakes
    obtain ⟨met, c, hfill⟩ := h.exists_fill a hnames (fun _ _ => List.not_mem_nil) htakes.decodes
    have htaken := h.takes_of_fill hnames (fun _ _ => List.not_mem_nil) hfill
    obtain rfl : c = b := hcomplete c b fun slot hslot => htaken.get_eq htakes hslot
    exact ⟨met, hfill⟩

/-- No field of these is required. -/
theorem require_eq (h : Slotted fields slots blank) (seen : List String) :
    Record.require fields seen = .ok () := by
  have hnone : (fields.find? fun f => f.required && !seen.contains f.name) = none := by
    rw [List.find?_eq_none]
    intro f hf
    obtain ⟨slot, -, hfills⟩ := h.exists_slot hf
    simp [hfills.optional]
  rw [Record.require, hnone]

theorem names_fields (h : Slotted fields slots blank) :
    fields.map Field.name = slots.map Slot.name := by
  have hsame : List.Forall₂ (· = ·) (fields.map Field.name) (slots.map Slot.name) :=
    List.forall₂_map_left_iff.mpr (List.forall₂_map_right_iff.mpr
      (h.fills.imp fun _ _ hfills => hfills.name))
  rwa [List.forall₂_eq_eq_eq] at hsame

theorem nodup_fields (h : Slotted fields slots blank) : (fields.map Field.name).Nodup := by
  rw [h.names_fields]
  exact h.names

theorem mem_names_of_mem_written (h : Slotted fields slots blank) {a : α} {m : String × Value}
    (hm : m ∈ Field.written fields a) : m.1 ∈ slots.map Slot.name := by
  rw [← h.names_fields]
  exact (Record.Setters.names_written fields a).subset (List.mem_map_of_mem hm)

/-- What a record is written as under the name of a slot. -/
theorem lookup_written (h : Slotted fields slots blank) {f : Field α} (hf : f ∈ fields) (a : α) :
    (Field.written fields a).lookup f.name = f.write a := by
  have hnames := (Record.Setters.names_written fields a).nodup h.nodup_fields
  have hlookup (v : Value) :
      (Field.written fields a).lookup f.name = some v ↔ f.write a = some v := by
    rw [Catalog.lookup_eq_some_iff hnames, Field.written, List.mem_filterMap]
    constructor
    · rintro ⟨g, hg, hwrite⟩
      obtain ⟨w, hw, heq⟩ := Option.map_eq_some_iff.mp hwrite
      obtain ⟨hname, rfl⟩ := Prod.ext_iff.mp heq
      obtain rfl := List.inj_on_of_nodup_map h.nodup_fields hg hf hname
      exact hw
    · intro hv
      exact ⟨f, hf, by rw [hv]; rfl⟩
  exact Option.ext hlookup

variable {found patch : String → Option Value} {a b : α}

/-- Members laid over those of a record are read as changes of the record. -/
theorem takes_over_iff (h : Slotted fields slots blank) (hmedium : setting.medium ≠ .text)
    (hfound : ∀ slot ∈ slots, found slot.name = (patch slot.name).or
      (((Field.written fields a).lookup slot.name).map Value.sorted)) :
    Slot.Takes slots setting found blank b ↔ Slot.Takes slots setting patch a b := by
  refine forall₂_congr fun slot hslot => ?_
  obtain ⟨f, hf, hfills⟩ := h.exists_field hslot
  rw [hfound slot hslot, ← hfills.name, h.lookup_written hf a]
  cases hpatch : patch f.name with
  | some v => simp
  | none =>
    rw [Option.none_or]
    cases hwrite : f.write a with
    | none => simp [hfills.absent hwrite]
    | some v =>
      have hread := hfills.written hwrite hmedium
      simp [hread, eq_comm]

/-- What a slot has taken is written again, or it has cleared the slot. -/
theorem written_or_clears (h : Slotted fields slots blank)
    (htakes : Slot.Takes slots setting patch a b) {slot : Slot α}
    (hslot : slot ∈ slots) {v : Value} (hv : patch slot.name = some v) :
    slot.name ∈ (Field.written fields b).map Prod.fst ∨ v.Clears := by
  obtain ⟨f, hf, hfills⟩ := h.exists_field hslot
  have hread := (htakes slot hslot).2 v hv
  cases hwrite : f.write b with
  | none => exact .inr (hfills.clears hwrite hread)
  | some w =>
    have hmem : (f.name, w) ∈ Field.written fields b :=
      List.mem_filterMap.mpr ⟨f, hf, by rw [hwrite]; rfl⟩
    exact .inl (List.mem_map.mpr ⟨_, hmem, hfills.name⟩)

end Slotted

end Runbook.Json
