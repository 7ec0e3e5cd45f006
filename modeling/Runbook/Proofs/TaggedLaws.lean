import Mathlib.Tactic.Common
import Runbook.Proofs.RecordLaws

/-!
Laws of tagged types. The member with the tag is found wherever it stands among the others, so a
value is read back by the variant that wrote it, provided that variants have names of their own
and no field of one has the name of the tag.
-/
namespace Runbook.Json

variable {α β : Type} {reserved : List String} {levels : Nat} {valid : α → Prop}

/-- A variant whose fields have none of the reserved names and which reads its values back from
their members in any order. -/
structure Variant.Lawful (v : Variant α) (reserved : List String) (levels : Nat)
    (valid : α → Prop) : Prop where
  nodup : ∀ {a ms}, v.members a = some ms → (ms.map Prod.fst).Nodup
  apart : ∀ {a ms}, v.members a = some ms → ∀ m ∈ ms, m.1 ∉ reserved
  fits : ∀ {a ms}, valid a → v.members a = some ms → ∀ m ∈ ms, m.2.Fits levels
  reads : ∀ {a ms}, valid a → v.members a = some ms → ∀ {arrange}, Arrangement arrange →
    ∀ {members : List (String × Value)}, members.Perm (ms.map fun m => (m.1, arrange m.2)) →
      v.read Tagged.buffer (Source.ofValue (.object members)) = .ok a

namespace Variant

theorem lawful_bare {name : String} {a : α} {is : α → Bool} (his : ∀ b, is b = true → b = a) :
    (bare name a is).Lawful reserved levels valid := by
  have hmembers {b : α} {ms : List (String × Value)}
      (h : (bare name a is).members b = some ms) : b = a ∧ ms = [] := by
    obtain ⟨hb, hms⟩ : is b = true ∧ [] = ms := by simpa [bare] using h
    exact ⟨his b hb, hms.symm⟩
  exact
    { nodup := fun h => by simp [(hmembers h).2]
      apart := fun h => by simp [(hmembers h).2]
      fits := fun _ h => by simp [(hmembers h).2]
      reads := fun _ h _ _ _ _ => by rw [(hmembers h).1]; rfl }

theorem lawful_record_of {name : String} {r : Record β} {wrap : β → α} {unwrap : α → Option β}
    {valid' : β → Prop} (h : r.Lawful levels valid')
    (hreserved : ∀ name ∈ r.fields.map Field.name, name ∉ reserved)
    (hwrap : ∀ a b, unwrap a = some b → wrap b = a)
    (hvalid : ∀ a b, unwrap a = some b → valid a → valid' b) :
    (record name r wrap unwrap).Lawful reserved levels valid where
  nodup hms := by
    obtain ⟨b, -, rfl⟩ := Option.map_eq_some_iff.mp hms
    exact h.names_members b
  apart hms m hm := by
    obtain ⟨b, -, rfl⟩ := Option.map_eq_some_iff.mp hms
    exact hreserved m.1 ((Record.Setters.names_written r.fields b).subset
      (List.mem_map_of_mem hm))
  fits ha hms m hm := by
    obtain ⟨b, hb, rfl⟩ := Option.map_eq_some_iff.mp hms
    exact h.fits_members (hvalid _ b hb ha) hm
  reads {a ms} ha hms arrange harrange members hperm := by
    obtain ⟨b, hb, rfl⟩ := Option.map_eq_some_iff.mp hms
    have hroom := Setting.hasRoom_of_ne_text (by decide : Tagged.buffer.medium ≠ .text) (levels + 1)
    have hread := h.read_members (hvalid a b hb ha) harrange hroom hperm
    simp only [record, hread]
    exact congrArg Except.ok (hwrap a b hb)

theorem lawful_record {name : String} {r : Record β} {wrap : β → α} {unwrap : α → Option β}
    (h : r.Lawful levels Format.Any)
    (hreserved : ∀ name ∈ r.fields.map Field.name, name ∉ reserved)
    (hwrap : ∀ a b, unwrap a = some b → wrap b = a) :
    (record name r wrap unwrap).Lawful reserved levels valid :=
  lawful_record_of h hreserved hwrap fun _ _ _ _ => trivial

end Variant

structure Tagged.Lawful (t : Tagged α) (reserved : List String) (levels : Nat)
    (valid : α → Prop) : Prop where
  tag : t.tag ∈ reserved
  names : (t.variants.map Variant.name).Nodup
  variants : ∀ v ∈ t.variants, v.Lawful reserved levels valid
  total : ∀ a, t.variants.any fun v => (v.members a).isSome

namespace Tagged

variable {t : Tagged α} {setting : Setting}

theorem readTag_name (hnames : (t.variants.map Variant.name).Nodup) {v : Variant α}
    (hv : v ∈ t.variants) (setting : Setting) :
    t.readTag setting (.text (.good v.name)) = .ok v :=
  lookup_of_mem hnames hv

/-- Members beside the tag are buffered as they stand. -/
theorem split_others {members : List (String × Value)} (htag : ∀ m ∈ members, m.1 ≠ t.tag)
    (hvalues : ∀ m ∈ members, (Source.ofValue m.2).value (valueDepth setting) = .ok m.2)
    (found : Option (Variant α)) :
    t.split setting found (Source.ofMembers members) = .ok (found, members) := by
  induction members with
  | nil => rfl
  | cons m rest ih =>
    have hvalue := hvalues m List.mem_cons_self
    have hrest := ih (fun m hm => htag m (List.mem_cons_of_mem _ hm))
      fun m hm => hvalues m (List.mem_cons_of_mem _ hm)
    rw [Source.ofMembers, split]
    simp only [Leaf.read, bind, Except.bind, if_neg (htag m List.mem_cons_self), hvalue, hrest]
    rfl

/-- The tag is found wherever it stands. -/
theorem split_tag (hnames : (t.variants.map Variant.name).Nodup) {v : Variant α}
    (hv : v ∈ t.variants) {before after : List (String × Value)}
    (htag : ∀ m ∈ before ++ after, m.1 ≠ t.tag)
    (hvalues : ∀ m ∈ before ++ after,
      (Source.ofValue m.2).value (valueDepth setting) = .ok m.2) :
    t.split setting none (Source.ofMembers (before ++ (t.tag, .text v.name) :: after)) =
      .ok (some v, before ++ after) := by
  induction before with
  | nil =>
    have hrest := split_others htag hvalues (some v)
    rw [List.nil_append, Source.ofMembers, Source.ofValue, split]
    simp only [Leaf.read, bind, Except.bind, if_true, readTag_name hnames hv]
    exact hrest
  | cons m rest ih =>
    have hvalue := hvalues m List.mem_cons_self
    have hrest := ih (fun m hm => htag m (List.mem_cons_of_mem _ hm))
      fun m hm => hvalues m (List.mem_cons_of_mem _ hm)
    rw [List.cons_append, Source.ofMembers, split]
    simp only [Leaf.read, bind, Except.bind, if_neg (htag m List.mem_cons_self), hvalue, hrest]
    rfl

namespace Lawful

theorem exists_variant (h : t.Lawful reserved levels valid) (a : α) :
    ∃ v ∈ t.variants, ∃ ms, v.members a = some ms ∧
      t.members a = (t.tag, .text v.name) :: ms := by
  obtain ⟨u, hu, hsome⟩ := List.any_eq_true.mp (h.total a)
  obtain ⟨own, hown⟩ : ∃ own, (t.variants.findSome? fun v =>
      (v.members a).map fun ms => (t.tag, Value.text v.name) :: ms) = some own := by
    rw [← Option.isSome_iff_exists, List.findSome?_isSome_iff]
    exact ⟨u, hu, by simpa using hsome⟩
  obtain ⟨v, hv, hfound⟩ := List.exists_of_findSome?_eq_some hown
  obtain ⟨ms, hms, rfl⟩ := Option.map_eq_some_iff.mp hfound
  exact ⟨v, hv, ms, hms, by rw [members, hown]; rfl⟩

theorem names_members (h : t.Lawful reserved levels valid) (a : α) :
    ((t.members a).map Prod.fst).Nodup := by
  obtain ⟨v, hv, ms, hms, heq⟩ := h.exists_variant a
  rw [heq, List.map_cons, List.nodup_cons]
  refine ⟨fun hmem => ?_, (h.variants v hv).nodup hms⟩
  obtain ⟨m, hm, hname⟩ := List.mem_map.mp hmem
  exact (h.variants v hv).apart hms m hm (hname ▸ h.tag)

theorem fits_members (h : t.Lawful reserved levels valid) {a : α} (ha : valid a)
    {m : String × Value} (hm : m ∈ t.members a) : m.2.Fits levels := by
  obtain ⟨v, hv, ms, hms, heq⟩ := h.exists_variant a
  rw [heq] at hm
  rcases List.mem_cons.mp hm with rfl | hm
  · exact .text _
  · exact (h.variants v hv).fits ha hms m hm

/-- No reserved name but the tag is used. -/
theorem tag_of_reserved (h : t.Lawful reserved levels valid) {a : α} {m : String × Value}
    (hm : m ∈ t.members a) (hreserved : m.1 ∈ reserved) : m.1 = t.tag := by
  obtain ⟨v, hv, ms, hms, heq⟩ := h.exists_variant a
  rw [heq] at hm
  rcases List.mem_cons.mp hm with rfl | hm
  · rfl
  · exact absurd hreserved ((h.variants v hv).apart hms m hm)

/-- A value is read from its members in any order. -/
theorem read_members (h : t.Lawful reserved levels valid) {a : α} (ha : valid a)
    {arrange : Value → Value} (harrange : Arrangement arrange) (hroom : setting.HasRoom levels)
    {members : List (String × Value)}
    (hperm : members.Perm ((t.members a).map fun m => (m.1, arrange m.2))) :
    t.readMembers setting (Source.ofMembers members) .closed = .ok a := by
  obtain ⟨v, hv, ms, hms, heq⟩ := h.exists_variant a
  have hlawful := h.variants v hv
  rw [heq, List.map_cons, harrange.text] at hperm
  obtain ⟨before, after, rfl⟩ :=
    List.append_of_mem (hperm.mem_iff.mpr List.mem_cons_self)
  have hothers : (before ++ after).Perm (ms.map fun m => (m.1, arrange m.2)) :=
    (List.perm_middle.symm.trans hperm).cons_inv
  have hown : ∀ m ∈ before ++ after, ∃ w ∈ ms, m = (w.1, arrange w.2) := fun m hm => by
    obtain ⟨w, hw, rfl⟩ := List.mem_map.mp (hothers.mem_iff.mp hm)
    exact ⟨w, hw, rfl⟩
  have htag : ∀ m ∈ before ++ after, m.1 ≠ t.tag := by
    intro m hm hname
    obtain ⟨w, hw, rfl⟩ := hown m hm
    exact hlawful.apart hms w hw (hname ▸ h.tag)
  have hvalues : ∀ m ∈ before ++ after,
      (Source.ofValue m.2).value (valueDepth setting) = .ok m.2 := by
    intro m hm
    obtain ⟨w, hw, rfl⟩ := hown m hm
    exact Source.value_ofValue (harrange.fits (hlawful.fits ha hms w hw)) hroom
  have hread := hlawful.reads ha hms harrange hothers
  rw [readMembers, split_tag h.names hv htag hvalues]
  simp only [bind, Except.bind, Closing.readMembers, hread]

theorem format (h : t.Lawful reserved levels valid) : t.format.Lawful (levels + 1) valid where
  fits {a} ha := .object (h.names_members a) fun _ hm => h.fits_members ha hm
  not_null _ := by simp [Tagged.format]
  reads {a} ha arrange harrange setting hroom := by
    obtain ⟨arranged, heq, hperm⟩ := harrange.object _ (h.names_members a)
    obtain ⟨inner, henter, hinner⟩ := setting.exists_enter hroom
    show t.read setting (Source.ofValue (arrange (.object (t.members a)))) = .ok a
    rw [heq, Source.ofValue, read]
    simp only [henter, bind, Except.bind]
    exact h.read_members ha harrange hinner hperm

end Lawful

end Tagged

end Runbook.Json
