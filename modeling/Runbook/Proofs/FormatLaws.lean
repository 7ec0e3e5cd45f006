import Mathlib.Data.List.Forall2
import Mathlib.Data.List.Perm.Basic
import Mathlib.Tactic.Common
import Runbook.Json.Format
import Runbook.Proofs.Catalogs
import Runbook.Proofs.ValueText

/-!
Laws of written forms. A form is lawful if what it writes can be held by a text and reads back,
wherever it stands and in whatever order the members of its objects come. The forms of plain
values are lawful, and a list or a pair of lawful parts is. Whatever has a lawful form is found
again in its text and in its value.
-/
namespace Runbook.Json

/-- Whether a further number of arrays and objects may stand inside each other here. -/
def Setting.HasRoom (setting : Setting) (levels : Nat) : Prop :=
  ∀ depth ∈ Tagged.valueDepth setting, depth + levels ≤ Source.depthLimit

/-- Outside a text there is always room. -/
theorem Setting.hasRoom_of_ne_text {setting : Setting} (h : setting.medium ≠ .text)
    (levels : Nat) : setting.HasRoom levels := by
  intro depth hdepth
  rw [Tagged.valueDepth, if_neg h] at hdepth
  cases hdepth

/-- Where there is room for an array or object, it can be entered. -/
theorem Setting.exists_enter {setting : Setting} {levels : Nat} (h : setting.HasRoom (levels + 1)) :
    ∃ inner : Setting, setting.enter = .ok inner ∧ inner.HasRoom levels := by
  obtain ⟨medium, depth⟩ := setting
  by_cases htext : medium = .text
  · subst htext
    have hroom : depth + (levels + 1) ≤ Source.depthLimit := h depth rfl
    refine ⟨⟨.text, depth + 1⟩, if_neg fun hdeep => ?_, fun d hd => ?_⟩
    · have hfull : Source.depthLimit ≤ depth := hdeep.2
      omega
    · obtain rfl : depth + 1 = d := Option.some.inj hd
      omega
  · exact ⟨⟨medium, depth + 1⟩, if_neg fun hdeep => htext hdeep.1,
      hasRoom_of_ne_text htext levels⟩

/-- A way to bring the members of objects into some order, and to change nothing else. -/
structure Arrangement (arrange : Value → Value) : Prop where
  null : arrange .null = .null
  bool : ∀ b, arrange (.bool b) = .bool b
  number : ∀ n, arrange (.number n) = .number n
  text : ∀ s, arrange (.text s) = .text s
  array : ∀ items, arrange (.array items) = .array (items.map arrange)
  object : ∀ members, (members.map Prod.fst).Nodup → ∃ arranged,
    arrange (.object members) = .object arranged ∧
      arranged.Perm (members.map fun m => (m.1, arrange m.2))

namespace Arrangement

/-- The members may stay as they are. -/
theorem id : Arrangement fun v => v where
  null := rfl
  bool _ := rfl
  number _ := rfl
  text _ := rfl
  array items := by simp
  object members _ := ⟨members, rfl, by simp⟩

theorem insertMember_eq (name : String) (v : Value) (members : List (String × Value)) :
    Value.insertMember name v members = Catalog.insertEntry name v members := by
  induction members with
  | nil => rfl
  | cons m rest ih => rw [Value.insertMember, Catalog.insertEntry, ih]

theorem sortMembers_perm {members : List (String × Value)} (h : (members.map Prod.fst).Nodup) :
    (Value.sortMembers members).Perm members := by
  have hnames : ((members ++ []).map Prod.fst).Nodup := by rwa [List.append_nil]
  have hperm := Catalog.foldl_insertEntry_perm hnames
  simpa only [Value.sortMembers, insertMember_eq, List.append_nil] using hperm

theorem sortedItems_eq (items : List Value) :
    Value.sortedItems items = items.map Value.sorted := by
  induction items with
  | nil => rfl
  | cons v rest ih => rw [Value.sortedItems, ih]; rfl

theorem sortedMembers_eq (members : List (String × Value)) :
    Value.sortedMembers members = members.map fun m => (m.1, m.2.sorted) := by
  induction members with
  | nil => rfl
  | cons m rest ih => rw [Value.sortedMembers, ih]; rfl

/-- The members of all objects may be sorted by their names. -/
theorem sorted : Arrangement Value.sorted where
  null := rfl
  bool _ := rfl
  number _ := rfl
  text _ := rfl
  array items := by rw [Value.sorted, sortedItems_eq]
  object members hnames := by
    refine ⟨_, rfl, ?_⟩
    rw [← sortedMembers_eq]
    apply sortMembers_perm
    rw [sortedMembers_eq, List.map_map]
    exact hnames

variable {arrange : Value → Value}

theorem fits (h : Arrangement arrange) {room : Nat} {v : Value} (hv : v.Fits room) :
    (arrange v).Fits room := by
  induction hv with
  | null => rw [h.null]; exact .null
  | bool b => rw [h.bool]; exact .bool b
  | number hn => rw [h.number]; exact .number hn
  | text s => rw [h.text]; exact .text s
  | array _ ih =>
    rw [h.array]
    refine .array fun v hv => ?_
    obtain ⟨w, hw, rfl⟩ := List.mem_map.mp hv
    exact ih w hw
  | object hnames _ ih =>
    obtain ⟨arranged, heq, hperm⟩ := h.object _ hnames
    rw [heq]
    have hkeys := hperm.map Prod.fst
    rw [List.map_map] at hkeys
    refine .object (hkeys.nodup_iff.mpr hnames) fun m hm => ?_
    obtain ⟨w, hw, rfl⟩ := List.mem_map.mp (hperm.mem_iff.mp hm)
    exact ih w hw

theorem ne_null (h : Arrangement arrange) {room : Nat} {v : Value} (hv : v.Fits room)
    (hne : v ≠ .null) : arrange v ≠ .null := by
  cases hv with
  | null => exact absurd rfl hne
  | bool b => simp [h.bool]
  | number hn => simp [h.number]
  | text s => simp [h.text]
  | array _ => simp [h.array]
  | object hnames _ =>
    obtain ⟨arranged, heq, -⟩ := h.object _ hnames
    simp [heq]

end Arrangement

/-- What is not null is read as a value that is there. -/
theorem Decoder.optional_ofValue {α : Type} (d : Decoder α) (setting : Setting) {v : Value}
    (h : v ≠ .null) : Decoder.optional d setting (Source.ofValue v) =
      some <$> d setting (Source.ofValue v) := by
  cases v with
  | null => exact absurd rfl h
  | _ => rfl

namespace Source

theorem ofItems_eq_map (items : List Value) : ofItems items = items.map ofValue := by
  induction items with
  | nil => rfl
  | cons v rest ih => rw [ofItems, ih]; rfl

theorem ofMembers_eq_map (members : List (String × Value)) :
    ofMembers members = members.map fun m => (.good m.1, ofValue m.2) := by
  induction members with
  | nil => rfl
  | cons m rest ih => rw [ofMembers, ih]; rfl

end Source

/-- An item is found by its key where no two items have the same one. -/
theorem find?_of_nodup {α β : Type} [DecidableEq β] {key : α → β} {items : List α}
    (h : (items.map key).Nodup) {a : α} (ha : a ∈ items) :
    items.find? (fun b => key b = key a) = some a := by
  induction items with
  | nil => simp at ha
  | cons b rest ih =>
    rw [List.map_cons, List.nodup_cons] at h
    rcases List.mem_cons.mp ha with rfl | ha
    · exact List.find?_cons_of_pos (by simp)
    · have hne : key b ≠ key a := fun heq => h.1 (heq ▸ List.mem_map_of_mem ha)
      rw [List.find?_cons_of_neg (by simpa using hne)]
      exact ih h.2 ha

/-- A value is looked up under its name. -/
theorem lookup_of_mem {α : Type} {name : α → String} {all : List α} (h : (all.map name).Nodup)
    {a : α} (ha : a ∈ all) : Decoder.lookup (all.map fun b => (name b, b)) (name a) = .ok a := by
  have hfind : (all.map fun b => (name b, b)).find? (fun n => n.1 = name a) =
      some (name a, a) := by
    rw [List.find?_map]
    exact congrArg (Option.map fun b => (name b, b)) (find?_of_nodup h ha)
  rw [Decoder.lookup, hfind]

namespace Format

/-- A form whose valid values are written as values that a text can hold, at most so many levels
deep, and are read back from them in every arrangement wherever there is room. -/
structure Lawful {α : Type} (f : Format α) (levels : Nat) (valid : α → Prop) : Prop where
  fits : ∀ {a}, valid a → (f.write a).Fits levels
  not_null : ∀ a, f.write a ≠ .null
  reads : ∀ {a}, valid a → ∀ {arrange}, Arrangement arrange → ∀ {setting : Setting},
    setting.HasRoom levels → f.read setting (Source.ofValue (arrange (f.write a))) = .ok a

abbrev Any {α : Type} (_ : α) : Prop := True

variable {α β : Type} {levels : Nat}

theorem Lawful.imp {f : Format α} {valid valid' : α → Prop} (h : f.Lawful levels valid)
    (himp : ∀ a, valid' a → valid a) : f.Lawful levels valid' where
  fits ha := h.fits (himp _ ha)
  not_null := h.not_null
  reads ha := h.reads (himp _ ha)

theorem lawful_text : text.Lawful levels Any where
  fits _ := .text _
  not_null _ := by simp [text]
  reads _ _ harrange _ _ := by
    rw [text, harrange.text]
    rfl

theorem lawful_bool : bool.Lawful levels Any where
  fits _ := .bool _
  not_null _ := by simp [bool]
  reads _ _ harrange _ _ := by
    rw [bool, harrange.bool]
    rfl

theorem fits_ofNat {n : Nat} (hn : n < UInt64.size) : (Value.ofNat n).Fits levels :=
  .number ⟨by omega, by omega⟩

/-- Whole numbers within the bounds of a reader. -/
theorem natural_ofNat {arrange : Value → Value} (harrange : Arrangement arrange) (expected : String)
    {n largest : Nat} (hn : n ≤ largest) (setting : Setting) :
    Decoder.natural expected largest setting (Source.ofValue (arrange (Value.ofNat n))) =
      .ok n := by
  rw [Value.ofNat, harrange.number]
  show (if 0 ≤ (n : Int) ∧ (n : Int) ≤ largest then Except.ok (n : Int).toNat
    else .error (Fault.wrongValue (.whole n) expected)) = .ok n
  rw [if_pos (by omega), Int.toNat_natCast]

/-- Words of some size, written as whole numbers. -/
theorem lawful_word {toNat : β → Nat} {ofNat : Nat → β} {expected : String} {largest : Nat}
    (hlargest : largest < UInt64.size) (hle : ∀ b, toNat b ≤ largest)
    (hof : ∀ b, ofNat (toNat b) = b) :
    Lawful ⟨fun b => .ofNat (toNat b), fun setting s => do
      return ofNat (← Decoder.natural expected largest setting s)⟩ levels Any where
  fits {b} _ := fits_ofNat (Nat.lt_of_le_of_lt (hle b) hlargest)
  not_null _ := by simp [Value.ofNat]
  reads {b} _ _ harrange setting _ := by
    simp only [natural_ofNat harrange expected (hle b) setting]
    exact congrArg Except.ok (hof b)

theorem lawful_uint32 : uint32.Lawful levels Any :=
  lawful_word (by decide) (fun n => Nat.le_sub_one_of_lt n.toNat_lt) fun _ => UInt32.ofNat_toNat

theorem lawful_uint16 : uint16.Lawful levels Any :=
  lawful_word (by decide) (fun n => Nat.le_sub_one_of_lt n.toNat_lt) fun _ => UInt16.ofNat_toNat

theorem lawful_count : count.Lawful levels fun n => n < UInt64.size where
  fits hn := fits_ofNat hn
  not_null _ := by simp [count, Value.ofNat]
  reads hn _ harrange setting _ :=
    natural_ofNat harrange "usize" (Nat.le_sub_one_of_lt hn) setting

theorem lawful_binary64 : binary64.Lawful levels Any where
  fits _ := .number trivial
  not_null _ := by simp [binary64]
  reads _ _ harrange _ _ := by
    rw [binary64, harrange.number]
    rfl

/-- Names that are told apart, one for each value. -/
theorem lawful_names {all : List α} {name : α → String} (hall : ∀ a, a ∈ all)
    (hnames : (all.map name).Nodup) : (names all name).Lawful levels Any where
  fits _ := .text _
  not_null _ := by simp [names]
  reads {a} _ _ harrange setting _ := by
    have hlookup := lookup_of_mem hnames (hall a)
    rw [names, harrange.text]
    obtain ⟨medium, depth⟩ := setting
    cases medium <;> exact hlookup

theorem mapM_ok {σ : Type} {read : σ → Except Fault α} {sources : List σ} {items : List α}
    (h : List.Forall₂ (fun s a => read s = .ok a) sources items) :
    sources.mapM read = .ok items := by
  induction h with
  | nil => rfl
  | cons hread _ ih =>
    rw [List.mapM_cons, hread, ih]
    rfl

/-- Lists of values, one level deeper. -/
theorem Lawful.list {f : Format α} {valid : α → Prop} (h : f.Lawful levels valid) :
    f.list.Lawful (levels + 1) fun items => ∀ a ∈ items, valid a where
  fits hitems := by
    refine .array fun v hv => ?_
    obtain ⟨a, ha, rfl⟩ := List.mem_map.mp hv
    exact h.fits (hitems a ha)
  not_null _ := by simp [Format.list]
  reads {items} hitems arrange harrange setting hroom := by
    obtain ⟨inner, henter, hinner⟩ := setting.exists_enter hroom
    have hread : ((items.map f.write).map arrange |>.map Source.ofValue).mapM (f.read inner) =
        .ok items := by
      rw [List.map_map, List.map_map]
      exact mapM_ok (List.forall₂_map_left_iff.mpr (List.forall₂_same.mpr fun a ha =>
        h.reads (hitems a ha) harrange hinner))
    rw [Format.list, harrange.array, Source.ofValue, Source.ofItems_eq_map]
    simp only [Decoder.list, henter]
    simp only [bind, Except.bind, hread]
    rfl

theorem Lawful.lists {f : Format α} (h : f.Lawful levels Any) : f.list.Lawful (levels + 1) Any :=
  h.list.imp fun _ _ _ _ => trivial

/-- Pairs of values, one level deeper. -/
theorem Lawful.pair {f : Format α} {g : Format β} {valid : α → Prop}
    {valid' : β → Prop} (hf : f.Lawful levels valid) (hg : g.Lawful levels valid') :
    (f.pair g).Lawful (levels + 1) fun p => valid p.1 ∧ valid' p.2 where
  fits hp := by
    refine .array fun v hv => ?_
    rcases List.mem_pair.mp hv with rfl | rfl
    · exact hf.fits hp.1
    · exact hg.fits hp.2
  not_null _ := by simp [Format.pair]
  reads {p} hp arrange harrange setting hroom := by
    obtain ⟨inner, henter, hinner⟩ := setting.exists_enter hroom
    have hfirst := hf.reads hp.1 harrange hinner
    have hsecond := hg.reads hp.2 harrange hinner
    rw [Format.pair, harrange.array]
    show Decoder.pair f.read g.read setting (.array [Source.ofValue (arrange (f.write p.1)),
      Source.ofValue (arrange (g.write p.2))] .closed) = _
    have hend : ∀ medium, Decoder.endOfItems medium 2 [Source.ofValue (arrange (f.write p.1)),
        Source.ofValue (arrange (g.write p.2))] .closed = .ok () := by
      intro medium
      cases medium <;> rfl
    simp only [Decoder.pair, henter, bind, Except.bind, Decoder.itemAt, List.getElem?_cons_zero,
      List.getElem?_cons_succ, hfirst, hsecond, hend]
    rfl

/-- The same form for another type. -/
theorem Lawful.map {f : Format α} {valid : α → Prop} (h : f.Lawful levels valid)
    {into : α → β} {of : β → α} (hinto : ∀ b, into (of b) = b) :
    (f.map into of).Lawful levels fun b => valid (of b) where
  fits hb := h.fits hb
  not_null b := h.not_null (of b)
  reads {b} hb _ harrange setting hroom := by
    show into <$> f.read setting (Source.ofValue _) = _
    rw [Format.map, h.reads hb harrange hroom]
    exact congrArg Except.ok (hinto b)

variable {f : Format α} {valid : α → Prop}

/-- A text of a valid value is read as the value. -/
theorem Lawful.ofText_eq (h : f.Lawful levels valid) (hlevels : levels ≤ Source.depthLimit)
    {a : α} (ha : valid a) {s : String}
    (hs : Document.ofText s = ⟨Source.ofValue (f.write a), false⟩) : f.ofText s = .ok a := by
  have hroom : Setting.HasRoom ⟨.text, 0⟩ levels := by
    intro depth hdepth
    obtain rfl : 0 = depth := Option.some.inj hdepth
    omega
  have hread := h.reads ha Arrangement.id hroom
  simp only [Format.ofText, Decoder.ofText, hs, bind, Except.bind, hread]
  rfl

theorem Lawful.ofText_compact (h : f.Lawful levels valid) (hlevels : levels ≤ Source.depthLimit)
    {a : α} (ha : valid a) : f.ofText (f.compact a) = .ok a :=
  h.ofText_eq hlevels ha (Document.ofText_compact (h.fits ha))

theorem Lawful.ofText_pretty (h : f.Lawful levels valid) (hlevels : levels ≤ Source.depthLimit)
    {a : α} (ha : valid a) : f.ofText (f.pretty a) = .ok a :=
  h.ofText_eq hlevels ha (Document.ofText_pretty (h.fits ha))

/-- A value is read back once its members are sorted. -/
theorem Lawful.ofValue_write (h : f.Lawful levels valid) {a : α} (ha : valid a) :
    f.ofValue (f.write a) = .ok a :=
  h.reads ha Arrangement.sorted (Setting.hasRoom_of_ne_text (by decide) levels)

/-- Every valid value is found again in what is saved of it: in its text on one line, in its text
over several lines and in its value. So saving what was loaded gives the same text again, and no
two values are saved alike. -/
structure Faithful (f : Format α) (valid : α → Prop) : Prop where
  ofText_compact : ∀ a, valid a → f.ofText (f.compact a) = .ok a
  ofText_pretty : ∀ a, valid a → f.ofText (f.pretty a) = .ok a
  ofValue_write : ∀ a, valid a → f.ofValue (f.write a) = .ok a
  resaved : ∀ a, valid a →
    f.compact <$> f.ofText (f.compact a) = .ok (f.compact a) ∧
      f.pretty <$> f.ofText (f.pretty a) = .ok (f.pretty a)
  injective : ∀ a b, valid a → valid b →
    f.compact a = f.compact b ∨ f.pretty a = f.pretty b ∨ f.write a = f.write b → a = b

theorem Lawful.faithful (h : f.Lawful levels valid) (hlevels : levels ≤ Source.depthLimit) :
    f.Faithful valid where
  ofText_compact _ ha := h.ofText_compact hlevels ha
  ofText_pretty _ ha := h.ofText_pretty hlevels ha
  ofValue_write _ ha := h.ofValue_write ha
  resaved a ha := by
    rw [h.ofText_compact hlevels ha, h.ofText_pretty hlevels ha]
    exact ⟨rfl, rfl⟩
  injective a b ha hb heq := by
    rcases heq with heq | heq | heq
    · have hread := h.ofText_compact hlevels ha
      rw [heq, h.ofText_compact hlevels hb] at hread
      exact (Except.ok.inj hread).symm
    · have hread := h.ofText_pretty hlevels ha
      rw [heq, h.ofText_pretty hlevels hb] at hread
      exact (Except.ok.inj hread).symm
    · have hread := h.ofValue_write ha
      rw [heq, h.ofValue_write hb] at hread
      exact (Except.ok.inj hread).symm

end Format

end Runbook.Json
