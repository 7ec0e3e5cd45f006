import Mathlib.Data.List.Forall2
import Mathlib.Data.List.Perm.Basic
import Mathlib.Tactic.Common
import Runbook.Proofs.FormatLaws

/-!
Laws of records. What a field puts into a record when it is read is a setter, and a field that is
left out has its blank value. The setters of a record commute and together make up the whole, so
the members may come in any order and some may be missing.
-/
namespace Runbook.Json

variable {α β : Type}

/-- In two lists that agree item by item each item has one that it agrees with. -/
theorem exists_of_forall₂ {σ τ : Type _} {R : σ → τ → Prop} {as : List σ} {bs : List τ}
    (h : List.Forall₂ R as bs) : (∀ a ∈ as, ∃ b ∈ bs, R a b) ∧ ∀ b ∈ bs, ∃ a ∈ as, R a b := by
  induction h with
  | nil => simp
  | cons hfirst _ ih =>
    constructor
    · refine List.forall_mem_cons.mpr ⟨⟨_, List.mem_cons_self, hfirst⟩, fun a ha => ?_⟩
      obtain ⟨b, hb, hR⟩ := ih.1 a ha
      exact ⟨b, List.mem_cons_of_mem _ hb, hR⟩
    · refine List.forall_mem_cons.mpr ⟨⟨_, List.mem_cons_self, hfirst⟩, fun b hb => ?_⟩
      obtain ⟨a, ha, hR⟩ := ih.2 b hb
      exact ⟨a, List.mem_cons_of_mem _ ha, hR⟩

def Field.written (fields : List (Field α)) (a : α) : List (String × Value) :=
  fields.filterMap fun f => (f.write a).map fun v => (f.name, v)

/-- A field of a lawful form. Read back from `a` into `b` it gives `put a b`, and one that is left
out has its blank value. -/
structure Field.Lawful (f : Field α) (blank : α) (levels : Nat) (valid : α → Prop)
    (put : α → α → α) : Prop where
  fits : ∀ {a v}, valid a → f.write a = some v → v.Fits levels
  reads : ∀ {a v}, valid a → f.write a = some v → ∀ {arrange}, Arrangement arrange →
    ∀ {setting : Setting}, setting.HasRoom levels →
      f.read setting (Source.ofValue (arrange v)) = .ok (put a)
  absent : ∀ {a}, f.write a = none → f.required = false ∧ put a blank = blank

namespace Field

variable {levels : Nat} {blank : α} {valid : α → Prop} {valid' : β → Prop}

theorem lawful_plain_of {required : Bool} {name : String} {f : Format β} {get : α → β}
    {set : β → α → α} (h : f.Lawful levels valid') (hvalid : ∀ a, valid a → valid' (get a)) :
    (plain required name f get set).Lawful blank levels valid fun a => set (get a) where
  fits {a v} ha hv := by
    obtain rfl : f.write (get a) = v := by simpa [plain] using hv
    exact h.fits (hvalid a ha)
  reads {a v} ha hv _ harrange _ hroom := by
    obtain rfl : f.write (get a) = v := by simpa [plain] using hv
    simp only [plain, h.reads (hvalid a ha) harrange hroom]
    rfl
  absent hv := by simp [plain] at hv

theorem lawful_plain {required : Bool} {name : String} {f : Format β} {get : α → β}
    {set : β → α → α} (h : f.Lawful levels Format.Any) :
    (plain required name f get set).Lawful blank levels valid fun a => set (get a) :=
  lawful_plain_of h fun _ _ => trivial

theorem lawful_option {name : String} {f : Format β} {get : α → Option β}
    {set : Option β → α → α} (h : f.Lawful levels Format.Any)
    (hblank : set none blank = blank) :
    (option name f get set).Lawful blank levels valid fun a => set (get a) where
  fits {a v} ha hv := by
    obtain ⟨b, -, rfl⟩ := Option.map_eq_some_iff.mp hv
    exact h.fits trivial
  reads {a v} ha hv arrange harrange setting hroom := by
    obtain ⟨b, hb, rfl⟩ := Option.map_eq_some_iff.mp hv
    have hne := harrange.ne_null (h.fits trivial) (h.not_null b)
    simp only [option, Format.optional, Decoder.optional_ofValue f.read setting hne,
      h.reads trivial harrange hroom, hb]
    rfl
  absent {a} hv := by
    have hnone : get a = none := Option.map_eq_none_iff.mp hv
    exact ⟨rfl, by rw [hnone, hblank]⟩

theorem lawful_many {name : String} {f : Format β} {get : α → List β} {set : List β → α → α}
    (h : f.Lawful levels Format.Any) (hblank : set [] blank = blank) :
    (many name f get set).Lawful blank (levels + 1) valid fun a => set (get a) where
  fits {a v} ha hv := by
    obtain ⟨-, rfl⟩ : _ ∧ f.list.write (get a) = v := by simpa [many] using hv
    exact h.lists.fits trivial
  reads {a v} ha hv _ harrange _ hroom := by
    obtain ⟨-, rfl⟩ : _ ∧ f.list.write (get a) = v := by simpa [many] using hv
    simp only [many, h.lists.reads trivial harrange hroom]
    rfl
  absent {a} hv := by
    have hempty : get a = [] := by simpa [many] using hv
    exact ⟨rfl, by rw [hempty, hblank]⟩

end Field

namespace Record

variable {fields : List (Field α)} {puts : List (α → α → α)} {levels : Nat} {blank : α}
  {valid : α → Prop} {arrange : Value → Value} {setting : Setting}

def Fills (fields : List (Field α)) (setting : Setting) (m : String × Value) (set : α → α) : Prop :=
  ∃ f ∈ fields, f.name = m.1 ∧ f.read setting (Source.ofValue m.2) = .ok set

/-- Members of different names fill in their fields one after another. -/
theorem fill_members {members : List (String × Value)} {sets : List (α → α)}
    (h : List.Forall₂ (Fills fields setting) members sets)
    (hfields : (fields.map Field.name).Nodup) {seen : List String}
    (hnames : (members.map Prod.fst).Nodup) (hseen : ∀ m ∈ members, m.1 ∉ seen) (a : α) :
    fill fields setting seen a (Source.ofMembers members) =
      .ok ((members.map Prod.fst).reverse ++ seen, sets.foldl (fun a set => set a) a) := by
  induction h generalizing seen a with
  | nil => rfl
  | @cons m set rest sets hm _ ih =>
    obtain ⟨name, v⟩ := m
    obtain ⟨f, hf, rfl, hread⟩ := hm
    rw [List.map_cons, List.nodup_cons] at hnames
    have hlater : ∀ m ∈ rest, m.1 ∉ f.name :: seen := by
      intro m hm hmem
      rcases List.mem_cons.mp hmem with heq | hmem
      · exact hnames.1 (List.mem_map.mpr ⟨m, hm, heq⟩)
      · exact hseen m (List.mem_cons_of_mem _ hm) hmem
    have hrest := ih hnames.2 hlater (set a)
    have hfresh : f.name ∉ seen := hseen _ List.mem_cons_self
    have hfind : fields.find? (fun g => g.name = f.name) = some f := find?_of_nodup hfields hf
    simp only at hread
    rw [Source.ofMembers, fill]
    simp only [Leaf.read, bind, Except.bind, hfind, if_neg hfresh, hread, hrest]
    simp

theorem written_cons (f : Field α) (rest : List (Field α)) (a : α) :
    Field.written (f :: rest) a =
      ((f.write a).map fun v => (f.name, v)).toList ++ Field.written rest a := by
  cases hv : f.write a <;> simp [Field.written, hv]

/-- The fields of a record written in their order. Reading them back does to a record without the
missing fields what all the setters do. -/
theorem exists_sets (h : List.Forall₂ (fun f put => f.Lawful blank levels valid put) fields puts)
    {a : α} (hcommute : ∀ put ∈ puts, ∀ put' ∈ puts, ∀ b, put a (put' a b) = put' a (put a b))
    (ha : valid a) (harrange : Arrangement arrange) (hroom : setting.HasRoom levels) :
    ∃ sets : List (α → α),
      List.Forall₂ (Fills fields setting)
        ((Field.written fields a).map fun m => (m.1, arrange m.2)) sets ∧
      (∀ set ∈ sets, ∃ put ∈ puts, put a = set) ∧
      ∀ b, (∀ put ∈ puts, put a blank = blank → put a b = b) →
        sets.foldl (fun b set => set b) b = puts.foldl (fun b put => put a b) b := by
  induction h with
  | nil => exact ⟨[], .nil, by simp, fun b _ => rfl⟩
  | @cons f put rest puts hf _ ih =>
    obtain ⟨sets, hfills, hsets, hfold⟩ := ih fun p hp p' hp' =>
      hcommute p (List.mem_cons_of_mem _ hp) p' (List.mem_cons_of_mem _ hp')
    have hmore : ∀ m set, Fills rest setting m set → Fills (f :: rest) setting m set :=
      fun m set ⟨g, hg, hread⟩ => ⟨g, List.mem_cons_of_mem _ hg, hread⟩
    have hlater : ∀ set ∈ sets, ∃ p ∈ put :: puts, p a = set := fun set hset =>
      let ⟨p, hp, heq⟩ := hsets set hset
      ⟨p, List.mem_cons_of_mem _ hp, heq⟩
    rw [written_cons]
    cases hv : f.write a with
    | none =>
      refine ⟨sets, hfills.imp hmore, hlater, fun b hb => ?_⟩
      have hput : put a b = b := hb put List.mem_cons_self (hf.absent hv).2
      rw [List.foldl_cons, hput]
      exact hfold b fun p hp => hb p (List.mem_cons_of_mem _ hp)
    | some v =>
      refine ⟨put a :: sets, .cons ⟨f, List.mem_cons_self, rfl, hf.reads ha hv harrange hroom⟩
        (hfills.imp hmore), ?_, fun b hb => ?_⟩
      · intro set hset
        rcases List.mem_cons.mp hset with rfl | hset
        · exact ⟨put, List.mem_cons_self, rfl⟩
        · exact hlater set hset
      · rw [List.foldl_cons, List.foldl_cons]
        -- a missing field is not filled in by this setter, for the two commute
        refine hfold (put a b) fun p hp hblank => ?_
        rw [hcommute p (List.mem_cons_of_mem _ hp) put List.mem_cons_self,
          hb p (List.mem_cons_of_mem _ hp) hblank]

structure Setters (fields : List (Field α)) (blank : α) (levels : Nat) (valid : α → Prop)
    (puts : List (α → α → α)) : Prop where
  lawful : List.Forall₂ (fun f put => f.Lawful blank levels valid put) fields puts
  names : (fields.map Field.name).Nodup
  commute : ∀ a, ∀ put ∈ puts, ∀ put' ∈ puts, ∀ b, put a (put' a b) = put' a (put a b)

namespace Setters

theorem exists_lawful
    (h : List.Forall₂ (fun f put => f.Lawful blank levels valid put) fields puts) {f : Field α}
    (hf : f ∈ fields) : ∃ put, f.Lawful blank levels valid put :=
  let ⟨put, _, hput⟩ := (exists_of_forall₂ h).1 f hf
  ⟨put, hput⟩

theorem names_written (fields : List (Field α)) (a : α) :
    ((Field.written fields a).map Prod.fst).Sublist (fields.map Field.name) := by
  induction fields with
  | nil => exact .slnil
  | cons f rest ih =>
    rw [written_cons]
    cases f.write a with
    | none => exact ih.cons _
    | some v => exact ih.cons_cons _

/-- Reading the members, in whatever order they come, does what all the setters do. -/
theorem fill_written (h : Setters fields blank levels valid puts) {a : α} (ha : valid a)
    (harrange : Arrangement arrange) (hroom : setting.HasRoom levels)
    {members : List (String × Value)}
    (hperm : members.Perm ((Field.written fields a).map fun m => (m.1, arrange m.2))) :
    fill fields setting [] blank (Source.ofMembers members) =
      .ok ((members.map Prod.fst).reverse, puts.foldl (fun b put => put a b) blank) := by
  obtain ⟨sets, hfills, hsets, hfold⟩ :=
    exists_sets h.lawful (h.commute a) ha harrange hroom
  obtain ⟨own, hown, hsame⟩ := List.perm_comp_forall₂ hperm hfills
  have hnames : (members.map Prod.fst).Nodup := by
    rw [(hperm.map Prod.fst).nodup_iff, List.map_map]
    exact (names_written fields a).nodup h.names
  have hswap : ∀ set ∈ own, ∀ set' ∈ own, ∀ b, set' (set b) = set (set' b) := by
    intro set hset set' hset' b
    obtain ⟨put, hput, rfl⟩ := hsets set (hsame.mem_iff.mp hset)
    obtain ⟨put', hput', rfl⟩ := hsets set' (hsame.mem_iff.mp hset')
    exact h.commute a put' hput' put hput b
  rw [fill_members hown h.names hnames (by simp), List.append_nil,
    hsame.foldl_eq' hswap, hfold blank fun _ _ hblank => hblank]

theorem fits_written (h : Setters fields blank levels valid puts) {a : α} (ha : valid a)
    {m : String × Value} (hm : m ∈ Field.written fields a) : m.2.Fits levels := by
  obtain ⟨f, hf, hwritten⟩ := List.mem_filterMap.mp hm
  obtain ⟨v, hv, rfl⟩ := Option.map_eq_some_iff.mp hwritten
  obtain ⟨put, hlawful⟩ := exists_lawful h.lawful hf
  exact hlawful.fits ha hv

/-- No required field is missed. -/
theorem require_written (h : Setters fields blank levels valid puts) {a : α} {seen : List String}
    (hseen : ∀ m ∈ Field.written fields a, m.1 ∈ seen) : require fields seen = .ok () := by
  have hnone : (fields.find? fun f => f.required && !seen.contains f.name) = none := by
    rw [List.find?_eq_none]
    intro f hf hmissed
    obtain ⟨put, hlawful⟩ := exists_lawful h.lawful hf
    cases hv : f.write a with
    | none => simp [(hlawful.absent hv).1] at hmissed
    | some v =>
      have hmem : (f.name, v) ∈ Field.written fields a :=
        List.mem_filterMap.mpr ⟨f, hf, by rw [hv]; rfl⟩
      simp [hseen _ hmem] at hmissed
  rw [require, hnone]

end Setters

def Lawful (r : Record α) (levels : Nat) (valid : α → Prop) : Prop :=
  ∃ puts, Setters r.fields r.blank levels valid puts ∧
    ∀ a, puts.foldl (fun b put => put a b) r.blank = a

namespace Lawful

variable {r : Record α}

theorem names_members (h : r.Lawful levels valid) (a : α) :
    ((r.members a).map Prod.fst).Nodup := by
  obtain ⟨puts, hsetters, -⟩ := h
  exact (Setters.names_written r.fields a).nodup hsetters.names

theorem fits_members (h : r.Lawful levels valid) {a : α} (ha : valid a) {m : String × Value}
    (hm : m ∈ r.members a) : m.2.Fits levels := by
  obtain ⟨puts, hsetters, -⟩ := h
  exact hsetters.fits_written ha hm

/-- A record is read from its members in any order. -/
theorem read_members (h : r.Lawful levels valid) {a : α} (ha : valid a)
    (harrange : Arrangement arrange) (hroom : setting.HasRoom (levels + 1))
    {members : List (String × Value)}
    (hperm : members.Perm ((r.members a).map fun m => (m.1, arrange m.2))) :
    r.read setting (Source.ofValue (.object members)) = .ok a := by
  obtain ⟨puts, hsetters, hcomplete⟩ := h
  obtain ⟨inner, henter, hinner⟩ := setting.exists_enter hroom
  have hfill := hsetters.fill_written ha harrange hinner hperm
  have hrequire : require r.fields (members.map Prod.fst).reverse = .ok () := by
    refine hsetters.require_written (a := a) fun m hm => ?_
    have hmem := (hperm.map Prod.fst).mem_iff.mpr
      (List.mem_map_of_mem (List.mem_map_of_mem hm))
    simpa using hmem
  rw [hcomplete a] at hfill
  rw [Source.ofValue, read]
  simp only [henter, hfill, hrequire, Closing.readMembers, bind, Except.bind]
  rfl

theorem format (h : r.Lawful levels valid) : r.format.Lawful (levels + 1) valid where
  fits {a} ha := .object (h.names_members a) fun _ hm => h.fits_members ha hm
  not_null _ := by simp [Record.format]
  reads {a} ha arrange harrange setting hroom := by
    obtain ⟨arranged, heq, hperm⟩ := harrange.object _ (h.names_members a)
    show r.read setting (Source.ofValue (arrange (.object (r.members a)))) = .ok a
    rw [heq]
    exact h.read_members ha harrange hroom hperm

end Lawful

end Record

end Runbook.Json
