import Mathlib.Tactic.Common
import Runbook.Proofs.ShelfMirror

/-!
How long a removal lasts. A runbook leaves a shelf together with the file that is named after its
id, and it comes back when any other file of the folder holds a runbook of that id. A shelf writes
no such file, but it loads what others put into the folder, under whatever name and with whatever
id. So a removal lasts exactly if no misfiled runbook has the id at that time, and only what was
misfiled to begin with can be on the shelf under an id that no file can be named after.
-/
namespace Runbook.Shelf

/-- The entry holds a runbook but is not the file of its id. -/
def IsMisfiled (e : String × Entry) (w : Saved) : Prop :=
  inFile? e = some w ∧ fileName w.id ≠ .ok e.1

/-- No request puts a runbook of the id on the shelf. -/
def Spares (id : String) (requests : List Request) : Prop :=
  ∀ d w, Request.insert d w ∈ requests → w.id ≠ id

/-- Whatever is asked of the shelf from now on that spares the id, a fresh one does not have it. -/
def StaysAway (s : Shelf) (id : String) : Prop :=
  ∀ requests, Spares id requests → (requests.foldl after s).fresh.contains id = false

/-- Of several runbooks of one id the last one put in stays. -/
theorem get?_foldl_insert_id (found : List Saved) (c : Catalog Saved) (id : String) :
    (found.foldl (fun c w => c.insert w.id w) c).get? id =
      (found.reverse.find? fun w => w.id = id).or (c.get? id) := by
  induction found generalizing c with
  | nil => rfl
  | cons w rest ih =>
    rw [List.foldl_cons, ih, List.reverse_cons, List.find?_append, Option.or_assoc,
      Catalog.get?_insert, List.find?_singleton]
    by_cases h : w.id = id
    · simp [h]
    · simp [h, Ne.symm h]

theorem mem_inFolder_iff {f : Folder} {w : Saved} :
    w ∈ inFolder f ↔ ∃ e ∈ f.ownEntries, inFile? e = some w := List.mem_filterMap

/-- A fresh shelf has the ids of the runbooks in its folder. -/
theorem contains_fresh_eq_false {s : Shelf} {f : Folder} (hfolder : s.folder = some f)
    {id : String} : s.fresh.contains id = false ↔ ∀ w ∈ inFolder f, w.id ≠ id := by
  have hload : s.fresh = (inFolder f).foldl (fun c w => c.insert w.id w) .empty := by
    rw [fresh, load, reopen, hfolder]
  rw [Catalog.contains, hload, get?_foldl_insert_id]
  show ((List.find? _ _).or none).isSome = false ↔ _
  rw [Option.or_none]
  simp

inductive Outcome (s : Shelf) (f : Folder) : Request → Shelf → Prop
  | refused (r : Request) : Outcome s f r s
  | inserted (d : Disk) {w : Saved} (husable : isUsable w.id = true) :
      Outcome s f (.insert d w)
        ⟨s.saved.insert w.id w, some (f.insert (fileOf w).1 (fileOf w).2)⟩
  | removed (d : Disk) (id : String) :
      Outcome s f (.remove d id) ⟨s.saved.erase id, some (f.erase (id ++ ending))⟩
  | loaded : Outcome s f .load
      ⟨(inFolder f).foldl (fun c w => c.insert w.id w) s.saved, some f⟩
  | reopened : Outcome s f .reopen (ofFolder f)

theorem outcome_after {s : Shelf} {f : Folder} (hfolder : s.folder = some f) (r : Request) :
    Outcome s f r (s.after r) := by
  unfold Shelf.after
  cases r with
  | insert d w =>
    simp only
    split
    · rename_i hok
      obtain ⟨husable, rfl⟩ := insertOn_eq_ok hfolder hok
      exact .inserted d husable
    · rename_i herror
      rw [insertOn_error hfolder herror]
      exact .refused _
  | remove d id =>
    simp only
    split
    · rename_i hok
      obtain ⟨-, -, rfl⟩ := removeOn_eq_ok hfolder hok
      exact .removed d id
    · rename_i herror
      rw [removeOn_error hfolder herror]
      exact .refused _
  | load =>
    have hload : s.load.2 = ⟨(inFolder f).foldl (fun c w => c.insert w.id w) s.saved, some f⟩ := by
      rw [load, hfolder]
    simp only [hload]
    exact .loaded
  | reopen =>
    have hreopen : s.reopen = ofFolder f := by rw [reopen, hfolder, ofFolder]
    simp only [hreopen]
    exact .reopened

/-- An own entry after a file is put in. -/
theorem mem_ownEntries_insert {f : Folder} {name : String} {entry : Entry} {e : String × Entry}
    (he : e ∈ Folder.ownEntries (f.insert name entry)) : e = (name, entry) ∨ e ∈ f.ownEntries := by
  obtain ⟨he, hown⟩ := List.mem_filter.mp he
  rcases Catalog.mem_insertEntry he with rfl | he
  · exact .inl rfl
  · exact .inr (List.mem_filter.mpr ⟨he, hown⟩)

theorem mem_ownEntries_erase {f : Folder} {name : String} {e : String × Entry} :
    e ∈ Folder.ownEntries (f.erase name) ↔ e ∈ f.ownEntries ∧ e.1 ≠ name := by
  show e ∈ (f.entries.filter fun e => e.1 ≠ name).filter _ ↔ _
  rw [List.mem_filter, List.mem_filter, Folder.ownEntries, List.mem_filter]
  simp only [decide_eq_true_eq]
  exact and_right_comm

def Lacks (f : Folder) (id : String) : Prop := ∀ w ∈ inFolder f, w.id ≠ id

/-- A request that spares an id brings no runbook of it into the folder. -/
theorem Lacks.after {s : Shelf} {f : Folder} (hfolder : s.folder = some f) {id : String}
    (h : Lacks f id) {r : Request} (hspares : ∀ d w, r = .insert d w → w.id ≠ id) :
    ∃ f', (s.after r).folder = some f' ∧ Lacks f' id := by
  have hout := outcome_after hfolder r
  generalize s.after r = s' at hout ⊢
  cases hout with
  | refused => exact ⟨f, hfolder, h⟩
  | @inserted d w husable =>
    refine ⟨_, rfl, fun v hv => ?_⟩
    obtain ⟨e, he, hread⟩ := mem_inFolder_iff.mp hv
    rcases mem_ownEntries_insert he with rfl | he
    · obtain rfl : w = v := by simpa [inFile?_fileOf husable] using hread
      exact hspares d w rfl
    · exact h v (mem_inFolder_iff.mpr ⟨e, he, hread⟩)
  | removed d other =>
    refine ⟨_, rfl, fun v hv => ?_⟩
    obtain ⟨e, he, hread⟩ := mem_inFolder_iff.mp hv
    exact h v (mem_inFolder_iff.mpr ⟨e, (mem_ownEntries_erase.mp he).1, hread⟩)
  | loaded => exact ⟨f, rfl, h⟩
  | reopened => exact ⟨f, rfl, h⟩

/-- Without a runbook of the id in the folder it stays away. -/
theorem Lacks.staysAway {s : Shelf} {f : Folder} (hfolder : s.folder = some f) {id : String}
    (h : Lacks f id) : s.StaysAway id := by
  intro requests hspares
  induction requests generalizing s f with
  | nil => exact (contains_fresh_eq_false hfolder).mpr h
  | cons r rest ih =>
    have hfirst : ∀ d w, r = .insert d w → w.id ≠ id := by
      rintro d w rfl
      exact hspares d w List.mem_cons_self
    obtain ⟨f', hfolder', h'⟩ := h.after hfolder hfirst
    exact ih hfolder' h' fun d w hmem => hspares d w (List.mem_cons_of_mem _ hmem)

/-- What a shelf that began over a folder has come to: every file is one that was there or one that
a shelf wrote, and what the shelf holds under an id that no file can be named after was there. -/
structure StemsFrom (f : Folder) (s : Shelf) (now : Folder) : Prop where
  folder : s.folder = some now
  entries : ∀ e ∈ now.ownEntries, e ∈ f.ownEntries ∨ ∃ w, isUsable w.id = true ∧ e = fileOf w
  saved : ∀ id w, s.get? id = some w → w.id = id ∧ (isUsable id = true ∨ w ∈ inFolder f)

namespace StemsFrom

variable {f now : Folder} {s : Shelf}

theorem start (f : Folder) : StemsFrom f (ofFolder f) f where
  folder := rfl
  entries _ he := .inl he
  saved id w hw := by cases hw

/-- A runbook in the folder was there or has an id that a file can be named after. -/
theorem mem_inFolder (h : StemsFrom f s now) {w : Saved} (hw : w ∈ inFolder now) :
    isUsable w.id = true ∨ w ∈ inFolder f := by
  obtain ⟨e, he, hread⟩ := mem_inFolder_iff.mp hw
  rcases h.entries e he with he | ⟨v, husable, rfl⟩
  · exact .inr (mem_inFolder_iff.mpr ⟨e, he, hread⟩)
  · obtain rfl : v = w := by simpa [inFile?_fileOf husable] using hread
    exact .inl husable

theorem after (h : StemsFrom f s now) (r : Request) : ∃ now', StemsFrom f (s.after r) now' := by
  have hout := outcome_after h.folder r
  generalize s.after r = s' at hout ⊢
  cases hout with
  | refused => exact ⟨now, h⟩
  | @inserted d w husable =>
    refine ⟨_, rfl, fun e he => ?_, fun id v hv => ?_⟩
    · rcases mem_ownEntries_insert he with rfl | he
      · exact .inr ⟨w, husable, rfl⟩
      · exact h.entries e he
    · rw [get?, Catalog.get?_insert] at hv
      split_ifs at hv with hid
      · cases hv
        exact ⟨hid.symm, .inl (hid ▸ husable)⟩
      · exact h.saved id v hv
  | removed d other =>
    refine ⟨_, rfl, fun e he => h.entries e (mem_ownEntries_erase.mp he).1, fun id v hv => ?_⟩
    rw [get?, Catalog.get?_erase] at hv
    split_ifs at hv
    exact h.saved id v hv
  | loaded =>
    refine ⟨now, rfl, h.entries, fun id v hv => ?_⟩
    rw [get?, get?_foldl_insert_id, Option.or_eq_some_iff] at hv
    rcases hv with hv | ⟨-, hv⟩
    · have hid : v.id = id := by simpa using List.find?_some hv
      have hmem := List.mem_reverse.mp (List.mem_of_find?_eq_some hv)
      exact ⟨hid, hid ▸ h.mem_inFolder hmem⟩
    · exact h.saved id v hv
  | reopened => exact ⟨now, rfl, h.entries, fun id v hv => by cases hv⟩

theorem run (h : StemsFrom f s now) (requests : List Request) :
    ∃ now', StemsFrom f (requests.foldl Shelf.after s) now' := by
  induction requests generalizing s now with
  | nil => exact ⟨now, h⟩
  | cons r rest ih =>
    obtain ⟨now', h'⟩ := h.after r
    exact ih h'

/-- What is misfiled now was misfiled from the start. -/
theorem mem_ownEntries (h : StemsFrom f s now) {e : String × Entry} (he : e ∈ now.ownEntries)
    {w : Saved} (hmisfiled : IsMisfiled e w) : e ∈ f.ownEntries := by
  rcases h.entries e he with he | ⟨v, husable, rfl⟩
  · exact he
  · obtain ⟨hread, hname⟩ := hmisfiled
    obtain rfl : v = w := by simpa [inFile?_fileOf husable] using hread
    exact absurd (if_pos husable) hname

/-- An id that no file can be named after is on the shelf only if it was misfiled from the start. -/
theorem exists_isMisfiled (h : StemsFrom f s now) {id : String} (hid : s.contains id = true)
    (hunusable : isUsable id = false) : ∃ e ∈ f.ownEntries, ∃ w, IsMisfiled e w ∧ w.id = id := by
  obtain ⟨w, hw⟩ := Option.isSome_iff_exists.mp hid
  obtain ⟨rfl, husable | hmem⟩ := h.saved id w hw
  · rw [hunusable] at husable
    cases husable
  · obtain ⟨e, he, hread⟩ := mem_inFolder_iff.mp hmem
    refine ⟨e, he, w, ⟨hread, ?_⟩, rfl⟩
    simp [fileName, hunusable]

end StemsFrom

/-- The shape of an id decides whether a removal is refused for it. -/
theorem removeOn_eq_unusableId_iff {s : Shelf} {f : Folder} (hfolder : s.folder = some f)
    (d : Disk) (id : String) :
    removeOn d id s = .error (.unusableId id) s ↔ isUsable id = false := by
  rcases removeOn_cases hfolder d id with ⟨hid, h⟩ | ⟨hid, e, h⟩ | ⟨hid, h⟩ <;> simp [h, hid]

/-- A runbook that was taken off stays away if none of its id is misfiled. -/
theorem staysAway_iff {s s' : Shelf} {f : Folder} (hfolder : s.folder = some f) {d : Disk}
    {id : String} {gone : Option Saved} (hok : removeOn d id s = .ok gone s') :
    s'.StaysAway id ↔ ∀ e ∈ f.ownEntries, ∀ w, IsMisfiled e w → w.id ≠ id := by
  obtain ⟨husable, -, rfl⟩ := removeOn_eq_ok hfolder hok
  have hname : fileName id = .ok (id ++ ending) := if_pos husable
  have hlacks : Lacks (f.erase (id ++ ending)) id ↔
      ∀ e ∈ f.ownEntries, ∀ w, IsMisfiled e w → w.id ≠ id := by
    constructor
    · rintro h e he w ⟨hread, hmisfiled⟩ rfl
      have hkept : e.1 ≠ w.id ++ ending := fun heq => hmisfiled (by rw [hname, heq])
      exact h w (mem_inFolder_iff.mpr ⟨e, mem_ownEntries_erase.mpr ⟨he, hkept⟩, hread⟩) rfl
    · rintro h w hw rfl
      obtain ⟨e, he, hread⟩ := mem_inFolder_iff.mp hw
      obtain ⟨he, hkept⟩ := mem_ownEntries_erase.mp he
      refine h e he w ⟨hread, fun heq => hkept ?_⟩ rfl
      exact (Except.ok.inj (hname.symm.trans heq)).symm
  rw [← hlacks]
  constructor
  · intro haway
    exact (contains_fresh_eq_false rfl).mp (haway [] fun d w hmem => by cases hmem)
  · exact fun h => h.staysAway rfl

/-- Over whatever folder a shelf began and whatever was asked of it since: what is misfiled was so
from the start; the shelf holds an id that no file can be named after only if it was misfiled; a
removal is refused for the shape of such ids and of no others; and a runbook that was taken off
stays away exactly if no misfiled one has its id. So where nothing is misfiled every runbook can be
taken off, whatever its id looks like, and stays away. -/
theorem removal_lasts_unless_misfiled (f : Folder) (requests : List Request) :
    let s := requests.foldl after (ofFolder f)
    ∃ now, s.folder = some now ∧
      (∀ e ∈ now.ownEntries, ∀ w, IsMisfiled e w → e ∈ f.ownEntries) ∧
      (∀ id, s.contains id = true → isUsable id = false →
        ∃ e ∈ f.ownEntries, ∃ w, IsMisfiled e w ∧ w.id = id) ∧
      (∀ d id, removeOn d id s = .error (.unusableId id) s ↔ isUsable id = false) ∧
      (∀ d id gone s', removeOn d id s = .ok gone s' →
        (s'.StaysAway id ↔ ∀ e ∈ now.ownEntries, ∀ w, IsMisfiled e w → w.id ≠ id)) ∧
      ((∀ e ∈ f.ownEntries, ∀ w, ¬ IsMisfiled e w) →
        (∀ d id s', s.contains id = true → removeOn d id s ≠ .error (.unusableId id) s') ∧
        ∀ d id gone s', removeOn d id s = .ok gone s' → s'.StaysAway id) := by
  intro s
  obtain ⟨now, h⟩ : ∃ now, StemsFrom f s now := (StemsFrom.start f).run requests
  have hshape := removeOn_eq_unusableId_iff h.folder
  refine ⟨now, h.folder, fun e he w => h.mem_ownEntries he, fun id => h.exists_isMisfiled, hshape,
    fun d id gone s' hok => staysAway_iff h.folder hok, fun hfiled => ⟨?_, ?_⟩⟩
  · intro d id s' hid hrefused
    obtain rfl := removeOn_error h.folder hrefused
    obtain ⟨e, he, w, hmisfiled, -⟩ := h.exists_isMisfiled hid ((hshape d id).mp hrefused)
    exact hfiled e he w hmisfiled
  · intro d id gone s' hok
    refine (staysAway_iff h.folder hok).mpr fun e he w hmisfiled => ?_
    exact absurd hmisfiled (hfiled e (h.mem_ownEntries he hmisfiled) w)

def filed : Folder :=
  Catalog.empty.insert "b.json" (.text (Saved.format.pretty ⟨"b", "B", "", .empty⟩))

/-- It can be loaded and taken off, and then it stays away. -/
theorem removal_lasts_unless_misfiled_filed :
    let s := [Request.load].foldl after (ofFolder filed)
    (∀ e ∈ filed.ownEntries, ∀ w, ¬ IsMisfiled e w) ∧ s.contains "b" = true ∧
      ∃ s', remove "b" s = .ok (some ⟨"b", "B", "", .empty⟩) s' ∧ s'.StaysAway "b" := by
  let w : Saved := ⟨"b", "B", "", .empty⟩
  have hread : inFile? (fileOf w) = some w := inFile?_fileOf (by decide)
  have hentries : filed.ownEntries = [fileOf w] := rfl
  have hfound : inFolder filed = [w] := by
    rw [inFolder, hentries, List.filterMap_cons_some hread, List.filterMap_nil]
  intro s
  have hs : s = ⟨Catalog.empty.insert "b" w, some filed⟩ := by
    show (ofFolder filed).load.2 = _
    rw [load]
    show Shelf.mk ((inFolder filed).foldl _ _) _ = _
    rw [hfound]
    rfl
  have hfiled : ∀ e ∈ filed.ownEntries, ∀ v, ¬ IsMisfiled e v := by
    rw [hentries]
    rintro e he v ⟨hv, hname⟩
    obtain rfl := List.mem_singleton.mp he
    obtain rfl : w = v := Option.some.inj (hread.symm.trans hv)
    exact hname (if_pos (by decide))
  obtain ⟨now, -, -, -, -, -, hlasts⟩ := removal_lasts_unless_misfiled filed [.load]
  have hremove : ∃ s', removeOn .sound "b" s = .ok (some w) s' := by
    rw [hs]
    exact ⟨_, rfl⟩
  obtain ⟨s', hremove⟩ := hremove
  exact ⟨hfiled, by rw [hs]; decide +kernel, s', hremove, (hlasts hfiled).2 _ _ _ _ hremove⟩

/-- A folder with a runbook in the file of another id, and one whose id leads out of the folder. -/
def misfiled : Folder :=
  (Catalog.empty.insert "a.json" (.text (Saved.format.pretty ⟨"b", "B", "", .empty⟩))).insert
    "x.json" (.text (Saved.format.pretty ⟨"../x", "X", "", .empty⟩))

/-- The first of them is taken off and is there again on a fresh shelf, and the second can not be
taken off at all. -/
theorem misfiled_runbook_comes_back :
    let s := (ofFolder misfiled).load.2
    s.contains "b" = true ∧ s.contains "../x" = true ∧
      remove "../x" s = .error (.unusableId "../x") s ∧
      ∃ gone s', remove "b" s = .ok gone s' ∧ s'.contains "b" = false ∧
        s'.fresh.contains "b" = true := by
  have hread : ∀ name w, isFileName name = true →
      inFile? (name, .text (Saved.format.pretty w)) = some w := by
    intro name w hname
    have htext := (@Saved.lawful 0).ofText_pretty (by decide) (a := w) trivial
    simp only [inFile?, hname, if_true, htext]
    rfl
  have hentries : misfiled.ownEntries =
      [("a.json", .text (Saved.format.pretty ⟨"b", "B", "", .empty⟩)),
        ("x.json", .text (Saved.format.pretty ⟨"../x", "X", "", .empty⟩))] := rfl
  have hfound : inFolder misfiled =
      [⟨"b", "B", "", .empty⟩, ⟨"../x", "X", "", .empty⟩] := by
    rw [inFolder, hentries, List.filterMap_cons_some (hread _ _ (by decide)),
      List.filterMap_cons_some (hread _ _ (by decide)), List.filterMap_nil]
  intro s
  have hs : s = ⟨(Catalog.empty.insert "b" ⟨"b", "B", "", .empty⟩).insert "../x"
      ⟨"../x", "X", "", .empty⟩, some misfiled⟩ := by
    show (ofFolder misfiled).load.2 = _
    rw [load]
    show Shelf.mk ((inFolder misfiled).foldl _ _) _ = _
    rw [hfound]
    rfl
  have hfolder : s.folder = some misfiled := by rw [hs]
  have hremove : ∃ gone saved, remove "b" s = .ok gone ⟨saved, some misfiled⟩ ∧
      saved.contains "b" = false := by
    rw [hs]
    exact ⟨_, _, rfl, by decide +kernel⟩
  obtain ⟨gone, saved, hremove, haway⟩ := hremove
  refine ⟨by rw [hs]; decide +kernel, by rw [hs]; decide +kernel,
    (removeOn_eq_unusableId_iff hfolder .sound "../x").mpr (by decide), gone, _, hremove, haway, ?_⟩
  by_contra hgone
  have hlacks := (contains_fresh_eq_false rfl).mp (Bool.eq_false_iff.mpr hgone)
  rw [hfound] at hlacks
  exact hlacks _ List.mem_cons_self rfl

end Runbook.Shelf
