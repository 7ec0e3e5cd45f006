import Mathlib.Tactic.Common
import Runbook.Library.Shelf
import Runbook.Proofs.PathTree
import Runbook.Proofs.SavedForms

/-!
A shelf mirrors its folder. While nobody else writes there, every file of the folder is named after
the id of the runbook in it, so what a fresh shelf loads is known file by file. A runbook comes
onto the shelf after its file is written and leaves it after the file is gone, so the shelf never
holds more than a fresh one would, whatever the system refuses to do.
-/
namespace Runbook

/-- How the system changes the files of a folder. A change takes full effect or fails. -/
structure Disk where
  write : Folder → String → String → Except FileError Folder
  remove : Folder → String → Except FileError Folder
  write_ok : ∀ {f name content after}, write f name content = .ok after →
    after = f.insert name (.text content)
  remove_ok : ∀ {f name after}, remove f name = .ok after → after = f.erase name

def Disk.sound : Disk where
  write := Folder.write
  remove := Folder.remove
  write_ok {f name content after} h := by
    obtain ⟨-, -, h⟩ := bind_eq_ok h
    unfold Folder.putAt at h
    split at h
    · cases h
    · exact (Except.ok.inj h).symm
  remove_ok {f name after} h := by
    unfold Folder.remove at h
    split at h
    · rename_i hnone
      rw [Catalog.erase_of_get?_none hnone]
      exact (Except.ok.inj h).symm
    · cases h
    · exact (Except.ok.inj h).symm

namespace Shelf

def insertOn (d : Disk) (w : Saved) : EStateM StorageError Shelf Unit := do
  change w.id fun f name => d.write f name (Saved.format.pretty w)
  modify fun s => { s with saved := s.saved.insert w.id w }

def removeOn (d : Disk) (id : String) : EStateM StorageError Shelf (Option Saved) := do
  change id d.remove
  modifyGet fun s => (s.saved.get? id, { s with saved := s.saved.erase id })

def fresh (s : Shelf) : Catalog Saved := s.reopen.load.2.saved

def fileOf (w : Saved) : String × Entry := (w.id ++ ending, .text (Saved.format.pretty w))

/-- Every entry of the folder is the file of a runbook. -/
def Holds (f : Folder) : Prop := ∀ e ∈ f.entries, ∃ w, isUsable w.id = true ∧ e = fileOf w

theorem pretty_injective {w v : Saved} (h : Saved.format.pretty w = Saved.format.pretty v) :
    w = v :=
  ((@Saved.lawful 0).faithful (by decide)).injective w v trivial trivial (.inr (.inl h))

theorem fileName_eq_ok {id name : String} (h : fileName id = .ok name) :
    isUsable id = true ∧ name = id ++ ending := by
  unfold fileName at h
  split at h
  · exact ⟨‹_›, (Except.ok.inj h).symm⟩
  · cases h

/-- No two ids have files of the same name. -/
theorem fileName_injective {id other name : String} (h : fileName id = .ok name)
    (h' : fileName other = .ok name) : id = other := by
  obtain ⟨-, rfl⟩ := fileName_eq_ok h
  obtain ⟨-, heq⟩ := fileName_eq_ok h'
  exact (String.append_left_inj ending).mp heq

theorem isFileName_of_isUsable {id : String} (h : isUsable id = true) :
    isFileName (id ++ ending) = true := by
  have hne : id ≠ "" := by
    rintro rfl
    simp [isUsable] at h
  have hending : id ++ ending ≠ ending := fun heq =>
    hne ((String.append_left_inj ending).mp (heq.trans (String.empty_append).symm))
  simp [isFileName, hending]

theorem inFile?_fileOf {w : Saved} (h : isUsable w.id = true) : inFile? (fileOf w) = some w := by
  have hread := (@Saved.lawful 0).ofText_pretty (by decide) (a := w) trivial
  simp only [inFile?, fileOf, isFileName_of_isUsable h, hread]
  rfl

/-- The file of a runbook lies in the folder itself. -/
theorem slash_not_mem_fileOf {w : Saved} (h : isUsable w.id = true) :
    '/' ∉ (fileOf w).1.toList := by
  have hid : '/' ∉ w.id.toList := fun hmem => by
    have hany : w.id.toList.any (fun c => c = '/' || c = '\\') = true :=
      List.any_eq_true.mpr ⟨'/', hmem, by decide⟩
    simp [isUsable, hany] at h
  show '/' ∉ (w.id ++ ending).toList
  rw [String.toList_append, List.mem_append, not_or]
  exact ⟨hid, by decide⟩

/-- The folder is known from the runbooks in it. -/
theorem entries_eq {f : Folder} (h : Holds f) : f.entries = (inFolder f).map fileOf := by
  suffices hall : ∀ entries : List (String × Entry),
      (∀ e ∈ entries, ∃ w, isUsable w.id = true ∧ e = fileOf w) →
      entries = ((entries.filter fun e => !e.1.toList.contains '/').filterMap inFile?).map
        fileOf from hall f.entries h
  intro entries hentries
  induction entries with
  | nil => rfl
  | cons e rest ih =>
    obtain ⟨w, hw, rfl⟩ := hentries e List.mem_cons_self
    have hown : (!(fileOf w).1.toList.contains '/') = true := by
      simpa using slash_not_mem_fileOf hw
    rw [List.filter_cons, if_pos hown, List.filterMap_cons_some (inFile?_fileOf hw),
      List.map_cons, ← ih fun e he => hentries e (List.mem_cons_of_mem _ he)]

theorem mem_inFolder {f : Folder} (h : Holds f) {w : Saved} :
    w ∈ inFolder f ↔ f.get? (w.id ++ ending) = some (.text (Saved.format.pretty w)) := by
  rw [Catalog.get?_eq_some_iff]
  show w ∈ inFolder f ↔ fileOf w ∈ f.entries
  rw [entries_eq h, List.mem_map]
  constructor
  · exact fun hw => ⟨w, hw, rfl⟩
  · rintro ⟨v, hv, heq⟩
    rwa [← pretty_injective (Entry.text.inj (Prod.mk.inj heq).2)]

def listed (f : Folder) : List (String × Saved) := (inFolder f).map fun w => (w.id, w)

theorem nodup_listed {f : Folder} (h : Holds f) : ((listed f).map Prod.fst).Nodup := by
  have hnames := f.nodup_names
  rw [entries_eq h, List.map_map] at hnames
  rw [listed, List.map_map]
  refine List.Nodup.of_map (· ++ ending) ?_
  rw [List.map_map]
  exact hnames

theorem lookup_listed {f : Folder} (h : Holds f) {id : String} {w : Saved} :
    (listed f).lookup id = some w ↔
      w.id = id ∧ f.get? (id ++ ending) = some (.text (Saved.format.pretty w)) := by
  rw [Catalog.lookup_eq_some_iff (nodup_listed h), listed, List.mem_map]
  constructor
  · rintro ⟨v, hv, heq⟩
    obtain ⟨rfl, rfl⟩ := Prod.mk.inj heq
    exact ⟨rfl, (mem_inFolder h).mp hv⟩
  · rintro ⟨rfl, hget⟩
    exact ⟨w, (mem_inFolder h).mpr hget, rfl⟩

theorem get?_load {s : Shelf} {f : Folder} (hfolder : s.folder = some f) (h : Holds f)
    (id : String) : s.load.2.get? id = ((listed f).lookup id).or (s.get? id) := by
  have hload : s.load.2.saved =
      (listed f).foldl (fun c e => c.insert e.1 e.2) s.saved := by
    rw [listed, List.foldl_map, load, hfolder]
  rw [get?, hload, Catalog.get?_foldl_insert (nodup_listed h), get?]

/-- A fresh shelf has the runbooks whose files are in the folder. -/
theorem get?_fresh {s : Shelf} {f : Folder} (hfolder : s.folder = some f) (h : Holds f)
    {id : String} {w : Saved} : s.fresh.get? id = some w ↔
      w.id = id ∧ f.get? (id ++ ending) = some (.text (Saved.format.pretty w)) := by
  have hload := get?_load (s := s.reopen) hfolder h id
  show s.reopen.load.2.get? id = some w ↔ _
  rw [hload, ← lookup_listed h]
  show ((listed f).lookup id).or none = some w ↔ _
  rw [Option.or_none]

theorem folder_load (s : Shelf) : s.load.2.folder = s.folder := by
  unfold load
  split
  · rfl
  · rfl

theorem fresh_load (s : Shelf) : s.load.2.fresh = s.fresh := by
  have hreopen : s.load.2.reopen = s.reopen := by rw [reopen, folder_load, reopen]
  rw [fresh, hreopen, fresh]

/-- A shelf over a folder that holds its files, and on it no more than a fresh shelf loads. -/
structure Mirrors (s : Shelf) (f : Folder) : Prop where
  folder : s.folder = some f
  holds : Holds f
  within : ∀ id w, s.get? id = some w → s.fresh.get? id = some w

/-- What follows a change of the folder sees the new folder. If the id or the system forbids the
change, nothing follows and the shelf is as it was. -/
theorem change_bind_cases {s : Shelf} {f : Folder} (hfolder : s.folder = some f) (id : String)
    (act : Folder → String → Except FileError Folder) {α : Type}
    (next : EStateM StorageError Shelf α) :
    let outcome := (change id act >>= fun _ => next) s
    (isUsable id = false ∧ outcome = .error (.unusableId id) s) ∨
      (isUsable id = true ∧ ∃ e, outcome = .error (.file e) s) ∨
      isUsable id = true ∧ ∃ after, act f (id ++ ending) = .ok after ∧
        outcome = next { s with folder := some after } := by
  intro outcome
  have houtcome : outcome = EStateM.bind (change id act) (fun _ => next) s := rfl
  unfold EStateM.bind change fileName at houtcome
  simp only [hfolder] at houtcome
  by_cases husable : isUsable id = true
  · simp only [husable, if_true] at houtcome
    cases hact : act f (id ++ ending) with
    | error e =>
      rw [hact] at houtcome
      exact .inr (.inl ⟨husable, e, houtcome⟩)
    | ok after =>
      rw [hact] at houtcome
      exact .inr (.inr ⟨husable, after, rfl, houtcome⟩)
  · simp only [husable] at houtcome
    exact .inl ⟨Bool.eq_false_iff.mpr husable, houtcome⟩

theorem insertOn_cases {s : Shelf} {f : Folder} (hfolder : s.folder = some f) (d : Disk)
    (w : Saved) :
    (∃ e, insertOn d w s = .error e s) ∨
      isUsable w.id = true ∧ insertOn d w s = .ok () ⟨s.saved.insert w.id w,
        some (f.insert (w.id ++ ending) (.text (Saved.format.pretty w)))⟩ := by
  rcases change_bind_cases hfolder w.id (fun f name => d.write f name (Saved.format.pretty w))
    (modify fun s => { s with saved := s.saved.insert w.id w }) with
      ⟨-, herror⟩ | ⟨-, e, herror⟩ | ⟨husable, after, hwrite, hok⟩
  · exact .inl ⟨_, herror⟩
  · exact .inl ⟨_, herror⟩
  · obtain rfl := d.write_ok hwrite
    exact .inr ⟨husable, hok⟩

theorem removeOn_cases {s : Shelf} {f : Folder} (hfolder : s.folder = some f) (d : Disk)
    (id : String) :
    (isUsable id = false ∧ removeOn d id s = .error (.unusableId id) s) ∨
      (isUsable id = true ∧ ∃ e, removeOn d id s = .error (.file e) s) ∨
      isUsable id = true ∧ removeOn d id s = .ok (s.saved.get? id) ⟨s.saved.erase id,
        some (f.erase (id ++ ending))⟩ := by
  rcases change_bind_cases hfolder id d.remove
    (modifyGet fun s => (s.saved.get? id, { s with saved := s.saved.erase id })) with
      herror | herror | ⟨husable, after, hremove, hok⟩
  · exact .inl herror
  · exact .inr (.inl herror)
  · obtain rfl := d.remove_ok hremove
    exact .inr (.inr ⟨husable, hok⟩)

theorem insertOn_eq_ok {s s' : Shelf} {f : Folder} (hfolder : s.folder = some f) {d : Disk}
    {w : Saved} (h : insertOn d w s = .ok () s') :
    isUsable w.id = true ∧ s' = ⟨s.saved.insert w.id w,
      some (f.insert (w.id ++ ending) (.text (Saved.format.pretty w)))⟩ := by
  rcases insertOn_cases hfolder d w with ⟨e, herror⟩ | ⟨husable, hok⟩
  · cases h.symm.trans herror
  · exact ⟨husable, (EStateM.Result.ok.inj (h.symm.trans hok)).2⟩

theorem removeOn_eq_ok {s s' : Shelf} {f : Folder} (hfolder : s.folder = some f) {d : Disk}
    {id : String} {gone : Option Saved} (h : removeOn d id s = .ok gone s') :
    isUsable id = true ∧ gone = s.saved.get? id ∧
      s' = ⟨s.saved.erase id, some (f.erase (id ++ ending))⟩ := by
  rcases removeOn_cases hfolder d id with ⟨-, herror⟩ | ⟨-, e, herror⟩ | ⟨husable, hok⟩
  · cases h.symm.trans herror
  · cases h.symm.trans herror
  · exact ⟨husable, EStateM.Result.ok.inj (h.symm.trans hok)⟩

/-- Whatever the system refuses, a shelf whose file was not written is as it was. -/
theorem insertOn_error {s s' : Shelf} {f : Folder} (hfolder : s.folder = some f) {d : Disk}
    {w : Saved} {e : StorageError} (h : insertOn d w s = .error e s') : s' = s := by
  rcases insertOn_cases hfolder d w with ⟨e', herror⟩ | ⟨-, hok⟩
  · exact (EStateM.Result.error.inj (h.symm.trans herror)).2
  · cases h.symm.trans hok

theorem removeOn_error {s s' : Shelf} {f : Folder} (hfolder : s.folder = some f) {d : Disk}
    {id : String} {e : StorageError} (h : removeOn d id s = .error e s') : s' = s := by
  rcases removeOn_cases hfolder d id with ⟨-, herror⟩ | ⟨-, e', herror⟩ | ⟨-, hok⟩
  · exact (EStateM.Result.error.inj (h.symm.trans herror)).2
  · exact (EStateM.Result.error.inj (h.symm.trans herror)).2
  · cases h.symm.trans hok

theorem Holds.insert {f : Folder} (h : Holds f) {w : Saved} (hw : isUsable w.id = true) :
    Holds (f.insert (w.id ++ ending) (.text (Saved.format.pretty w))) := by
  intro e he
  rcases Catalog.mem_insertEntry he with rfl | he
  · exact ⟨w, hw, rfl⟩
  · exact h e he

theorem Holds.erase {f : Folder} (h : Holds f) (name : String) : Holds (f.erase name) :=
  fun e he => h e (List.mem_filter.mp he).1

namespace Mirrors

variable {s s' : Shelf} {f : Folder} {d : Disk}

/-- After a runbook is put on the shelf a fresh one loads it under its id, and every other one as
before. -/
theorem fresh_insertOn (h : Mirrors s f) {w : Saved} (hok : insertOn d w s = .ok () s')
    (other : String) :
    s'.fresh.get? other = if other = w.id then some w else s.fresh.get? other := by
  obtain ⟨husable, rfl⟩ := insertOn_eq_ok h.folder hok
  apply Option.ext
  intro v
  rw [get?_fresh rfl (h.holds.insert husable), Catalog.get?_insert]
  simp only [String.append_left_inj]
  split_ifs with heq
  · subst heq
    constructor
    · rintro ⟨-, htext⟩
      rw [pretty_injective (Entry.text.inj (Option.some.inj htext))]
    · intro hsome
      cases hsome
      exact ⟨rfl, rfl⟩
  · exact (get?_fresh h.folder h.holds).symm

/-- After a runbook is taken off the shelf a fresh one loads every other one as before. -/
theorem fresh_removeOn (h : Mirrors s f) {id : String} {gone : Option Saved}
    (hok : removeOn d id s = .ok gone s') (other : String) :
    s'.fresh.get? other = if other = id then none else s.fresh.get? other := by
  obtain ⟨-, -, rfl⟩ := removeOn_eq_ok h.folder hok
  apply Option.ext
  intro v
  rw [get?_fresh rfl (h.holds.erase _), Catalog.get?_erase]
  simp only [String.append_left_inj]
  split_ifs with heq
  · simp
  · exact (get?_fresh h.folder h.holds).symm

/-- Loading gives what a fresh shelf has. -/
theorem saved_load (h : Mirrors s f) : s.load.2.saved = s.fresh := by
  apply Catalog.ext_get?
  intro id
  show s.load.2.get? id = s.reopen.load.2.get? id
  rw [get?_load h.folder h.holds, get?_load (s := s.reopen) h.folder h.holds]
  show _ = ((listed f).lookup id).or none
  cases hfound : (listed f).lookup id with
  | some w => rfl
  | none =>
    cases hown : s.get? id with
    | none => rfl
    | some w =>
      have hlisted := (get?_fresh h.folder h.holds).mp (h.within id w hown)
      rw [← lookup_listed h.holds, hfound] at hlisted
      cases hlisted

/-- Loading counts the files that hold a runbook. -/
theorem count_load (h : Mirrors s f) :
    s.load.1 = f.entries.countP fun e => (inFile? e).isSome := by
  have hload : s.load.1 = (inFolder f).length := by rw [Shelf.load, h.folder]
  have hall : (f.entries.countP fun e => (inFile? e).isSome) = f.entries.length := by
    rw [List.countP_eq_length]
    intro e he
    obtain ⟨w, hw, rfl⟩ := h.holds e he
    rw [inFile?_fileOf hw]
    rfl
  rw [hload, hall, entries_eq h.holds, List.length_map]

theorem insertOn (h : Mirrors s f) {w : Saved} (hok : insertOn d w s = .ok () s') :
    ∃ f', Mirrors s' f' := by
  have hfresh := h.fresh_insertOn hok
  obtain ⟨husable, rfl⟩ := insertOn_eq_ok h.folder hok
  refine ⟨_, rfl, h.holds.insert husable, fun id v hv => ?_⟩
  rw [get?, Catalog.get?_insert] at hv
  rw [hfresh]
  split_ifs with heq
  · rwa [if_pos heq] at hv
  · rw [if_neg heq] at hv
    exact h.within id v hv

theorem removeOn (h : Mirrors s f) {id : String} {gone : Option Saved}
    (hok : removeOn d id s = .ok gone s') : ∃ f', Mirrors s' f' := by
  have hfresh := h.fresh_removeOn hok
  obtain ⟨-, -, rfl⟩ := removeOn_eq_ok h.folder hok
  refine ⟨_, rfl, h.holds.erase _, fun other v hv => ?_⟩
  rw [get?, Catalog.get?_erase] at hv
  rw [hfresh]
  split_ifs with heq
  · rw [if_pos heq] at hv
    cases hv
  · rw [if_neg heq] at hv
    exact h.within other v hv

theorem load (h : Mirrors s f) : Mirrors s.load.2 f := by
  refine ⟨(folder_load s).trans h.folder, h.holds, fun id w hw => ?_⟩
  rw [get?, h.saved_load] at hw
  rwa [fresh_load]

theorem reopen (h : Mirrors s f) : Mirrors s.reopen f :=
  ⟨h.folder, h.holds, fun id w hw => by cases hw⟩

end Mirrors

/-- What is asked of a shelf. Every change comes with the disk as it is at that moment. -/
inductive Request where
  | insert (d : Disk) (w : Saved)
  | remove (d : Disk) (id : String)
  | load
  | reopen

def after (s : Shelf) : Request → Shelf
  | .insert d w =>
    match insertOn d w s with
    | .ok _ s' | .error _ s' => s'
  | .remove d id =>
    match removeOn d id s with
    | .ok _ s' | .error _ s' => s'
  | .load => s.load.2
  | .reopen => s.reopen

theorem Mirrors.after {s : Shelf} {f : Folder} (h : Mirrors s f) (r : Request) :
    ∃ f', Mirrors (s.after r) f' := by
  unfold Shelf.after
  cases r with
  | insert d w =>
    simp only
    split
    · rename_i hok
      exact h.insertOn hok
    · rename_i herror
      rw [insertOn_error h.folder herror]
      exact ⟨f, h⟩
  | remove d id =>
    simp only
    split
    · rename_i hok
      exact h.removeOn hok
    · rename_i herror
      rw [removeOn_error h.folder herror]
      exact ⟨f, h⟩
  | load => exact ⟨f, h.load⟩
  | reopen => exact ⟨f, h.reopen⟩

theorem mirrors_run {s : Shelf} {f : Folder} (h : Mirrors s f) (requests : List Request) :
    ∃ f', Mirrors (requests.foldl after s) f' := by
  induction requests generalizing s f with
  | nil => exact ⟨f, h⟩
  | cons r rest ih =>
    obtain ⟨f', h'⟩ := h.after r
    exact ih h'

theorem mirrors_empty : Mirrors (ofFolder .empty) .empty :=
  ⟨rfl, fun e he => by simp [Catalog.empty] at he, fun id w hw => by cases hw⟩

/-- Whatever is asked of a shelf that began over an empty folder, and whatever the system refused:
the shelf holds no more than a fresh one loads, and the same after loading; a change that is made
is all that changes for a fresh shelf, and one that fails leaves the shelf that it began with; and
every file holds the one runbook whose id it is named after. Requests of a shelf itself are those
over a disk that refuses nothing without need. -/
theorem run_mirrors_folder (requests : List Request) :
    let s := requests.foldl after (ofFolder .empty)
    ∃ f, s.folder = some f ∧
      (∀ id w, s.get? id = some w → s.fresh.get? id = some w) ∧
      s.load.2.saved = s.load.2.fresh ∧
      (s.load.1 = f.entries.countP fun e => (inFile? e).isSome) ∧
      (∀ d w s', insertOn d w s = .ok () s' → ∀ other,
        s'.fresh.get? other = if other = w.id then some w else s.fresh.get? other) ∧
      (∀ d id gone s', removeOn d id s = .ok gone s' → ∀ other,
        s'.fresh.get? other = if other = id then none else s.fresh.get? other) ∧
      (∀ d w e s', insertOn d w s = .error e s' → s' = s ∧ s.after (.insert d w) = s) ∧
      (∀ d id e s', removeOn d id s = .error e s' → s' = s ∧ s.after (.remove d id) = s) ∧
      (∀ w, insertOn .sound w s = insert w s) ∧
      (∀ id, removeOn .sound id s = remove id s) ∧
      (∀ e ∈ f.entries, ∃ w, fileName w.id = .ok e.1 ∧ inFile? e = some w) ∧
      ∀ id other name, fileName id = .ok name → fileName other = .ok name → id = other := by
  intro s
  obtain ⟨f, h⟩ : ∃ f, Mirrors s f := mirrors_run mirrors_empty requests
  refine ⟨f, h.folder, h.within, ?_, h.count_load, ?_, ?_, ?_, ?_, fun w => rfl, fun id => rfl, ?_,
    ?_⟩
  · rw [h.saved_load, fresh_load]
  · exact fun d w s' hok => h.fresh_insertOn hok
  · exact fun d id gone s' hok => h.fresh_removeOn hok
  · intro d w e s' herror
    obtain rfl := insertOn_error h.folder herror
    exact ⟨rfl, by rw [after, herror]⟩
  · intro d id e s' herror
    obtain rfl := removeOn_error h.folder herror
    exact ⟨rfl, by rw [after, herror]⟩
  · intro e he
    obtain ⟨w, hw, rfl⟩ := h.holds e he
    exact ⟨w, if_pos hw, inFile?_fileOf hw⟩
  · exact fun id other name hname hother => fileName_injective hname hother

/-- A runbook put on an empty shelf is what a fresh one loads, and with it taken off there is
nothing to load. -/
theorem run_mirrors_folder_core :
    ∃ s', insert ⟨"core", "Core", "", .empty⟩ (ofFolder .empty) = .ok () s' ∧
      s'.fresh.get? "core" = some ⟨"core", "Core", "", .empty⟩ ∧
      ∃ gone emptied, remove "core" s' = .ok gone emptied ∧
        emptied.fresh.get? "core" = none := by
  obtain ⟨f, -, -, -, -, hinsert, -⟩ := run_mirrors_folder []
  obtain ⟨g, -, -, -, -, -, hremove, -⟩ :=
    run_mirrors_folder [.insert .sound ⟨"core", "Core", "", .empty⟩]
  have hok : insertOn .sound ⟨"core", "Core", "", .empty⟩ (ofFolder .empty) = .ok () _ := rfl
  have hgone : removeOn .sound "core"
      ((ofFolder .empty).after (.insert .sound ⟨"core", "Core", "", .empty⟩)) = .ok _ _ := rfl
  exact ⟨_, hok, hinsert _ _ _ hok "core", _, _, hgone, hremove _ _ _ _ hgone "core"⟩

end Shelf

end Runbook
