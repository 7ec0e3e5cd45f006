import Mathlib.Tactic.Common
import Runbook.Proofs.TaggedLaws
import Runbook.Workflow.Step

/-!
The saved form of a step with its settings. The members of the step stand beside the fields that
every kind may have; no kind has a field of these names or of the name of the tag, so the two are
told apart again in whatever order they come.
-/
namespace Runbook

open Json Json.Format Json.Field Json.Variant

variable {levels : Nat}

theorem OnError.lawful : OnError.format.Lawful levels Any :=
  lawful_names (fun e => by cases e <;> decide) (by decide)

theorem Policy.lawful : Policy.format.Lawful (levels + 1) Any :=
  Record.Lawful.format ⟨_, {
    lawful := .cons (lawful_plain lawful_uint32)
      (.cons (lawful_plain lawful_uint32) (.cons (lawful_plain OnError.lawful) .nil))
    names := by decide
    commute := by simp }, fun _ => rfl⟩

namespace Target

theorem lawful_hostRecord : hostRecord.Lawful levels Any :=
  ⟨_, {
    lawful := .cons (lawful_plain lawful_text) .nil
    names := by decide
    commute := by simp }, fun _ => rfl⟩

theorem lawful_groupRecord : groupRecord.Lawful levels Any :=
  ⟨_, {
    lawful := .cons (lawful_plain lawful_text) .nil
    names := by decide
    commute := by simp }, fun _ => rfl⟩

theorem lawful_tagged : tagged.Lawful ["type"] levels Any where
  tag := by decide
  names := by decide
  variants := by
    simp only [tagged, List.forall_mem_cons]
    exact ⟨lawful_record lawful_hostRecord (by decide) (by rintro (_ | _) _ ⟨⟩; rfl),
      lawful_record lawful_groupRecord (by decide) (by rintro (_ | _) _ ⟨⟩; rfl),
      List.forall_mem_nil _⟩
  total a := by cases a <;> rfl

theorem lawful : format.Lawful (levels + 1) Any := lawful_tagged.format

end Target

theorem Task.lawful : Task.record.Lawful levels Any :=
  ⟨_, {
    lawful := .cons (lawful_option lawful_text rfl) (.cons (lawful_option lawful_text rfl) .nil)
    names := by decide
    commute := by simp }, fun _ => rfl⟩

theorem Condition.lawful : Condition.record.Lawful levels Any :=
  ⟨_, {
    lawful := .cons (lawful_plain lawful_text) .nil
    names := by decide
    commute := by simp }, fun _ => rfl⟩

theorem Loop.lawful : Loop.record.Lawful levels Any :=
  ⟨_, {
    lawful := .cons (lawful_plain lawful_uint32) (.cons (lawful_option lawful_text rfl) .nil)
    names := by decide
    commute := by simp }, fun _ => rfl⟩

theorem Connection.lawful : Connection.record.Lawful (levels + 1) Any :=
  ⟨_, {
    lawful := .cons (lawful_option lawful_text rfl) (.cons (lawful_option Target.lawful rfl) .nil)
    names := by decide
    commute := by simp }, fun _ => rfl⟩

theorem Deployment.lawful : Deployment.record.Lawful (levels + 1) Any :=
  ⟨_, {
    lawful := .cons (lawful_option lawful_text rfl)
      (.cons (lawful_many lawful_text rfl) (.cons (lawful_plain lawful_bool) .nil))
    names := by decide
    commute := by simp }, fun _ => rfl⟩

theorem Execution.lawful : Execution.record.Lawful (levels + 1) Any :=
  ⟨_, {
    lawful := .cons (lawful_many lawful_text rfl) (.cons (lawful_option lawful_text rfl) .nil)
    names := by decide
    commute := by simp }, fun _ => rfl⟩

theorem Backup.lawful : Backup.record.Lawful levels Any :=
  ⟨_, {
    lawful := .cons (lawful_option lawful_text rfl) (.cons (lawful_option lawful_text rfl) .nil)
    names := by decide
    commute := by simp }, fun _ => rfl⟩

theorem StatusCheck.lawful : StatusCheck.record.Lawful levels Any :=
  ⟨_, {
    lawful := .cons (lawful_plain lawful_text) (.cons (lawful_plain lawful_text) .nil)
    names := by decide
    commute := by simp }, fun _ => rfl⟩

namespace Settings

def isShared (m : String × Json.Value) : Bool := (shared.find? fun f => f.name = m.1).isSome

def reserved : List String := "kind" :: shared.map Field.name

end Settings

theorem Step.lawful : Step.tagged.Lawful Settings.reserved (levels + 1) Any where
  tag := by decide
  names := by decide
  variants := by
    simp only [tagged, List.forall_mem_cons]
    exact ⟨lawful_bare (by simp), lawful_bare (by simp),
      lawful_record Task.lawful (by decide) (by rintro (_ | _) _ ⟨⟩; rfl),
      lawful_record Condition.lawful (by decide) (by rintro (_ | _) _ ⟨⟩; rfl),
      lawful_record Loop.lawful (by decide) (by rintro (_ | _) _ ⟨⟩; rfl),
      lawful_record Connection.lawful (by decide) (by rintro (_ | _) _ ⟨⟩; rfl),
      lawful_record Deployment.lawful (by decide) (by rintro (_ | _) _ ⟨⟩; rfl),
      lawful_record Execution.lawful (by decide) (by rintro (_ | _) _ ⟨⟩; rfl),
      lawful_record Backup.lawful (by decide) (by rintro (_ | _) _ ⟨⟩; rfl),
      lawful_record StatusCheck.lawful (by decide) (by rintro (_ | _) _ ⟨⟩; rfl),
      List.forall_mem_nil _⟩
  total a := by cases a <;> rfl

namespace Settings

theorem exists_setters : ∃ puts, Record.Setters shared ⟨.start, none, none⟩ (levels + 1) Any puts ∧
    ∀ a : Settings, puts.foldl (fun b put => put a b) ⟨.start, none, none⟩ =
      { a with step := .start } :=
  ⟨_, {
    lawful := .cons (lawful_option Policy.lawful rfl) (.cons (lawful_option lawful_uint32 rfl) .nil)
    names := by decide
    commute := by simp }, fun _ => rfl⟩

/-- The shared members are filled in and the others kept. -/
theorem fill_eq {setting : Setting} {members : List (String × Json.Value)}
    (hvalues : ∀ m ∈ members,
      (Source.ofValue m.2).value (Tagged.valueDepth setting) = .ok m.2)
    (seen : List String) (settings : Settings) :
    fill setting seen settings (Source.ofMembers members) =
      (Record.fill shared setting seen settings
        (Source.ofMembers (members.filter isShared))).map fun met =>
          (met.2, members.filter fun m => !isShared m) := by
  induction members generalizing seen settings with
  | nil => rfl
  | cons m rest ih =>
    have hrest := ih fun m hm => hvalues m (List.mem_cons_of_mem _ hm)
    have hvalue := hvalues m List.mem_cons_self
    rw [Source.ofMembers, fill]
    cases hfind : shared.find? fun f => f.name = m.1 with
    | none =>
      have hshared : isShared m = false := by rw [isShared, hfind]; rfl
      have hfill : (m :: rest).filter isShared = rest.filter isShared :=
        List.filter_cons_of_neg (by simp [hshared])
      have hkeep : ((m :: rest).filter fun m => !isShared m) =
          m :: rest.filter fun m => !isShared m := List.filter_cons_of_pos (by simp [hshared])
      simp only [Leaf.read, bind, Except.bind, hfind, hvalue, hrest, hfill, hkeep]
      cases Record.fill shared setting seen settings
        (Source.ofMembers (rest.filter isShared)) <;> rfl
    | some f =>
      have hshared : isShared m = true := by rw [isShared, hfind]; rfl
      have hkeep : ((m :: rest).filter fun m => !isShared m) =
          rest.filter fun m => !isShared m := List.filter_cons_of_neg (by simp [hshared])
      rw [List.filter_cons_of_pos hshared, Source.ofMembers, Record.fill, hkeep]
      simp only [Leaf.read, bind, Except.bind, hfind]
      by_cases hseen : m.1 ∈ seen
      · rw [if_pos hseen, if_pos hseen]
        rfl
      · rw [if_neg hseen, if_neg hseen]
        cases f.read setting (Source.ofValue m.2) with
        | error e => rfl
        | ok set => exact hrest (m.1 :: seen) (set settings)

theorem isShared_iff {m : String × Json.Value} :
    isShared m = true ↔ m.1 ∈ shared.map Field.name := by
  simp [isShared, List.find?_isSome]

theorem not_isShared_of_step {step : Step} {m : String × Json.Value}
    (hm : m ∈ Step.tagged.members step) : isShared m = false := by
  rw [← Bool.not_eq_true, isShared_iff]
  intro hname
  have htag : m.1 = "kind" :=
    (@Step.lawful 0).tag_of_reserved hm (List.mem_cons_of_mem _ hname)
  rw [htag] at hname
  exact absurd hname (by decide)

theorem isShared_of_written {settings : Settings} {m : String × Json.Value}
    (hm : m ∈ Field.written shared settings) : isShared m = true :=
  isShared_iff.mpr ((Record.Setters.names_written shared settings).subset
    (List.mem_map_of_mem hm))

theorem filter_members (settings : Settings) :
    settings.members.filter isShared = Field.written shared settings := by
  have hstep : (Step.tagged.members settings.step).filter isShared = [] :=
    List.filter_eq_nil_iff.mpr fun m hm => by simp [not_isShared_of_step hm]
  have hwritten : (Field.written shared settings).filter isShared =
      Field.written shared settings :=
    List.filter_eq_self.mpr fun m hm => isShared_of_written hm
  show (_ ++ Field.written shared settings).filter isShared = _
  rw [List.filter_append, hstep, hwritten, List.nil_append]

theorem filter_not_members (settings : Settings) :
    (settings.members.filter fun m => !isShared m) = Step.tagged.members settings.step := by
  have hstep : ((Step.tagged.members settings.step).filter fun m => !isShared m) =
      Step.tagged.members settings.step :=
    List.filter_eq_self.mpr fun m hm => by simp [not_isShared_of_step hm]
  have hwritten : ((Field.written shared settings).filter fun m => !isShared m) = [] :=
    List.filter_eq_nil_iff.mpr fun m hm => by simp [isShared_of_written hm]
  show ((_ ++ Field.written shared settings).filter fun m => !isShared m) = _
  rw [List.filter_append, hstep, hwritten, List.append_nil]

theorem fits_members {settings : Settings} {m : String × Json.Value}
    (hm : m ∈ settings.members) : m.2.Fits (levels + 1) := by
  obtain ⟨puts, hsetters, -⟩ := @exists_setters levels
  rcases List.mem_append.mp hm with hm | hm
  · exact Step.lawful.fits_members (a := settings.step) trivial hm
  · exact hsetters.fits_written (a := settings) trivial hm

theorem names_members (settings : Settings) : (settings.members.map Prod.fst).Nodup := by
  obtain ⟨puts, hsetters, -⟩ := @exists_setters 0
  have hwritten := (Record.Setters.names_written shared settings).nodup hsetters.names
  have hstep := (@Step.lawful 0).names_members settings.step
  show ((Step.tagged.members settings.step ++ Field.written shared settings).map _).Nodup
  rw [List.map_append]
  refine hstep.append hwritten fun name hname hshared => ?_
  obtain ⟨m, hm, rfl⟩ := List.mem_map.mp hname
  obtain ⟨w, hw, heq⟩ := List.mem_map.mp hshared
  have hkept := isShared_of_written hw
  rw [isShared, heq, ← isShared, not_isShared_of_step hm] at hkept
  exact Bool.false_ne_true hkept

/-- Settings are read back from the members of the step and the shared ones, mixed in any
order. -/
theorem lawful : format.Lawful (levels + 2) Any where
  fits {settings} _ := .object settings.names_members fun _ hm => fits_members hm
  not_null _ := by simp [format]
  reads {settings} _ arrange harrange setting hroom := by
    obtain ⟨arranged, heq, hperm⟩ := harrange.object _ settings.names_members
    obtain ⟨inner, henter, hinner⟩ := setting.exists_enter hroom
    obtain ⟨puts, hsetters, hcomplete⟩ := @exists_setters levels
    have hshared : (arranged.filter isShared).Perm
        ((Field.written shared settings).map fun m => (m.1, arrange m.2)) := by
      have hfilter := hperm.filter isShared
      rw [List.filter_map] at hfilter
      rw [← filter_members]
      exact hfilter
    have hstep : (arranged.filter fun m => !isShared m).Perm
        ((Step.tagged.members settings.step).map fun m => (m.1, arrange m.2)) := by
      have hfilter := hperm.filter fun m => !isShared m
      rw [List.filter_map] at hfilter
      rw [← filter_not_members]
      exact hfilter
    have hvalues : ∀ m ∈ arranged,
        (Source.ofValue m.2).value (Tagged.valueDepth inner) = .ok m.2 := by
      intro m hm
      obtain ⟨w, hw, rfl⟩ := List.mem_map.mp (hperm.mem_iff.mp hm)
      exact Source.value_ofValue (harrange.fits (fits_members hw)) hinner
    have hwritten := hsetters.fill_written (a := settings) trivial harrange hinner hshared
    have hfill := fill_eq hvalues [] ⟨.start, none, none⟩
    have hbuffer := Setting.hasRoom_of_ne_text (by decide : Tagged.buffer.medium ≠ .text)
      (levels + 1)
    have hread := Step.lawful.read_members (a := settings.step) trivial harrange hbuffer hstep
    rw [hwritten, hcomplete settings, Except.map] at hfill
    show read setting (Source.ofValue (arrange (.object settings.members))) = .ok settings
    rw [heq, Source.ofValue, read]
    simp only [henter, bind, Except.bind, hfill, Closing.readMembers, hread]
    rfl

end Settings

end Runbook
