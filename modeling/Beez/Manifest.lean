import Beez.Core.Validation
import Beez.Schedule.Cron

/-! # Manifests -/

open Beez.Core Beez.Lib

namespace Beez

/-- What the daemon does when a schedule fires while its own last run still runs. -/
inductive Overlap where
  | skip | queue | parallel
deriving DecidableEq, Repr

/-- One schedule of a manifest, with the policies for the runs it starts. -/
structure JobSchedule where
  name : Option Text
  schedule : Schedule
  onOverlap : Overlap
  catchUp : Bool
  enabled : Bool
  allowUnsandboxed : Bool
deriving DecidableEq

/-- The first name that an earlier schedule or `seen` uses. -/
def repeatedName (seen : List Text) : List JobSchedule → Option Text
  | [] => none
  | schedule :: rest =>
    match schedule.name with
    | none => repeatedName seen rest
    | some name => if name ∈ seen then some name else repeatedName (name :: seen) rest

/-- Names tell the schedules of one manifest apart. -/
structure NamedApart (schedules : List JobSchedule) : Prop where
  named : 1 < schedules.length → ∀ schedule ∈ schedules, schedule.name ≠ none
  distinct : (schedules.filterMap (·.name)).Nodup

/-- Reads every schedule of a manifest, in the order it wrote them. An entry is what
`JobSchedule::try_from` makes of it. -/
def resolve (entries : List (Except Text JobSchedule)) : Except Text (List JobSchedule) := do
  let schedules ← entries.mapM id
  if 1 < schedules.length ∧ schedules.any (·.name.isNone) then
    throw "a manifest with more than one schedule must name each of them".toList
  else match repeatedName [] schedules with
    | some name => throw ("schedule name ".toList ++ name ++ " is used twice".toList)
    | none => return schedules

theorem repeatedName_none {seen : List Text} {schedules : List JobSchedule}
    (h : repeatedName seen schedules = none) :
    (schedules.filterMap (·.name)).Nodup ∧ ∀ name ∈ schedules.filterMap (·.name), name ∉ seen := by
  induction schedules generalizing seen with
  | nil => simp
  | cons schedule rest ih =>
    rw [repeatedName] at h
    cases hname : schedule.name with
    | none =>
      rw [hname] at h
      simpa [List.filterMap_cons, hname] using ih h
    | some name =>
      rw [hname] at h
      dsimp only at h
      split at h
      · cases h
      · rename_i hseen
        obtain ⟨nodup, fresh⟩ := ih h
        rw [List.filterMap_cons, hname]
        refine ⟨List.nodup_cons.mpr ⟨fun hmem => ?_, nodup⟩, fun other hother => ?_⟩
        · exact fresh name hmem (by simp)
        · rcases List.mem_cons.mp hother with rfl | hother
          · exact hseen
          · exact fun hmem => fresh other hother (by simp [hmem])

theorem resolve_namedApart {entries : List (Except Text JobSchedule)}
    {schedules : List JobSchedule} (h : resolve entries = .ok schedules) : NamedApart schedules := by
  rw [resolve, bind_eq_ok] at h
  obtain ⟨read, -, h⟩ := h
  split at h
  · cases h
  rename_i hnamed
  split at h
  · cases h
  rename_i hrepeated
  rw [pure_eq_ok] at h
  subst h
  refine ⟨fun hlen schedule hmem hnone => hnamed ⟨hlen, ?_⟩, (repeatedName_none hrepeated).1⟩
  rw [List.any_eq_true]
  exact ⟨schedule, hmem, by simp [hnone]⟩

/-- A manifest as it is written: its schedules, and its tasks with their sandboxes. Each part
is what reading it gives. -/
structure Document where
  schedule : List (Except Text JobSchedule)
  tasks : Except Text (List TaskDefinition)

/-- A loaded workflow manifest: its tasks, and when it runs. -/
structure Manifest where
  workflow : Workflow
  schedules : List JobSchedule
  namedApart : NamedApart schedules
deriving DecidableEq

/-- The part of `load` after the file is read. -/
def Manifest.ofDocument (document : Document) : Except Text Manifest :=
  match h : resolve document.schedule with
  | .error error => .error error
  | .ok schedules => do
    let definitions ← document.tasks
    match Workflow.tryFrom definitions with
    | .error error => .error error.display
    | .ok workflow => .ok ⟨workflow, schedules, resolve_namedApart h⟩

end Beez
