import Beez.Manifest
import Beez.Schedule.Matches
import Beez.Schedule.Offset

/-! # The entries of a manifest's schedule -/

open Beez.Lib

namespace Beez

/-- What Beez asks of the `chrono` crate. -/
class ChronoCrate where
  /-- `DateTime::parse_from_rfc3339`, as seconds since 1970 and nanoseconds. -/
  parseFromRfc3339 : Text → Option (Int × Nat)

def ScheduleError.display : ScheduleError → Text
  | .empty => "schedule must not be empty".toList
  | .fieldCount count => "cron expression has ".toList ++ decimal count ++
    " fields, but needs 5 (minute hour day-of-month month day-of-week), ".toList ++
    "6 with leading seconds, or 7 with a trailing year".toList
  | .expression error => error
  | .subMinute =>
    "the seconds field must be one fixed value, so a schedule fires at most once a minute".toList
  | .dayOfWeek value => "day of week ".toList ++ value ++
    " is not 0 to 7, where both 0 and 7 mean Sunday".toList
  | .instant value =>
    value ++ " is not an RFC 3339 date and time, such as 2026-09-10T03:00:00Z".toList
  | .offset value =>
    value ++ " is not a fixed offset from UTC, such as Z, +02:00, or -05:30".toList

/-- Reads an RFC 3339 date and time. An instant before 1970 is rejected. -/
def parseInstant [ChronoCrate] (value : Text) : Except ScheduleError Int :=
  match ChronoCrate.parseFromRfc3339 value with
  | none => .error (.instant value)
  | some (seconds, nanos) =>
    if seconds < 0 then .error (.instant value) else .ok (seconds * 1000000000 + nanos)

/-- One schedule as written in a manifest. -/
structure ScheduleFields where
  name : Option Text
  cron : Option Text
  /-- The `at` field. -/
  instant : Option Text
  offset : Option Text
  onOverlap : Overlap
  catchUp : Bool
  enabled : Bool
  allowUnsandboxed : Bool

/-- A manifest's `schedule` field: one entry, or a list of entries. -/
inductive ScheduleSetting where
  | one (fields : ScheduleFields)
  | many (fields : List ScheduleFields)

/-- The entries, in the order they are written. -/
def ScheduleSetting.entries : Option ScheduleSetting → List ScheduleFields
  | none => []
  | some (.one fields) => [fields]
  | some (.many fields) => fields

def ScheduleFields.readOffset (build : Build) (fields : ScheduleFields) :
    ExceptT Text Option (Option UtcOffset) :=
  match fields.offset with
  | none => pure none
  | some value => ExceptT.mk ((UtcOffset.fromStr build value).map fun read =>
      (read.mapError ScheduleError.display).map some)

section

variable [CronCrate] [ChronoCrate]

/-- When the workflow runs. -/
def ScheduleFields.plan (fields : ScheduleFields) (offset : Option UtcOffset) :
    Except Text Schedule :=
  match fields.cron, fields.instant with
  | some _, some _ => .error "schedule must define either cron or at, not both".toList
  | none, none => .error "schedule must define either cron or at".toList
  | some cron, none => do
    let schedule ← (CronSchedule.new cron (offset.getD .utc)).mapError ScheduleError.display
    return .cron schedule
  | none, some value =>
    if offset.isSome then
      .error "at already names its own offset, so offset must be absent".toList
    else do
      let instant ← (parseInstant value).mapError ScheduleError.display
      return .once instant

def JobSchedule.tryFrom (build : Build) (fields : ScheduleFields) : ExceptT Text Option JobSchedule := do
  let offset ← fields.readOffset build
  let schedule ← returned (fields.plan offset)
  return {
    name := fields.name
    schedule
    onOverlap := fields.onOverlap
    catchUp := fields.catchUp
    enabled := fields.enabled
    allowUnsandboxed := fields.allowUnsandboxed
  }

end

/-! ## What an entry describes -/

/-- The offset that is written, or UTC where none is. -/
inductive ScheduleFields.InOffset (build : Build) : Option Text → UtcOffset → Prop
  | utc : InOffset build none .utc
  | named {value : Text} {offset : UtcOffset} (read : UtcOffset.fromStr build value = some (.ok offset)) :
    InOffset build (some value) offset

variable [CronCrate] [ChronoCrate]

/-- An entry has a cron expression that is accepted, read in an offset, or one instant from 1970 on
that names its own. -/
inductive ScheduleFields.Plans (build : Build) (fields : ScheduleFields) : Schedule → Prop
  | cron {expression : Text} {schedule : CronSchedule} (given : fields.cron = some expression)
    (alone : fields.instant = none) (accepted : CronSchedule.Accepts expression)
    (text : schedule.text = Text.trim expression)
    (offset : InOffset build fields.offset schedule.offset) : Plans build fields (.cron schedule)
  | once {value : Text} {seconds : Int} {nanos : Nat} (given : fields.instant = some value)
    (alone : fields.cron = none) (own : fields.offset = none)
    (parsed : ChronoCrate.parseFromRfc3339 value = some (seconds, nanos)) (late : 0 ≤ seconds) :
    Plans build fields (.once (seconds * 1000000000 + nanos))

/-- What an entry has to be, and the schedule it gives. -/
structure ScheduleFields.Gives (build : Build) (fields : ScheduleFields) (job : JobSchedule) : Prop where
  plan : fields.Plans build job.schedule
  name : job.name = fields.name
  policies : job.onOverlap = fields.onOverlap ∧ job.catchUp = fields.catchUp ∧
    job.enabled = fields.enabled ∧ job.allowUnsandboxed = fields.allowUnsandboxed

section

variable {build : Build} {fields : ScheduleFields}

omit [CronCrate] [ChronoCrate] in
theorem readOffset_eq_ok {offset : Option UtcOffset} :
    (fields.readOffset build).run = some (.ok offset) ↔
      fields.offset = none ∧ offset = none ∨ ∃ value read, fields.offset = some value ∧
        UtcOffset.fromStr build value = some (.ok read) ∧ offset = some read := by
  unfold ScheduleFields.readOffset
  cases fields.offset with
  | none => simp [eq_comm]
  | some value =>
    dsimp only [ExceptT.run_mk]
    cases hread : UtcOffset.fromStr build value with
    | none => simp [hread]
    | some result =>
      cases result with
      | error error => simp [hread, Except.mapError, Except.map]
      | ok read => simp [hread, Except.mapError, Except.map, eq_comm]

omit [CronCrate] in
theorem parseInstant_eq_ok {value : Text} {instant : Int} :
    parseInstant value = .ok instant ↔ ∃ seconds nanos,
      ChronoCrate.parseFromRfc3339 value = some (seconds, nanos) ∧ 0 ≤ seconds ∧
        instant = seconds * 1000000000 + nanos := by
  unfold parseInstant
  cases ChronoCrate.parseFromRfc3339 value with
  | none => simp
  | some parsed =>
    obtain ⟨seconds, nanos⟩ := parsed
    dsimp only
    split
    · rename_i early
      simp only [reduceCtorEq, Option.some.injEq, Prod.mk.injEq, false_iff, not_exists]
      rintro _ _ ⟨⟨rfl, rfl⟩, late, -⟩
      omega
    · rename_i late
      simp [eq_comm, not_lt.mp late]

theorem plan_eq_ok {offset : Option UtcOffset} {schedule : Schedule} :
    fields.plan offset = .ok schedule ↔
      (∃ expression read, fields.cron = some expression ∧ fields.instant = none ∧
        CronSchedule.new expression (offset.getD .utc) = .ok read ∧ schedule = .cron read) ∨
      ∃ value instant, fields.instant = some value ∧ fields.cron = none ∧ offset = none ∧
        parseInstant value = .ok instant ∧ schedule = .once instant := by
  unfold ScheduleFields.plan
  cases fields.cron with
  | none =>
    cases fields.instant with
    | none => simp
    | some value =>
      cases offset with
      | none =>
        simp only [Option.isSome_none, Bool.false_eq_true, if_false, bind_eq_ok, mapError_eq_ok,
          pure_eq_ok]
        simp [eq_comm]
      | some offset => simp
  | some expression =>
    cases fields.instant with
    | none =>
      simp only [bind_eq_ok, mapError_eq_ok, pure_eq_ok]
      simp [eq_comm]
    | some value => simp

theorem plans_iff {schedule : Schedule} : fields.Plans build schedule ↔
    ∃ offset, (fields.readOffset build).run = some (.ok offset) ∧
      fields.plan offset = .ok schedule := by
  constructor
  · rintro (⟨given, alone, accepted, text, offset⟩ | ⟨given, alone, own, parsed, late⟩)
    · rename_i expression read
      have made : CronSchedule.new expression read.offset = .ok read :=
        CronSchedule.new_iff.mpr ⟨accepted, text, rfl⟩
      cases hoffset : fields.offset with
      | none =>
        rw [hoffset] at offset
        generalize read.offset = found at offset made
        cases offset
        exact ⟨none, readOffset_eq_ok.mpr (.inl ⟨hoffset, rfl⟩),
          plan_eq_ok.mpr (.inl ⟨_, _, given, alone, made, rfl⟩)⟩
      | some value =>
        rw [hoffset] at offset
        generalize read.offset = found at offset made
        cases offset with
        | named hread =>
          exact ⟨some found, readOffset_eq_ok.mpr (.inr ⟨value, found, hoffset, hread, rfl⟩),
            plan_eq_ok.mpr (.inl ⟨_, _, given, alone, made, rfl⟩)⟩
    · exact ⟨none, readOffset_eq_ok.mpr (.inl ⟨own, rfl⟩), plan_eq_ok.mpr (.inr ⟨_, _, given, alone,
        rfl, parseInstant_eq_ok.mpr ⟨_, _, parsed, late, rfl⟩, rfl⟩)⟩
  · rintro ⟨offset, hoffset, hplan⟩
    rw [readOffset_eq_ok] at hoffset
    rcases plan_eq_ok.mp hplan with ⟨expression, read, given, alone, made, rfl⟩ |
      ⟨value, instant, given, alone, rfl, parsed, rfl⟩
    · obtain ⟨accepted, text, same⟩ := CronSchedule.new_iff.mp made
      refine .cron given alone accepted text ?_
      rcases hoffset with ⟨own, rfl⟩ | ⟨value, named, own, hread, rfl⟩
      · rw [own, same]
        exact .utc
      · rw [own, same]
        exact .named hread
    · obtain ⟨seconds, nanos, known, late, rfl⟩ := parseInstant_eq_ok.mp parsed
      have own : fields.offset = none := by
        rcases hoffset with ⟨own, -⟩ | ⟨value, named, -, -, same⟩
        · exact own
        · cases same
      exact .once given alone own known late

/-- An entry is accepted for the schedule it describes, and for no other reason. -/
theorem JobSchedule.tryFrom_eq_ok {job : JobSchedule} :
    (JobSchedule.tryFrom build fields).run = some (.ok job) ↔ fields.Gives build job := by
  unfold JobSchedule.tryFrom
  simp only [run_bind_eq_ok, run_returned, Option.some.injEq, run_pure_eq_ok]
  constructor
  · rintro ⟨offset, hoffset, schedule, hplan, rfl⟩
    exact ⟨plans_iff.mpr ⟨offset, hoffset, hplan⟩, rfl, rfl, rfl, rfl, rfl⟩
  · obtain ⟨name, schedule, onOverlap, catchUp, enabled, allowUnsandboxed⟩ := job
    rintro ⟨plans, rfl, rfl, rfl, rfl, rfl⟩
    obtain ⟨offset, hoffset, hplan⟩ := plans_iff.mp plans
    exact ⟨offset, hoffset, schedule, hplan, rfl⟩

omit [CronCrate] [ChronoCrate] in
theorem fromStr_wrapping (value : Text) : UtcOffset.fromStr .wrapping value ≠ none := by
  unfold UtcOffset.fromStr
  split
  · exact Option.some_ne_none _
  split
  · exact Option.some_ne_none _
  · have fit := Build.wrapping_fit_ne_none
    refine bind_ne_none (fit _) fun ofHours => bind_ne_none (fit _) fun ofMinutes =>
      bind_ne_none (fit _) fun sum => bind_ne_none (fit _) fun seconds =>
      bind_ne_none (fit _) fun size => ?_
    split
    · exact Option.some_ne_none _
    · exact Option.some_ne_none _

/-- Reading an entry panics only where the seconds of its offset overflow in a build that checks. -/
theorem JobSchedule.tryFrom_panics (h : (JobSchedule.tryFrom build fields).run = none) :
    build = .checked ∧ ∃ value, fields.offset = some value ∧
      UtcOffset.fromStr .checked value = none := by
  unfold JobSchedule.tryFrom at h
  simp only [run_bind_eq_none, run_returned, reduceCtorEq, false_or] at h
  rcases h with h | ⟨offset, -, schedule, -, h⟩
  · unfold ScheduleFields.readOffset at h
    cases hoffset : fields.offset with
    | none =>
      rw [hoffset] at h
      cases h
    | some value =>
      rw [hoffset] at h
      have panics : UtcOffset.fromStr build value = none := by simpa using h
      cases build with
      | checked => exact ⟨rfl, value, rfl, panics⟩
      | wrapping => exact absurd panics (fromStr_wrapping value)
  · cases h

end

end Beez
