import Beez.Lib.Fallible
import Beez.Lib.I32
import Beez.Text

/-! # Cron expressions that keep their crontab meaning

A time is a number of nanoseconds since 1970.
-/

namespace Beez

/-- What Beez asks of the `cron` crate, by the text of an expression. -/
class CronCrate where
  /-- Why `cron::Schedule::from_str` refuses an expression, when it does. -/
  refusal : Text → Option Text
  /-- `schedule.after(&start).next()` in a fixed offset, in seconds east. -/
  after : Text → Int → Int → Option Int

/-- What the documentation of `after` promises: a whole second, later than the start. -/
class CronCrate.Lawful (crate : CronCrate) : Prop where
  later : ∀ expression offset start next,
    crate.after expression offset start = some next → start < next
  whole : ∀ expression offset start next,
    crate.after expression offset start = some next → next % 1000000000 = 0

/-- What the documentation of `after` promises of one iterator: a later start finds the same time
until it has passed, and nothing once nothing is left. -/
class CronCrate.Ordered (crate : CronCrate) : Prop where
  same : ∀ expression offset start later next, crate.after expression offset start = some next →
    start ≤ later → later < next → crate.after expression offset later = some next
  spent : ∀ expression offset start later, crate.after expression offset start = none →
    start ≤ later → crate.after expression offset later = none

/-- A crate that finds no time, which is enough where every schedule is one instant. -/
abbrev CronCrate.unused : CronCrate := ⟨fun _ => none, fun _ _ _ => none⟩

instance : CronCrate.unused.Lawful := ⟨nofun, nofun⟩

instance : CronCrate.unused.Ordered := ⟨nofun, fun _ _ _ _ _ _ => rfl⟩

/-- Reports a schedule Beez cannot use. -/
inductive ScheduleError where
  | empty
  | fieldCount (count : Nat)
  | expression (error : Text)
  | subMinute
  | dayOfWeek (value : Text)
  | instant (value : Text)
  | offset (value : Text)
deriving DecidableEq

/-- A fixed offset from UTC, in seconds east. -/
structure UtcOffset where
  seconds : Lib.I32
deriving DecidableEq

/-- `FixedOffset::east_opt`. -/
def UtcOffset.fixed (offset : UtcOffset) : Option Int :=
  if -86400 < offset.seconds.val ∧ offset.seconds.val < 86400 then some offset.seconds.val else none

/-! ## From crontab fields to the fields of the crate -/

def shiftDayOfWeek (day : Text) : Except ScheduleError Text :=
  if !Text.isDigits day then .ok day
  else if 7 < Text.ofDigits day then .error (.dayOfWeek day)
  -- Both 0 and 7 are Sunday, which the parser counts as 1.
  else .ok (Nat.toDigits 10 (Text.ofDigits day % 7 + 1))

/-- `parts.join(separator)`. -/
def joinWith (separator : Char) : List Text → Text
  | [] => []
  | [part] => part
  | part :: rest => part ++ separator :: joinWith separator rest

/-- Moves the days of one term of a day-of-week field. A step stays as it is. -/
def shiftTerm (term : Text) : Except ScheduleError Text := do
  let (days, step) := match Text.splitOnce '/' term with
    | some (days, step) => (days, some step)
    | none => (term, none)
  let days ← (Text.splitOn '-' days).mapM shiftDayOfWeek
  return match step with
    | some step => joinWith '-' days ++ '/' :: step
    | none => joinWith '-' days

/-- Moves a crontab day of week to the number the parser counts in. -/
def shiftDaysOfWeek (field : Text) : Except ScheduleError Text := do
  let terms ← (Text.splitOn ',' field).mapM shiftTerm
  return joinWith ',' terms

def dayOfMonth : Nat := 3
def dayOfWeek : Nat := 5

/-- Puts an expression in the form the parser reads. -/
def normalize (text : Text) : Except ScheduleError (List Text) := do
  let fields := Text.splitWhitespace text
  let fields ← match fields.length with
    | 5 => .ok (['0'] :: fields)
    | 6 | 7 => .ok fields
    | count => .error (.fieldCount count)
  -- A workflow run must not start more than once a minute.
  if !Text.isDigits (fields.headD []) then throw .subMinute
  fields.zipIdx.mapM fun (field, position) =>
    if position = dayOfWeek then shiftDaysOfWeek field else .ok field

/-- True when a field names days rather than every day. -/
def restricts (field : Text) : Bool := field != ['*'] && field != ['?']

/-- Rewrites one field of an expression. -/
def withField (fields : List Text) (position : Nat) (value : Text) : Text :=
  joinWith ' ' (fields.set position value)

/-- The expression that fires a trimmed text, and the day-of-week half when a crontab would
read "either day". -/
def expressions (text : Text) : Except ScheduleError (Text × Option Text) :=
  if text = [] then .error .empty
  else if text.head? = some '@' then .ok (text, none)
  else do
    let fields ← normalize text
    let field := fun position => fields.getD position ['*']
    if restricts (field dayOfMonth) && restricts (field dayOfWeek) then
      return (withField fields dayOfWeek ['*'], some (withField fields dayOfMonth ['*']))
    else return (joinWith ' ' fields, none)

/-- A cron expression and the offset it is read in. The parsed schedules are kept by their
expressions. -/
structure CronSchedule where
  text : Text
  offset : UtcOffset
  primary : Text
  alternate : Option Text
  compiled : expressions text = .ok (primary, alternate)

/-- Two schedules are the same when they are written the same way. -/
instance : DecidableEq CronSchedule := fun a b =>
  if h : a.text = b.text ∧ a.offset = b.offset then
    .isTrue (by
      obtain ⟨text, offset, primary, alternate, compiled⟩ := a
      obtain ⟨text', offset', primary', alternate', compiled'⟩ := b
      obtain ⟨rfl, rfl⟩ := h
      dsimp only at compiled'
      rw [compiled, Except.ok.injEq, Prod.mk.injEq] at compiled'
      simp [compiled'.1, compiled'.2])
  else .isFalse (fun heq => h (by simp [heq]))

section

variable [CronCrate]

/-- Reads `expression` and fires it in `offset`. -/
def CronSchedule.new (expression : Text) (offset : UtcOffset) : Except ScheduleError CronSchedule :=
  let text := Text.trim expression
  match compiled : expressions text with
  | .error error => .error error
  | .ok (primary, alternate) =>
    match CronCrate.refusal primary, alternate.bind CronCrate.refusal with
    | some error, _ => .error (.expression error)
    | none, some error => .error (.expression error)
    | none, none => .ok ⟨text, offset, primary, alternate, compiled⟩

/-- The first time the expression matches after `time`. -/
def CronSchedule.nextAfter (schedule : CronSchedule) (time : Int) : Option Int := do
  let offset ← schedule.offset.fixed
  let primary := CronCrate.after schedule.primary offset time
  let alternate := schedule.alternate.bind fun expression => CronCrate.after expression offset time
  match primary, alternate with
  | some primary, some alternate => some (min primary alternate)
  | some next, none | none, some next => some next
  | none, none => none

/-- Whatever the schedule finds, one of its expressions found it. -/
theorem CronSchedule.nextAfter_eq {schedule : CronSchedule} {time next : Int}
    (h : schedule.nextAfter time = some next) :
    ∃ expression offset, CronCrate.after expression offset time = some next := by
  rw [nextAfter] at h
  obtain ⟨east, -, h⟩ := Option.bind_eq_some_iff.mp h
  cases hp : CronCrate.after schedule.primary east time with
  | none =>
    cases ha : schedule.alternate.bind fun expression =>
        CronCrate.after expression east time with
    | none => simp [hp, ha] at h
    | some alternate =>
      obtain ⟨expression, -, hafter⟩ := Option.bind_eq_some_iff.mp ha
      simp [hp, ha] at h
      exact ⟨expression, _, h ▸ hafter⟩
  | some primary =>
    cases ha : schedule.alternate.bind fun expression =>
        CronCrate.after expression east time with
    | none =>
      simp [hp, ha] at h
      exact ⟨_, _, h ▸ hp⟩
    | some alternate =>
      obtain ⟨expression, -, hafter⟩ := Option.bind_eq_some_iff.mp ha
      simp [hp, ha] at h
      have hmin : min primary alternate = primary ∨ min primary alternate = alternate := by omega
      rcases hmin with hmin | hmin
      · exact ⟨_, _, by rw [hp, ← h, hmin]⟩
      · exact ⟨expression, _, by rw [hafter, ← h, hmin]⟩

theorem CronSchedule.nextAfter_later [CronCrate.Ordered ‹CronCrate›]
    {schedule : CronSchedule} {start later next : Int} (h : schedule.nextAfter start = some next)
    (after : start ≤ later) (before : later < next) : schedule.nextAfter later = some next := by
  rw [nextAfter] at h ⊢
  obtain ⟨east, heast, h⟩ := Option.bind_eq_some_iff.mp h
  rw [heast]
  have stream : ∀ expression, (∀ found, CronCrate.after expression east start = some found →
      later < found) → CronCrate.after expression east later =
        CronCrate.after expression east start := by
    intro expression ahead
    cases found : CronCrate.after expression east start with
    | none => exact CronCrate.Ordered.spent _ _ _ _ found after
    | some time => exact CronCrate.Ordered.same _ _ _ _ _ found after (ahead time found)
  have both : (∀ found, CronCrate.after schedule.primary east start = some found → later < found) ∧
      ∀ found, (schedule.alternate.bind fun expression =>
        CronCrate.after expression east start) = some found → later < found := by
    cases hp : CronCrate.after schedule.primary east start with
    | none =>
      cases ha : schedule.alternate.bind fun expression =>
          CronCrate.after expression east start with
      | none => simp
      | some alternate =>
        have : alternate = next := by simpa [hp, ha] using h
        simp
        omega
    | some primary =>
      cases ha : schedule.alternate.bind fun expression =>
          CronCrate.after expression east start with
      | none =>
        have : primary = next := by simpa [hp, ha] using h
        simp
        omega
      | some alternate =>
        have : min primary alternate = next := by simpa [hp, ha] using h
        simp
        omega
  have alternate : (schedule.alternate.bind fun expression =>
      CronCrate.after expression east later) =
        schedule.alternate.bind fun expression => CronCrate.after expression east start := by
    cases ha : schedule.alternate with
    | none => rfl
    | some expression =>
      rw [ha] at both
      exact stream expression both.2
  simp only [Option.bind_eq_bind, Option.bind_some] at h ⊢
  rw [stream schedule.primary both.1, alternate]
  exact h

end

/-! ## Schedules -/

/-- When a job runs. -/
inductive Schedule where
  | cron (schedule : CronSchedule)
  | once (instant : Int)
deriving DecidableEq

namespace Schedule

variable [CronCrate]

/-- The first time this schedule fires after `time`. -/
def nextAfter : Schedule → Int → Option Int
  | .cron schedule, time => schedule.nextAfter time
  | .once instant, time => if time < instant then some instant else none

def isRecurring : Schedule → Bool
  | .cron _ => true
  | .once _ => false

theorem lt_of_nextAfter [CronCrate.Lawful ‹CronCrate›] {schedule : Schedule} {time next : Int}
    (h : schedule.nextAfter time = some next) : time < next := by
  cases schedule with
  | cron schedule =>
    obtain ⟨expression, offset, hafter⟩ := CronSchedule.nextAfter_eq h
    exact CronCrate.Lawful.later _ _ _ _ hafter
  | once instant =>
    rw [nextAfter] at h
    split at h
    · simp only [Option.some.injEq] at h
      omega
    · cases h

/-- A time at which the schedule fires. -/
def Hits (schedule : Schedule) (time : Int) : Prop :=
  ∃ base, schedule.nextAfter base = some time

theorem Hits.of_once {instant time : Int} (h : (Schedule.once instant).Hits time) :
    time = instant := by
  obtain ⟨base, h⟩ := h
  rw [nextAfter] at h
  split at h
  · simpa using h.symm
  · cases h

theorem Hits.whole [CronCrate.Lawful ‹CronCrate›] {schedule : CronSchedule} {time : Int}
    (h : (Schedule.cron schedule).Hits time) : time % 1000000000 = 0 := by
  obtain ⟨base, h⟩ := h
  obtain ⟨expression, offset, hafter⟩ := CronSchedule.nextAfter_eq h
  exact CronCrate.Lawful.whole _ _ _ _ hafter

theorem nextAfter_later [CronCrate.Ordered ‹CronCrate›] {schedule : Schedule}
    {start later next : Int} (h : schedule.nextAfter start = some next) (after : start ≤ later)
    (before : later < next) : schedule.nextAfter later = some next := by
  cases schedule with
  | cron schedule => exact CronSchedule.nextAfter_later h after before
  | once instant =>
    simp only [nextAfter, Option.ite_none_right_eq_some, Option.some.injEq] at h ⊢
    exact ⟨h.2 ▸ before, h.2⟩

end Schedule

end Beez
