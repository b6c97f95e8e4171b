import Beez.Lib.Calendar
import Beez.Lib.First
import Beez.Schedule.Weekdays
import Mathlib.Data.List.Forall2

/-! # The times a cron expression matches -/

open Beez.Lib

namespace Beez

/-! ## Local time -/

structure LocalTime where
  second : Nat
  minute : Nat
  hour : Nat
  day : Nat
  month : Nat
  /-- Counted from Sunday as 1. -/
  weekday : Nat
  year : Int
deriving DecidableEq

/-- The local time `seconds` after 1970, which began on a Thursday. -/
def LocalTime.ofSeconds (seconds : Int) : LocalTime :=
  let date := Date.ofDays (seconds / 86400)
  let clock := (seconds % 86400).toNat
  { second := clock % 60
    minute := clock / 60 % 60
    hour := clock / 3600
    day := date.day
    month := date.month
    weekday := ((seconds / 86400 + 4) % 7).toNat + 1
    year := date.year }

/-- The value that the field at a position is about. -/
def LocalTime.value (time : LocalTime) : Nat → Int
  | 0 => time.second
  | 1 => time.minute
  | 2 => time.hour
  | 3 => time.day
  | 4 => time.month
  | 5 => time.weekday
  | _ => time.year

def LocalTime.at (east instant : Int) : LocalTime := .ofSeconds (instant / 1000000000 + east)

/-- A time in one of the years that the crate knows. -/
def LocalTime.Known (time : LocalTime) : Prop := 1970 ≤ time.year ∧ time.year ≤ 2100

/-! ## What an expression means -/

/-- The texts between separators are related one by one. -/
def Joined (separator : Char) (R : Text → Text → Prop) (text other : Text) : Prop :=
  ∃ parts parts', parts ≠ [] ∧ (∀ part ∈ parts, separator ∉ part) ∧ List.Forall₂ R parts parts' ∧
    text = joinWith separator parts ∧ other = joinWith separator parts'

/-- A day of the week, and the same day as the crate numbers it. -/
inductive DayRenumbered : Text → Text → Prop
  | number {day : Text} (digits : Text.isDigits day) (less : Text.ofDigits day < 7) :
      DayRenumbered day (Nat.toDigits 10 (Text.ofDigits day + 1))
  | sunday {day : Text} (digits : Text.isDigits day) (seven : Text.ofDigits day = 7) :
      DayRenumbered day ['1']
  | other {day : Text} (letters : Text.isDigits day = false) : DayRenumbered day day

/-- The days of a term are renumbered, and its step stays. -/
inductive TermRenumbered : Text → Text → Prop
  | days {days days' : Text} (slash : '/' ∉ days) (each : Joined '-' DayRenumbered days days') :
      TermRenumbered days days'
  | step {days days' : Text} (step : Text) (slash : '/' ∉ days)
      (each : Joined '-' DayRenumbered days days') :
      TermRenumbered (days ++ '/' :: step) (days' ++ '/' :: step)

/-- A day-of-week field of a crontab, and the same field by the numbers of the crate. -/
def Renumbered : Text → Text → Prop := Joined ',' TermRenumbered

/-- The fields of an expression, by what they are about. -/
structure Crontab where
  second : Text
  minute : Text
  hour : Text
  day : Text
  month : Text
  weekday : Text
  year : Option Text

/-- Five fields are those of a crontab, at second 0. Six start with the second, and seven end with
the year. -/
inductive Crontab.Of : List Text → Crontab → Prop
  | five (minute hour day month weekday : Text) :
      Of [minute, hour, day, month, weekday] ⟨['0'], minute, hour, day, month, weekday, none⟩
  | six (second minute hour day month weekday : Text) :
      Of [second, minute, hour, day, month, weekday]
        ⟨second, minute, hour, day, month, weekday, none⟩
  | seven (second minute hour day month weekday year : Text) :
      Of [second, minute, hour, day, month, weekday, year]
        ⟨second, minute, hour, day, month, weekday, some year⟩

/-- A field that names some days. A star and a question mark stand for every day. -/
def Restricted (field : Text) : Prop := field ≠ ['*'] ∧ field ≠ ['?']

instance (field : Text) : Decidable (Restricted field) :=
  inferInstanceAs (Decidable (field ≠ ['*'] ∧ field ≠ ['?']))

section

variable [CronCrate]

/-- How the crate reads an expression: which values a field holds, and which times a shorthand such
as `@daily` names. -/
structure CronCrate.Reading where
  holds : Nat → Text → Int → Prop
  shorthand : Text → LocalTime → Prop
  /-- A star holds every day of the month and every day of the week. -/
  star : ∀ value, holds dayOfMonth ['*'] value ∧ holds dayOfWeek ['*'] value
  /-- A number holds one second. -/
  number : ∀ field value, Text.isDigits field → holds 0 field value → value = Text.ofDigits field
  /-- A shorthand is one word. -/
  word : ∀ text, text.head? = some '@' → CronCrate.refusal text = none →
    Text.splitWhitespace text = [text]
  /-- `after` finds the later instants at which all fields match, in order, up to the last year that
  the crate knows. -/
  next : ∀ expression, CronCrate.refusal expression = none → ∀ east start,
    FirstAfter (fun instant => instant % 1000000000 = 0 ∧ (LocalTime.at east instant).Known ∧
      if expression.head? = some '@' then shorthand expression (.at east instant)
      else ∀ position field, (Text.splitWhitespace expression)[position]? = some field →
        holds position field ((LocalTime.at east instant).value position)) start
      (CronCrate.after expression east start)

variable (reading : CronCrate.Reading)

/-- Every field but the two of days holds the time. -/
structure Crontab.Timed (crontab : Crontab) (time : LocalTime) : Prop where
  second : reading.holds 0 crontab.second time.second
  minute : reading.holds 1 crontab.minute time.minute
  hour : reading.holds 2 crontab.hour time.hour
  month : reading.holds 4 crontab.month time.month
  year : ∀ field ∈ crontab.year, reading.holds 6 field time.year

def Crontab.OnDay (crontab : Crontab) (time : LocalTime) : Prop :=
  reading.holds 3 crontab.day time.day

/-- The crate counts the days of the week from Sunday as 1. -/
def Crontab.OnWeekday (crontab : Crontab) (time : LocalTime) : Prop :=
  ∃ numbered, Renumbered crontab.weekday numbered ∧ reading.holds 5 numbered time.weekday

/-- Where both kinds of day are restricted, either is enough. -/
structure Crontab.Matches (crontab : Crontab) (time : LocalTime) : Prop where
  timed : crontab.Timed reading time
  days : if Restricted crontab.day ∧ Restricted crontab.weekday then
      crontab.OnDay reading time ∨ crontab.OnWeekday reading time
    else crontab.OnDay reading time ∧ crontab.OnWeekday reading time

/-- A trimmed text is a shorthand, or its words are the fields of a crontab. -/
def CronCrate.Reading.Means (text : Text) (time : LocalTime) : Prop :=
  if text.head? = some '@' then reading.shorthand text time
  else ∃ crontab, Crontab.Of (Text.splitWhitespace text) crontab ∧ crontab.Matches reading time

/-- An expression matches at the whole second `instant`, in the local time of an offset. -/
def CronCrate.Reading.Matches (expression : Text) (offset : UtcOffset) (instant : Int) : Prop :=
  ∃ east, offset.fixed = some east ∧ instant % 1000000000 = 0 ∧
    (LocalTime.at east instant).Known ∧
    reading.Means (Text.trim expression) (.at east instant)

end

/-! ## The shift, as a relation -/

theorem joinWith_cons_cons (separator c : Char) (part : Text) (parts : List Text) :
    joinWith separator ((c :: part) :: parts) = c :: joinWith separator (part :: parts) := by
  cases parts with
  | nil => rfl
  | cons next rest => rfl

theorem joinWith_splitOn (separator : Char) (text : Text) :
    joinWith separator (Text.splitOn separator text) = text := by
  induction text with
  | nil => rfl
  | cons c rest ih =>
    rw [Text.splitOn]
    cases hrest : Text.splitOn separator rest with
    | nil => exact absurd hrest (Text.splitOn_ne_nil separator rest)
    | cons part parts =>
      rw [hrest] at ih
      split
      · rename_i same
        rw [joinWith, ih, same, List.nil_append]
        simp
      · rw [joinWith_cons_cons, ih]

theorem mem_joinWith {separator c : Char} {parts : List Text} (h : c ∈ joinWith separator parts) :
    c = separator ∨ ∃ part ∈ parts, c ∈ part := by
  induction parts with
  | nil => cases h
  | cons part rest ih =>
    cases rest with
    | nil => exact .inr ⟨part, by simp, h⟩
    | cons next rest =>
      rw [joinWith, List.mem_append, List.mem_cons] at h
      · rcases h with mem | same | mem
        · exact .inr ⟨part, by simp, mem⟩
        · exact .inl same
        · rcases ih mem with same | ⟨other, hother, mem⟩
          · exact .inl same
          · exact .inr ⟨other, List.mem_cons_of_mem _ hother, mem⟩
      · simp

theorem mem_joinWith_of_mem {separator c : Char} {part : Text} {parts : List Text}
    (hpart : part ∈ parts) (mem : c ∈ part) : c ∈ joinWith separator parts := by
  induction parts with
  | nil => cases hpart
  | cons first rest ih =>
    cases rest with
    | nil => exact List.mem_singleton.mp hpart ▸ mem
    | cons next rest =>
      rw [joinWith, List.mem_append, List.mem_cons]
      · rcases List.mem_cons.mp hpart with rfl | hpart
        · exact .inl mem
        · exact .inr (.inr (ih hpart))
      · simp

theorem not_mem_of_mem_splitOn {separator : Char} {text part : Text}
    (h : part ∈ Text.splitOn separator text) : separator ∉ part := by
  induction text generalizing part with
  | nil =>
    obtain rfl := List.mem_singleton.mp h
    exact List.not_mem_nil
  | cons c rest ih =>
    rw [Text.splitOn] at h
    split at h
    · rcases List.mem_cons.mp h with rfl | h
      · exact List.not_mem_nil
      · exact ih h
    · rename_i other
      cases hrest : Text.splitOn separator rest with
      | nil => exact absurd hrest (Text.splitOn_ne_nil separator rest)
      | cons first parts =>
        rw [hrest] at h ih
        rcases List.mem_cons.mp h with rfl | h
        · rw [List.mem_cons, not_or]
          exact ⟨Ne.symm other, ih List.mem_cons_self⟩
        · exact ih (List.mem_cons_of_mem _ h)

theorem joined_iff {separator : Char} {R : Text → Text → Prop} {text other : Text} :
    Joined separator R text other ↔
      ∃ parts, List.Forall₂ R (Text.splitOn separator text) parts ∧
        other = joinWith separator parts := by
  constructor
  · rintro ⟨parts, parts', nonempty, clear, each, rfl, rfl⟩
    rw [splitOn_joinWith nonempty clear]
    exact ⟨parts', each, rfl⟩
  · rintro ⟨parts, each, rfl⟩
    exact ⟨_, parts, Text.splitOn_ne_nil separator text,
      fun part mem => not_mem_of_mem_splitOn mem, each, (joinWith_splitOn separator text).symm, rfl⟩

theorem shiftDayOfWeek_iff {day shifted : Text} :
    shiftDayOfWeek day = .ok shifted ↔ DayRenumbered day shifted := by
  unfold shiftDayOfWeek
  constructor
  · intro h
    split at h
    · rename_i letters
      obtain rfl := Except.ok.inj h
      exact .other (by simpa using letters)
    · rename_i digits
      split at h
      · cases h
      · rename_i le
        have digits' : Text.isDigits day := by simpa using digits
        obtain rfl := Except.ok.inj h
        rcases Nat.lt_or_eq_of_le (Nat.le_of_not_lt le) with less | seven
        · rw [Nat.mod_eq_of_lt less]
          exact .number digits' less
        · rw [seven]
          exact .sunday digits' seven
  · intro renumbered
    cases renumbered with
    | number digits less => simp [digits, Nat.mod_eq_of_lt less, Nat.le_of_lt less]
    | sunday digits seven =>
      have sunday : Nat.toDigits 10 1 = ['1'] := by decide
      rw [seven]
      simp [digits, sunday]
    | other letters => simp [letters]

theorem mapM_iff {R : Text → Text → Prop} {f : Text → Except ScheduleError Text}
    (each : ∀ part part', f part = .ok part' ↔ R part part') {separator : Char}
    {text other : Text} : (∃ parts, (Text.splitOn separator text).mapM f = .ok parts ∧
      other = joinWith separator parts) ↔ Joined separator R text other := by
  obtain rfl : (fun part part' => f part = .ok part') = R :=
    funext fun part => funext fun part' => propext (each part part')
  rw [joined_iff]
  constructor
  · rintro ⟨parts, h, same⟩
    exact ⟨parts, mapM_eq_ok h, same⟩
  · rintro ⟨parts, h, same⟩
    exact ⟨parts, mapM_of_forall₂ h, same⟩

theorem shiftTerm_iff {term shifted : Text} :
    shiftTerm term = .ok shifted ↔ TermRenumbered term shifted := by
  have days := @mapM_iff DayRenumbered shiftDayOfWeek (fun _ _ => shiftDayOfWeek_iff) '-'
  unfold shiftTerm
  rcases Text.splitOnce_cases '/' term with ⟨slash, cut⟩ | ⟨before, step, slash, rfl, cut⟩
  · rw [cut]
    constructor
    · intro h
      obtain ⟨parts, hparts, h⟩ := bind_eq_ok.mp h
      obtain rfl := Except.ok.inj h
      exact .days slash (days.mp ⟨parts, hparts, rfl⟩)
    · intro renumbered
      cases renumbered with
      | days _ each =>
        obtain ⟨parts, hparts, rfl⟩ := days.mpr each
        exact bind_eq_ok.mpr ⟨parts, hparts, rfl⟩
      | step => simp at slash
  · rw [cut]
    constructor
    · intro h
      obtain ⟨parts, hparts, h⟩ := bind_eq_ok.mp h
      obtain rfl := Except.ok.inj h
      exact .step step slash (days.mp ⟨parts, hparts, rfl⟩)
    · intro renumbered
      generalize whole : before ++ '/' :: step = term at renumbered
      cases renumbered with
      | days slash' =>
        rw [← whole] at slash'
        simp at slash'
      | step step' slash' each =>
        rw [whole, Text.splitOnce_append slash'] at cut
        obtain ⟨rfl, rfl⟩ := Prod.mk.inj (Option.some.inj cut)
        obtain ⟨parts, hparts, rfl⟩ := days.mpr each
        exact bind_eq_ok.mpr ⟨parts, hparts, rfl⟩

/-- The code renumbers a day-of-week field, or refuses a number over 7. -/
theorem shiftDaysOfWeek_iff {field shifted : Text} :
    shiftDaysOfWeek field = .ok shifted ↔ Renumbered field shifted := by
  have terms := @mapM_iff TermRenumbered shiftTerm (fun _ _ => shiftTerm_iff) ','
  unfold shiftDaysOfWeek
  constructor
  · intro h
    obtain ⟨parts, hparts, h⟩ := bind_eq_ok.mp h
    obtain rfl := Except.ok.inj h
    exact terms.mp ⟨parts, hparts, rfl⟩
  · intro renumbered
    obtain ⟨parts, hparts, rfl⟩ := terms.mpr renumbered
    exact bind_eq_ok.mpr ⟨parts, hparts, rfl⟩

/-! ## The fields of a normalized expression -/

/-- What stands for `text` has no white space that `text` has not, is not empty unless it is, and is
one sign other than a digit just where it is. -/
structure Tidy (text other : Text) : Prop where
  nonempty : other = [] → text = []
  clear : (∀ c ∈ text, Text.isWhitespace c = false) → ∀ c ∈ other, Text.isWhitespace c = false
  wild : ∀ c, c = '*' ∨ c = '?' → (other = [c] ↔ text = [c])

theorem Tidy.word {text other : Text} (tidy : Tidy text other) (word : Text.Word text) :
    Text.Word other :=
  ⟨fun h => word.nonempty (tidy.nonempty h), tidy.clear word.clear⟩

theorem Tidy.refl (text : Text) : Tidy text text := ⟨id, id, fun _ _ => Iff.rfl⟩

theorem Tidy.restricted {text other : Text} (tidy : Tidy text other) :
    Restricted other ↔ Restricted text := by
  rw [Restricted, Restricted, Ne, Ne, tidy.wild '*' (.inl rfl), tidy.wild '?' (.inr rfl)]

theorem joinWith_eq_singleton {separator c : Char} {parts : List Text} (nonempty : parts ≠ [])
    (other : c ≠ separator) : joinWith separator parts = [c] ↔ parts = [[c]] := by
  cases parts with
  | nil => exact absurd rfl nonempty
  | cons part rest =>
    cases rest with
    | nil => simp [joinWith]
    | cons next rest =>
      have mem : separator ∈ joinWith separator (part :: next :: rest) := by
        rw [joinWith]
        · simp
        · simp
      constructor
      · intro same
        rw [same, List.mem_singleton] at mem
        exact absurd mem.symm other
      · simp

theorem Joined.tidy {separator : Char} {R : Text → Text → Prop} {text other : Text}
    (visible : Text.isWhitespace separator = false) (mark : separator ≠ '*' ∧ separator ≠ '?')
    (parts : ∀ part part', R part part' → Tidy part part') (joined : Joined separator R text other) :
    Tidy text other := by
  obtain ⟨texts, others, nonempty, clear, each, rfl, rfl⟩ := joined
  have same := each.length_eq
  refine ⟨fun empty => ?_, fun hclear c hc => ?_, fun c wild => ?_⟩
  · cases each with
    | nil => rfl
    | cons first rest =>
      cases rest with
      | nil => exact (parts _ _ first).nonempty empty
      | cons => simp [joinWith] at empty
  · rcases mem_joinWith hc with rfl | ⟨part, hpart, mem⟩
    · exact visible
    · obtain ⟨i, hi⟩ := List.mem_iff_getElem?.mp hpart
      obtain ⟨part', hpart', related⟩ := Forall₂.getElem? each hi
      refine (parts _ _ related).clear (fun c hc => hclear c ?_) c mem
      exact mem_joinWith_of_mem (List.mem_of_getElem? hpart') hc
  · have apart : c ≠ separator := by
      rcases wild with rfl | rfl
      · exact mark.1.symm
      · exact mark.2.symm
    rw [joinWith_eq_singleton nonempty apart, joinWith_eq_singleton (by
      rintro rfl
      exact nonempty (List.length_eq_zero_iff.mp same)) apart]
    cases each with
    | nil => exact absurd rfl nonempty
    | cons first rest =>
      cases rest with
      | nil => simp [(parts _ _ first).wild c wild]
      | cons => simp

theorem DayRenumbered.tidy {day shifted : Text} (h : DayRenumbered day shifted) :
    Tidy day shifted := by
  have small : ∀ n < 7, Nat.toDigits 10 (n + 1) ≠ [] ∧
      (Nat.toDigits 10 (n + 1)).all (fun c => !Text.isWhitespace c) = true ∧
      Nat.toDigits 10 (n + 1) ≠ ['*'] ∧ Nat.toDigits 10 (n + 1) ≠ ['?'] := by decide
  have digits_ne : Text.isDigits day → ∀ c, c = '*' ∨ c = '?' → day ≠ [c] := by
    rintro digits c wild rfl
    rcases wild with rfl | rfl
    · exact absurd digits (by decide)
    · exact absurd digits (by decide)
  have numbered : Text.isDigits day → ∀ n < 7, Tidy day (Nat.toDigits 10 (n + 1)) := by
    intro digits n less
    obtain ⟨nonempty, clear, star, question⟩ := small n less
    refine ⟨fun empty => absurd empty nonempty, fun _ => by simpa using clear, fun c wild => ?_⟩
    have day_ne := digits_ne digits c wild
    rcases wild with rfl | rfl
    · simp [star, day_ne]
    · simp [question, day_ne]
  cases h with
  | number digits less => exact numbered digits _ less
  | sunday digits seven => exact numbered digits 0 (by decide)
  | other letters => exact .refl day

theorem TermRenumbered.tidy {term shifted : Text} (h : TermRenumbered term shifted) :
    Tidy term shifted := by
  have days : ∀ {days days' : Text}, Joined '-' DayRenumbered days days' → Tidy days days' :=
    Joined.tidy (by decide) (by decide) fun _ _ => DayRenumbered.tidy
  cases h with
  | days _ each => exact days each
  | step step _ each =>
    refine ⟨fun empty => by simp at empty, fun clear c hc => ?_, fun c wild => ?_⟩
    · rcases List.mem_append.mp hc with hc | hc
      · exact (days each).clear (fun c hc => clear c (List.mem_append_left _ hc)) c hc
      · exact clear c (List.mem_append_right _ hc)
    · have slashed : ∀ text : Text, text ++ '/' :: step ≠ [c] := by
        intro text same
        have mem : '/' ∈ text ++ '/' :: step := by simp
        rw [same, List.mem_singleton] at mem
        rcases wild with rfl | rfl
        · exact absurd mem (by decide)
        · exact absurd mem (by decide)
      simp [slashed]

theorem Renumbered.tidy {field shifted : Text} (h : Renumbered field shifted) :
    Tidy field shifted :=
  Joined.tidy (by decide) (by decide) (fun _ _ => TermRenumbered.tidy) h

/-- The fields for the crate, with a day of the week by its numbers. -/
def Crontab.quartz (crontab : Crontab) (weekday : Text) : List Text :=
  [crontab.second, crontab.minute, crontab.hour, crontab.day, crontab.month, weekday] ++
    crontab.year.toList

theorem Crontab.quartz_iff {crontab : Crontab} {weekday : Text} {P : Nat → Text → Prop} :
    (∀ position field, (crontab.quartz weekday)[position]? = some field → P position field) ↔
      P 0 crontab.second ∧ P 1 crontab.minute ∧ P 2 crontab.hour ∧ P 3 crontab.day ∧
        P 4 crontab.month ∧ P 5 weekday ∧ ∀ field ∈ crontab.year, P 6 field := by
  constructor
  · intro all
    refine ⟨all 0 _ rfl, all 1 _ rfl, all 2 _ rfl, all 3 _ rfl, all 4 _ rfl, all 5 _ rfl,
      fun field hyear => all 6 field ?_⟩
    rw [quartz, Option.mem_def.mp hyear]
    rfl
  · rintro ⟨second, minute, hour, day, month, week, year⟩ position field hfield
    match position, hfield with
    | 0, rfl => exact second
    | 1, rfl => exact minute
    | 2, rfl => exact hour
    | 3, rfl => exact day
    | 4, rfl => exact month
    | 5, rfl => exact week
    | 6, hfield =>
      refine year field ?_
      cases hyear : crontab.year with
      | none => simp [quartz, hyear] at hfield
      | some found => simpa [quartz, hyear] using hfield
    | position + 7, hfield =>
      cases hyear : crontab.year with
      | none => simp [quartz, hyear] at hfield
      | some found => simp [quartz, hyear] at hfield

theorem Crontab.Of.unique {words : List Text} {crontab crontab' : Crontab} (h : Of words crontab)
    (h' : Of words crontab') : crontab = crontab' := by
  cases h with
  | five => cases h'; rfl
  | six => cases h'; rfl
  | seven => cases h'; rfl

/-- The words of a text, put in the form the crate reads. -/
structure Crontab.Normalized (text : Text) (crontab : Crontab) (weekday : Text) : Prop where
  fields : Of (Text.splitWhitespace text) crontab
  seconds : Text.isDigits crontab.second
  renumbered : Renumbered crontab.weekday weekday

theorem mapM_quartz (crontab : Crontab) :
    ((crontab.quartz crontab.weekday).zipIdx.mapM fun (field, position) =>
      if position = dayOfWeek then shiftDaysOfWeek field else .ok field) =
      (shiftDaysOfWeek crontab.weekday).map crontab.quartz := by
  obtain ⟨second, minute, hour, day, month, weekday, year⟩ := crontab
  cases hshift : shiftDaysOfWeek weekday with
  | error error =>
    cases year with
    | none => simp [Crontab.quartz, dayOfWeek, hshift, bind, Except.bind, Except.map]
    | some year => simp [Crontab.quartz, dayOfWeek, hshift, bind, Except.bind, Except.map]
  | ok numbered =>
    cases year with
    | none => simp [Crontab.quartz, dayOfWeek, hshift, bind, Except.bind, Except.map, pure,
        Except.pure]
    | some year => simp [Crontab.quartz, dayOfWeek, hshift, bind, Except.bind, Except.map, pure,
        Except.pure]

/-- What becomes of five, six or seven words. -/
theorem normalize_eq {text : Text} {crontab : Crontab}
    (fields : Crontab.Of (Text.splitWhitespace text) crontab) : normalize text =
      if Text.isDigits crontab.second then (shiftDaysOfWeek crontab.weekday).map crontab.quartz
      else .error .subMinute := by
  have checked : (do
      let fields ← (.ok (crontab.quartz crontab.weekday) : Except ScheduleError (List Text))
      if !Text.isDigits (fields.headD []) then throw ScheduleError.subMinute
      fields.zipIdx.mapM fun (field, position) =>
        if position = dayOfWeek then shiftDaysOfWeek field else .ok field) =
      if Text.isDigits crontab.second then (shiftDaysOfWeek crontab.weekday).map crontab.quartz
      else .error .subMinute := by
    have head : (crontab.quartz crontab.weekday).head?.getD [] = crontab.second := rfl
    rw [← mapM_quartz]
    generalize crontab.quartz crontab.weekday = raw at head
    cases digits : Text.isDigits crontab.second with
    | true => simp [head, digits, bind, Except.bind]
    | false => simp [head, digits, bind, Except.bind, throw, throwThe, MonadExceptOf.throw]
  unfold normalize
  generalize Text.splitWhitespace text = words at fields
  cases fields with
  | five => exact checked
  | six => exact checked
  | seven => exact checked

theorem normalize_length {text : Text} {fields : List Text} (h : normalize text = .ok fields) :
    ∃ crontab, Crontab.Of (Text.splitWhitespace text) crontab := by
  unfold normalize at h
  dsimp only at h
  generalize Text.splitWhitespace text = words at h ⊢
  split at h
  · rename_i five
    match words, five with
    | [minute, hour, day, month, weekday], _ => exact ⟨_, .five minute hour day month weekday⟩
  · rename_i six
    match words, six with
    | [second, minute, hour, day, month, weekday], _ =>
      exact ⟨_, .six second minute hour day month weekday⟩
  · rename_i seven
    match words, seven with
    | [second, minute, hour, day, month, weekday, year], _ =>
      exact ⟨_, .seven second minute hour day month weekday year⟩
  · cases h

theorem normalize_iff {text : Text} {fields : List Text} : normalize text = .ok fields ↔
    ∃ crontab weekday, Crontab.Normalized text crontab weekday ∧
      fields = crontab.quartz weekday := by
  constructor
  · intro h
    obtain ⟨crontab, of⟩ := normalize_length h
    rw [normalize_eq of] at h
    split at h
    · rename_i digits
      cases hshift : shiftDaysOfWeek crontab.weekday with
      | error error =>
        rw [hshift] at h
        cases h
      | ok weekday =>
        rw [hshift] at h
        exact ⟨crontab, weekday, ⟨of, digits, shiftDaysOfWeek_iff.mp hshift⟩,
          (Except.ok.inj h).symm⟩
    · cases h
  · rintro ⟨crontab, weekday, normalized, rfl⟩
    rw [normalize_eq normalized.fields, if_pos normalized.seconds,
      shiftDaysOfWeek_iff.mpr normalized.renumbered]
    rfl

theorem splitWhitespace_joinWith {fields : List Text} (words : ∀ field ∈ fields, Text.Word field) :
    Text.splitWhitespace (joinWith ' ' fields) = fields := by
  induction fields with
  | nil => rfl
  | cons first rest ih =>
    have word := words first (by simp)
    cases rest with
    | nil => exact Text.splitWhitespace_word word
    | cons next rest =>
      rw [joinWith, Text.splitWhitespace_append word,
        ih fun field h => words field (List.mem_cons_of_mem _ h)]
      simp

namespace Crontab

theorem Of.words {words : List Text} {crontab : Crontab} (h : Of words crontab)
    (each : ∀ word ∈ words, Text.Word word) : ∀ field ∈ crontab.quartz crontab.weekday,
      Text.Word field := by
  cases h with
  | five =>
    have zero : Text.Word ['0'] := ⟨by simp, List.forall_mem_singleton.mpr (by decide)⟩
    exact List.forall_mem_cons.mpr ⟨zero, each⟩
  | six => exact each
  | seven => exact each

theorem mem_quartz {crontab : Crontab} {weekday field : Text} (h : field ∈ crontab.quartz weekday)
    (other : Text) : field = weekday ∨ field ∈ crontab.quartz other := by
  simp only [quartz, List.mem_append, List.mem_cons] at h ⊢
  tauto

theorem mem_quartz_star {crontab : Crontab} {weekday field : Text}
    (h : field ∈ { crontab with day := ['*'] }.quartz weekday) :
    field = ['*'] ∨ field ∈ crontab.quartz weekday := by
  simp only [quartz, List.mem_append, List.mem_cons] at h ⊢
  tauto

variable {text weekday : Text} {crontab : Crontab}

theorem Normalized.words (h : Normalized text crontab weekday) :
    ∀ field ∈ crontab.quartz weekday, Text.Word field := by
  have each := h.fields.words fun _ => Text.word_of_mem_splitWhitespace
  intro field mem
  rcases mem_quartz mem crontab.weekday with rfl | mem
  · exact h.renumbered.tidy.word (each _ (by simp [quartz]))
  · exact each field mem

theorem head_ne (seconds : Text.isDigits crontab.second) (weekday : Text) :
    (joinWith ' ' (crontab.quartz weekday)).head? ≠ some '@' := by
  cases hsecond : crontab.second with
  | nil =>
    rw [hsecond] at seconds
    cases seconds
  | cons c rest =>
    rw [quartz, hsecond, List.cons_append, joinWith_cons_cons, List.head?_cons]
    rintro ⟨⟩
    rw [hsecond] at seconds
    exact Text.not_mem_of_isDigits seconds (c := '@') (by decide) List.mem_cons_self

end Crontab

theorem word_star : Text.Word ['*'] := ⟨by simp, List.forall_mem_singleton.mpr (by decide)⟩

theorem restricts_iff {field : Text} : restricts field = true ↔ Restricted field := by
  simp [restricts, Restricted]

/-- The expressions of a text, by the fields that its words stand for. -/
inductive Compiled (text : Text) : Text → Option Text → Prop
  | shorthand (at_sign : text.head? = some '@') : Compiled text text none
  | either {crontab : Crontab} {weekday : Text} (plain : text.head? ≠ some '@')
      (normalized : crontab.Normalized text weekday)
      (both : Restricted crontab.day ∧ Restricted crontab.weekday) :
      Compiled text (joinWith ' ' (crontab.quartz ['*']))
        (some (joinWith ' ' ({ crontab with day := ['*'] }.quartz weekday)))
  | single {crontab : Crontab} {weekday : Text} (plain : text.head? ≠ some '@')
      (normalized : crontab.Normalized text weekday)
      (other : ¬(Restricted crontab.day ∧ Restricted crontab.weekday)) :
      Compiled text (joinWith ' ' (crontab.quartz weekday)) none

theorem expressions_iff {text primary : Text} {alternate : Option Text} :
    expressions text = .ok (primary, alternate) ↔ Compiled text primary alternate := by
  have restricted : ∀ {crontab : Crontab} {weekday : Text}, crontab.Normalized text weekday →
      ((restricts crontab.day && restricts weekday) = true ↔
        Restricted crontab.day ∧ Restricted crontab.weekday) := by
    intro crontab weekday normalized
    rw [Bool.and_eq_true, restricts_iff, restricts_iff, normalized.renumbered.tidy.restricted]
  constructor
  · intro h
    unfold expressions at h
    split at h
    · cases h
    split at h
    · rename_i shorthand
      obtain ⟨rfl, rfl⟩ := Prod.mk.inj (Except.ok.inj h)
      exact .shorthand shorthand
    · rename_i plain
      obtain ⟨fields, hfields, h⟩ := bind_eq_ok.mp h
      obtain ⟨crontab, weekday, normalized, rfl⟩ := normalize_iff.mp hfields
      dsimp only at h
      split at h
      · rename_i both
        have both := (restricted normalized).mp both
        obtain ⟨rfl, rfl⟩ := Prod.mk.inj (Except.ok.inj h)
        exact .either plain normalized both
      · rename_i other
        have other := fun both => other ((restricted normalized).mpr both)
        obtain ⟨rfl, rfl⟩ := Prod.mk.inj (Except.ok.inj h)
        exact .single plain normalized other
  · have fields : ∀ {crontab : Crontab} {weekday : Text}, text.head? ≠ some '@' →
        crontab.Normalized text weekday → expressions text =
          if (restricts crontab.day && restricts weekday) = true then
            .ok (joinWith ' ' (crontab.quartz ['*']),
              some (joinWith ' ' ({ crontab with day := ['*'] }.quartz weekday)))
          else .ok (joinWith ' ' (crontab.quartz weekday), none) := by
      intro crontab weekday plain normalized
      have nonempty : text ≠ [] := by
        rintro rfl
        cases normalized.fields
      rw [expressions, if_neg nonempty, if_neg plain, normalize_iff.mpr ⟨_, _, normalized, rfl⟩]
      rfl
    intro compiled
    cases compiled with
    | shorthand shorthand =>
      have nonempty : text ≠ [] := by
        rintro rfl
        cases shorthand
      rw [expressions, if_neg nonempty, if_pos shorthand]
    | either plain normalized both =>
      rw [fields plain normalized, if_pos ((restricted normalized).mpr both)]
    | single plain normalized other =>
      rw [fields plain normalized, if_neg fun both => other ((restricted normalized).mp both)]

/-! ## What the expressions of a schedule find -/

section

variable [CronCrate] {reading : CronCrate.Reading}

variable (reading) in
/-- The crate finds the times at which every field of a crontab holds. -/
theorem first_of_quartz (crontab : Crontab) (weekday : Text)
    (seconds : Text.isDigits crontab.second)
    (words : ∀ field ∈ crontab.quartz weekday, Text.Word field)
    (accepted : CronCrate.refusal (joinWith ' ' (crontab.quartz weekday)) = none)
    (east start : Int) :
    FirstAfter (fun instant => instant % 1000000000 = 0 ∧ (LocalTime.at east instant).Known ∧
        crontab.Timed reading (.at east instant) ∧ crontab.OnDay reading (.at east instant) ∧
        reading.holds 5 weekday (LocalTime.at east instant).weekday) start
      (CronCrate.after (joinWith ' ' (crontab.quartz weekday)) east start) := by
  refine (reading.next _ accepted east start).congr fun instant => and_congr_right fun _ =>
    and_congr_right fun _ => ?_
  rw [if_neg (Crontab.head_ne seconds weekday), splitWhitespace_joinWith words, Crontab.quartz_iff]
  constructor
  · rintro ⟨second, minute, hour, day, month, week, year⟩
    exact ⟨⟨second, minute, hour, month, year⟩, day, week⟩
  · rintro ⟨⟨second, minute, hour, month, year⟩, day, week⟩
    exact ⟨second, minute, hour, day, month, week, year⟩

theorem onWeekday_iff {text weekday : Text} {crontab : Crontab} {time : LocalTime}
    (h : crontab.Normalized text weekday) :
    crontab.OnWeekday reading time ↔ reading.holds 5 weekday time.weekday := by
  constructor
  · rintro ⟨weekday', renumbered, holds⟩
    have same := (shiftDaysOfWeek_iff.mpr renumbered).symm.trans
      (shiftDaysOfWeek_iff.mpr h.renumbered)
    obtain rfl := Except.ok.inj same
    exact holds
  · intro holds
    exact ⟨weekday, h.renumbered, holds⟩

/-- Where the crate reads days of the week as it documents, a field that folds holds the weekdays
that a crontab means. -/
theorem onWeekday_of_folds {weekdays : CronCrate.Weekdays}
    (reads : ∀ text days, weekdays.days text = some days → ∀ day : Nat,
      reading.holds 5 text day ↔ day ∈ days)
    {crontab : Crontab} {field : DayField} (spelled : crontab.weekday = field.text)
    (folds : field.Folds) {time : LocalTime} {weekday : Nat} (lt : weekday < 7)
    (day : time.weekday = weekday + 1) :
    crontab.OnWeekday reading time ↔ field.Means weekday := by
  obtain ⟨shifted, days, hshift, hdays, means⟩ := folds.kept weekdays
  rw [← means weekday lt, ← day, ← reads shifted days hdays]
  constructor
  · rintro ⟨numbered, renumbered, holds⟩
    rw [spelled] at renumbered
    obtain rfl := Except.ok.inj (hshift.symm.trans (shiftDaysOfWeek_iff.mpr renumbered))
    exact holds
  · intro holds
    exact ⟨shifted, spelled ▸ shiftDaysOfWeek_iff.mp hshift, holds⟩

theorem means_iff {text weekday : Text} {crontab : Crontab} {time : LocalTime}
    (plain : text.head? ≠ some '@') (h : crontab.Normalized text weekday) :
    reading.Means text time ↔ crontab.Timed reading time ∧
      if Restricted crontab.day ∧ Restricted crontab.weekday then
        crontab.OnDay reading time ∨ reading.holds 5 weekday time.weekday
      else crontab.OnDay reading time ∧ reading.holds 5 weekday time.weekday := by
  rw [CronCrate.Reading.Means, if_neg plain, ← onWeekday_iff h]
  constructor
  · rintro ⟨crontab', fields, timed, days⟩
    obtain rfl := h.fields.unique fields
    exact ⟨timed, days⟩
  · rintro ⟨timed, days⟩
    exact ⟨crontab, h.fields, timed, days⟩

variable (reading) in
theorem first_of_compiled {text primary : Text} {alternate : Option Text}
    (compiled : Compiled text primary alternate)
    (accepted : CronCrate.refusal primary = none)
    (accepted' : ∀ expression, alternate = some expression → CronCrate.refusal expression = none)
    (east start : Int) :
    FirstAfter (fun instant => instant % 1000000000 = 0 ∧ (LocalTime.at east instant).Known ∧
        reading.Means text (.at east instant))
      start (earlier (CronCrate.after primary east start)
        (alternate.bind fun expression => CronCrate.after expression east start)) := by
  cases compiled with
  | shorthand shorthand =>
    have first := (reading.next text accepted east start).congr (q := fun instant =>
        instant % 1000000000 = 0 ∧ (LocalTime.at east instant).Known ∧
          reading.Means text (.at east instant)) fun instant => by
      rw [if_pos shorthand, CronCrate.Reading.Means, if_pos shorthand]
    rwa [Option.bind_none, earlier_none]
  | @either crontab weekday plain normalized both =>
    have first := first_of_quartz reading crontab ['*'] normalized.seconds (fun field mem => by
      rcases Crontab.mem_quartz mem weekday with rfl | mem
      · exact word_star
      · exact normalized.words field mem) accepted east start
    have second := first_of_quartz reading { crontab with day := ['*'] } weekday
      normalized.seconds (fun field mem => by
        rcases Crontab.mem_quartz_star mem with rfl | mem
        · exact word_star
        · exact normalized.words field mem) (accepted' _ rfl) east start
    refine (first.or second).congr fun instant => ?_
    rw [← and_or_left, ← and_or_left, means_iff plain normalized, if_pos both]
    refine and_congr_right fun _ => and_congr_right fun _ => ?_
    rw [and_or_left]
    refine or_congr ?_ ?_
    · exact and_congr_right fun _ => and_iff_left (reading.star _).2
    · constructor
      · rintro ⟨⟨second, minute, hour, month, year⟩, -, week⟩
        exact ⟨⟨second, minute, hour, month, year⟩, week⟩
      · rintro ⟨⟨second, minute, hour, month, year⟩, week⟩
        exact ⟨⟨second, minute, hour, month, year⟩, (reading.star _).1, week⟩
  | single plain normalized other =>
    have first := first_of_quartz reading _ _ normalized.seconds normalized.words accepted east
      start
    rw [Option.bind_none, earlier_none]
    refine first.congr fun instant => and_congr_right fun _ => and_congr_right fun _ => ?_
    rw [means_iff plain normalized, if_neg other]

/-- An expression that the crate takes in the form it is put in. -/
def CronSchedule.Accepts (expression : Text) : Prop :=
  ∃ primary alternate, Compiled (Text.trim expression) primary alternate ∧
    CronCrate.refusal primary = none ∧
    ∀ other, alternate = some other → CronCrate.refusal other = none

theorem CronSchedule.new_ok {expression : Text} {offset : UtcOffset} {schedule : CronSchedule}
    (h : CronSchedule.new expression offset = .ok schedule) :
    Compiled (Text.trim expression) schedule.primary schedule.alternate ∧
      schedule.text = Text.trim expression ∧ schedule.offset = offset ∧
      CronCrate.refusal schedule.primary = none ∧
      ∀ alternate, schedule.alternate = some alternate → CronCrate.refusal alternate = none := by
  unfold CronSchedule.new at h
  dsimp only at h
  split at h
  · cases h
  · split at h
    · cases h
    · cases h
    · rename_i accepted accepted'
      obtain rfl := Except.ok.inj h
      refine ⟨expressions_iff.mp ‹_›, rfl, rfl, accepted, ?_⟩
      rintro expression rfl
      exact accepted'

/-- A schedule keeps the text of an expression that is accepted, and the offset. -/
theorem CronSchedule.new_iff {expression : Text} {offset : UtcOffset} {schedule : CronSchedule} :
    CronSchedule.new expression offset = .ok schedule ↔ Accepts expression ∧
      schedule.text = Text.trim expression ∧ schedule.offset = offset := by
  constructor
  · intro h
    obtain ⟨compiled, text, offset, accepted, accepted'⟩ := CronSchedule.new_ok h
    exact ⟨⟨_, _, compiled, accepted, accepted'⟩, text, offset⟩
  · obtain ⟨text, offset', primary, alternate, compiles⟩ := schedule
    rintro ⟨⟨primary', alternate', compiled, accepted, accepted'⟩, rfl, rfl⟩
    obtain ⟨rfl, rfl⟩ :=
      Prod.mk.inj (Except.ok.inj (compiles.symm.trans (expressions_iff.mpr compiled)))
    unfold CronSchedule.new
    dsimp only
    split
    · rename_i failed
      rw [compiles] at failed
      cases failed
    · rename_i found
      obtain ⟨rfl, rfl⟩ := Prod.mk.inj (Except.ok.inj (compiles.symm.trans found))
      have taken : alternate.bind CronCrate.refusal = none := by
        cases halternate : alternate with
        | none => rfl
        | some other => exact accepted' other halternate
      rw [accepted, taken]

variable (reading) in
theorem CronSchedule.nextAfter_first {expression : Text} {offset : UtcOffset}
    {schedule : CronSchedule} (h : CronSchedule.new expression offset = .ok schedule) (time : Int) :
    FirstAfter (reading.Matches expression offset) time (schedule.nextAfter time) := by
  obtain ⟨compiled, -, rfl, accepted, accepted'⟩ := CronSchedule.new_ok h
  cases hfixed : schedule.offset.fixed with
  | none =>
    have never : schedule.nextAfter time = none := by
      rw [nextAfter, hfixed]
      rfl
    rw [never]
    rintro instant - ⟨east, heast, -⟩
    rw [hfixed] at heast
    cases heast
  | some east =>
    have first := first_of_compiled reading compiled accepted accepted' east time
    have same : schedule.nextAfter time = earlier (CronCrate.after schedule.primary east time)
        (schedule.alternate.bind fun expression => CronCrate.after expression east time) := by
      rw [nextAfter, hfixed, Option.bind_eq_bind, Option.bind_some]
      generalize CronCrate.after schedule.primary east time = found
      generalize (schedule.alternate.bind fun expression =>
        CronCrate.after expression east time) = other
      cases found <;> cases other <;> rfl
    rw [same]
    refine first.congr fun instant => ?_
    simp [CronCrate.Reading.Matches, hfixed]

/-! ## One fire after the other -/

/-- The words of an expression that is not a shorthand have one second. -/
theorem matches_second {expression weekday : Text} {offset : UtcOffset} {crontab : Crontab}
    {instant : Int} (plain : (Text.trim expression).head? ≠ some '@')
    (normalized : crontab.Normalized (Text.trim expression) weekday)
    (h : reading.Matches expression offset instant) : ∃ east, offset.fixed = some east ∧
      instant % 1000000000 = 0 ∧
      (instant / 1000000000 + east) % 60 = Text.ofDigits crontab.second := by
  obtain ⟨east, heast, whole, -, means⟩ := h
  have timed := ((means_iff plain normalized).mp means).1
  have value := reading.number _ _ normalized.seconds timed.second
  refine ⟨east, heast, whole, ?_⟩
  rw [← value]
  simp only [LocalTime.at, LocalTime.ofSeconds]
  omega

theorem matches_apart {expression weekday : Text} {offset : UtcOffset} {crontab : Crontab}
    {a b : Int} (plain : (Text.trim expression).head? ≠ some '@')
    (normalized : crontab.Normalized (Text.trim expression) weekday)
    (ha : reading.Matches expression offset a) (hb : reading.Matches expression offset b)
    (less : a < b) : a + 60000000000 ≤ b := by
  obtain ⟨east, heast, whole, second⟩ := matches_second plain normalized ha
  obtain ⟨east', heast', whole', second'⟩ := matches_second plain normalized hb
  obtain rfl := Option.some.inj (heast.symm.trans heast')
  omega

theorem normalized_of_new (reading : CronCrate.Reading) {expression : Text} {offset : UtcOffset}
    {schedule : CronSchedule} (h : CronSchedule.new expression offset = .ok schedule)
    (enough : 5 ≤ (Text.splitWhitespace (Text.trim expression)).length) :
    (Text.trim expression).head? ≠ some '@' ∧
      ∃ crontab weekday, Crontab.Normalized (Text.trim expression) crontab weekday := by
  obtain ⟨compiled, -, -, accepted, -⟩ := CronSchedule.new_ok h
  generalize schedule.primary = primary at compiled accepted
  generalize schedule.alternate = alternate at compiled
  cases compiled with
  | shorthand shorthand =>
    rw [reading.word _ shorthand accepted] at enough
    simp at enough
  | either plain normalized => exact ⟨plain, _, _, normalized⟩
  | single plain normalized => exact ⟨plain, _, _, normalized⟩

end

/-! ## A crate of plain fields -/

/-- A field that is a star, a question mark or one number. -/
def isPlain (field : Text) : Bool := field == ['*'] || field == ['?'] || Text.isDigits field

def plainHolds (field : Text) (value : Int) : Prop :=
  Text.isDigits field → value = Text.ofDigits field

def plainMatches (expression : Text) (east instant : Int) : Prop :=
  instant % 1000000000 = 0 ∧ (LocalTime.at east instant).Known ∧
    if expression.head? = some '@' then False
    else ∀ (position : Nat) field, (Text.splitWhitespace expression)[position]? = some field →
      plainHolds field ((LocalTime.at east instant).value position)

/-- A crate that reads plain fields only. -/
noncomputable abbrev CronCrate.plain : CronCrate where
  refusal expression :=
    if expression.head? ≠ some '@' ∧ (Text.splitWhitespace expression).all isPlain then none
    else some "not a plain expression".toList
  after expression east start :=
    Classical.choose (exists_firstAfter (plainMatches expression east) start)

noncomputable def CronCrate.plainReading : @CronCrate.Reading .plain :=
  letI := CronCrate.plain
  { holds := fun _ => plainHolds
    shorthand := fun _ _ => False
    star := fun _ => ⟨fun digits => absurd digits (by decide), fun digits => absurd digits (by decide)⟩
    number := fun _ _ digits holds => holds digits
    word := fun _ shorthand accepted => by simp [refusal, shorthand] at accepted
    next := fun expression _ east start =>
      Classical.choose_spec (exists_firstAfter (plainMatches expression east) start) }

end Beez
