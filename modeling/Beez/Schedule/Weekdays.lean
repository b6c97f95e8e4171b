import Beez.Schedule.Cron
import Mathlib.Order.Interval.Finset.Nat

/-! # Days of the week, as a crontab and as the crate read them -/

open Beez.Lib

namespace Beez

def dayNames : List (List Text) :=
  [["sun", "sunday"], ["mon", "monday"], ["tue", "tues", "tuesday"], ["wed", "wednesday"],
    ["thu", "thurs", "thursday"], ["fri", "friday"], ["sat", "saturday"]].map (·.map (·.toList))

/-- The day a name stands for, from Sunday as 0. -/
def dayName (text : Text) : Option Nat :=
  dayNames.findIdx? (·.contains (Text.toAsciiLowercase text))

/-- Every `step`-th number from `first` to `last`, up to 7. -/
def pick (first last step : Nat) : List Nat :=
  (List.range 8).filter fun n => first ≤ n ∧ n ≤ last ∧ (n - first) % step = 0

/-! ## A crontab field -/

/-- One day of a crontab field. Both 0 and 7 are Sunday. -/
structure Day where
  text : Text
  number : Nat
  named : Text.isDigits text ∧ Text.ofDigits text = number ∧ number ≤ 7 ∨
    dayName text = some number

structure Step where
  text : Text
  digits : Text.isDigits text
  positive : 0 < Text.ofDigits text

def stride : Option Step → Nat
  | none => 1
  | some step => Text.ofDigits step.text

inductive DayTerm where
  | every (step : Option Step)
  | day (day : Day)
  | range (first last : Day) (le : first.number ≤ last.number) (step : Option Step)

structure DayField where
  terms : List DayTerm
  nonempty : terms ≠ []

/-- A term of days, with its step when it has one. -/
def spell (days : List Text) (step : Option Step) : Text :=
  match step with
  | some step => joinWith '-' days ++ '/' :: step.text
  | none => joinWith '-' days

namespace DayTerm

def days : DayTerm → List Text
  | every _ => [['*']]
  | day d => [d.text]
  | range first last _ _ => [first.text, last.text]

def step : DayTerm → Option Step
  | every step | range _ _ _ step => step
  | day _ => none

def text (term : DayTerm) : Text := spell term.days term.step

def first : DayTerm → Nat
  | every _ => 0
  | day d => d.number
  | range first _ _ _ => first.number

def last : DayTerm → Nat
  | every _ => 7
  | day d => d.number
  | range _ last _ _ => last.number

/-- The weekdays the term means, from Sunday as 0. -/
def Means (term : DayTerm) (weekday : Nat) : Prop :=
  ∃ n ∈ pick term.first term.last (stride term.step), n % 7 = weekday

end DayTerm

def DayField.text (field : DayField) : Text := joinWith ',' (field.terms.map (·.text))

def DayField.Means (field : DayField) (weekday : Nat) : Prop :=
  ∃ term ∈ field.terms, term.Means weekday

/-! ## A field of the crate -/

/-- Every `step`-th of some days, from the least. -/
def everyNth (step : Nat) (days : Finset Nat) : Finset Nat :=
  days.filter fun day => (days.filter (· < day)).card % step = 0

/-- What the `cron` crate documents of a day of week: the numbers a field selects, from Sunday as 1,
and nothing for a field that is refused. -/
structure CronCrate.Weekdays where
  days : Text → Option (Finset Nat)
  /-- A list selects what its terms select. -/
  list : ∀ terms, terms ≠ [] → (∀ term ∈ terms, ',' ∉ term) →
    days (joinWith ',' terms) = (terms.mapM days).map fun each => each.foldr (· ∪ ·) ∅
  star : days ['*'] = some (Finset.Icc 1 7)
  number : ∀ text, Text.isDigits text → days text =
    if 1 ≤ Text.ofDigits text ∧ Text.ofDigits text ≤ 7 then some {Text.ofDigits text} else none
  name : ∀ text n, dayName text = some n → days text = some {n + 1}
  numbers : ∀ first last, Text.isDigits first → Text.isDigits last →
    days (first ++ '-' :: last) =
      if 1 ≤ Text.ofDigits first ∧ Text.ofDigits first ≤ Text.ofDigits last ∧
          Text.ofDigits last ≤ 7 then
        some (Finset.Icc (Text.ofDigits first) (Text.ofDigits last))
      else none
  names : ∀ first last m n, dayName first = some m → dayName last = some n →
    days (first ++ '-' :: last) =
      if m ≤ n then some (Finset.Icc (m + 1) (n + 1)) else none
  /-- A range has two numbers or two names. -/
  mixed : ∀ number name n, Text.isDigits number → dayName name = some n →
    days (number ++ '-' :: name) = none ∧ days (name ++ '-' :: number) = none
  /-- A step goes no further than the week is long. -/
  step : ∀ text step, text = ['*'] ∨ '-' ∈ text → ',' ∉ text → '/' ∉ text → Text.isDigits step →
    days (text ++ '/' :: step) =
      if 1 ≤ Text.ofDigits step ∧ Text.ofDigits step ≤ 7 then
        (days text).map (everyNth (Text.ofDigits step))
      else none

/-- The crate reads the shifted field, and finds the weekdays that the crontab field means. -/
def DayField.Kept (crate : CronCrate.Weekdays) (field : DayField) : Prop :=
  ∃ shifted days, shiftDaysOfWeek field.text = .ok shifted ∧ crate.days shifted = some days ∧
    ∀ weekday < 7, weekday + 1 ∈ days ↔ field.Means weekday

/-- A range from 0 to 7, which covers the week and Sunday once more. -/
def DayTerm.Full : DayTerm → Prop
  | .range first last _ _ => first.number = 0 ∧ last.number = 7
  | _ => False

/-- A step over at most one week. -/
def Short (step : Option Step) : Prop := ∀ found ∈ step, Text.ofDigits found.text ≤ 7

/-- A step is short, and a range has two numbers or two names and does not run up to 7 from a day
in between. -/
def DayTerm.Taken : DayTerm → Prop
  | .every step => Short step
  | .day _ => True
  | .range first last _ step => Short step ∧ Text.isDigits first.text = Text.isDigits last.text ∧
    (last.number = 7 → first.number = 0 ∨ first.number = 7)

/-- Every term is taken, and what a range from 0 to 7 selects beside Sunday is selected by some
other term. -/
structure DayField.Folds (field : DayField) : Prop where
  taken : ∀ term ∈ field.terms, term.Taken
  full : ∀ term ∈ field.terms, term.Full → ∀ weekday, term.Means weekday →
    weekday = 0 ∨ ∃ other ∈ field.terms, ¬other.Full ∧ other.Means weekday

/-! ## Texts without separators -/

theorem splitOn_joinWith {separator : Char} {parts : List Text} (nonempty : parts ≠ [])
    (clear : ∀ part ∈ parts, separator ∉ part) :
    Text.splitOn separator (joinWith separator parts) = parts := by
  induction parts with
  | nil => exact absurd rfl nonempty
  | cons part rest ih =>
    cases rest with
    | nil => exact Text.splitOn_of_not_mem (clear part (by simp))
    | cons next rest =>
      rw [joinWith, Text.splitOn_append (clear part (by simp)),
        ih (by simp) fun part h => clear part (List.mem_cons_of_mem _ h)]
      simp

theorem not_mem_joinWith {separator c : Char} {parts : List Text} (other : c ≠ separator)
    (clear : ∀ part ∈ parts, c ∉ part) : c ∉ joinWith separator parts := by
  induction parts with
  | nil => exact List.not_mem_nil
  | cons part rest ih =>
    have first := clear part (by simp)
    have after := ih fun part h => clear part (List.mem_cons_of_mem _ h)
    cases rest with
    | nil => exact first
    | cons next rest =>
      rw [joinWith, List.mem_append, List.mem_cons]
      · rintro (mem | same | mem)
        · exact first mem
        · exact other same
        · exact after mem
      · simp

/-- A text that no separator of a field cuts, and that does not stand for every day. -/
structure Plain (text : Text) : Prop where
  comma : ',' ∉ text
  dash : '-' ∉ text
  slash : '/' ∉ text
  star : text ≠ ['*']

theorem plain_of_isDigits {text : Text} (h : Text.isDigits text) : Plain text := by
  refine ⟨Text.not_mem_of_isDigits h (by decide), Text.not_mem_of_isDigits h (by decide),
    Text.not_mem_of_isDigits h (by decide), ?_⟩
  rintro rfl
  exact Text.not_mem_of_isDigits h (c := '*') (by decide) (by simp)

theorem dayName_some {text : Text} {n : Nat} (h : dayName text = some n) :
    n < 7 ∧ text ≠ [] ∧ ∀ c ∈ text, c.isUpper ∨ 'a' ≤ c := by
  obtain ⟨lt, found, -⟩ := List.findIdx?_eq_some_iff_getElem.mp h
  have mem : Text.toAsciiLowercase text ∈ dayNames.flatten :=
    List.mem_flatten.mpr ⟨_, List.getElem_mem lt, List.contains_iff_mem.mp found⟩
  refine ⟨lt, ?_, fun c hc => ?_⟩
  · rintro rfl
    revert mem
    decide
  · by_cases upper : c.isUpper
    · exact .inl upper
    · have lower : c.toLower ∈ Text.toAsciiLowercase text := List.mem_map_of_mem hc
      have same : c.toLower = c := dif_neg fun range => upper (decide_eq_true range)
      rw [same] at lower
      have letters : dayNames.flatten.flatten.all (fun c => decide ('a' ≤ c)) = true := by decide
      have least := List.all_eq_true.mp letters c (List.mem_flatten.mpr ⟨_, mem, lower⟩)
      exact .inr (of_decide_eq_true least)

theorem plain_of_dayName {text : Text} {n : Nat} (h : dayName text = some n) : Plain text := by
  obtain ⟨-, -, letters⟩ := dayName_some h
  refine ⟨fun mem => ?_, fun mem => ?_, fun mem => ?_, ?_⟩
  · exact absurd (letters _ mem) (by decide)
  · exact absurd (letters _ mem) (by decide)
  · exact absurd (letters _ mem) (by decide)
  · rintro rfl
    exact absurd (letters '*' (by simp)) (by decide)

theorem not_isDigits_of_dayName {text : Text} {n : Nat} (h : dayName text = some n) :
    Text.isDigits text = false := by
  obtain ⟨-, nonempty, letters⟩ := dayName_some h
  obtain ⟨c, rest, rfl⟩ := List.exists_cons_of_ne_nil nonempty
  rw [Bool.eq_false_iff]
  intro digits
  have digit : ('0' ≤ c && c ≤ '9') = true := by
    by_contra other
    exact Text.not_mem_of_isDigits digits (Bool.eq_false_iff.mpr other) List.mem_cons_self
  simp only [Bool.and_eq_true, decide_eq_true_eq] at digit
  rcases letters c List.mem_cons_self with upper | lower
  · have least : 'A' ≤ c := (of_decide_eq_true upper).1
    exact absurd (Char.le_trans least digit.2) (by decide)
  · exact absurd (Char.le_trans lower digit.2) (by decide)

/-! ## The shift of one day -/

theorem Day.plain (day : Day) : Plain day.text := by
  rcases day.named with ⟨digits, -⟩ | name
  · exact plain_of_isDigits digits
  · exact plain_of_dayName name

theorem Day.le_seven (day : Day) : day.number ≤ 7 := by
  rcases day.named with ⟨-, -, le⟩ | name
  · exact le
  · have := (dayName_some name).1
    omega

/-- The text names the weekday of `day` for the crate, as a number or as a name like it. -/
def Day.Shifted (day : Day) (text : Text) : Prop :=
  Text.isDigits day.text = true ∧ Text.isDigits text ∧ Text.ofDigits text = day.number % 7 + 1 ∨
    Text.isDigits day.text = false ∧ dayName text = some (day.number % 7)

theorem Day.shift (day : Day) : ∃ shifted, shiftDayOfWeek day.text = .ok shifted ∧
    Plain shifted ∧ day.Shifted shifted := by
  rcases day.named with ⟨digits, number, le⟩ | name
  · have small : ∀ n < 7, Text.isDigits (Nat.toDigits 10 (n + 1)) ∧
        Text.ofDigits (Nat.toDigits 10 (n + 1)) = n + 1 := by decide
    obtain ⟨digits', number'⟩ := small (day.number % 7) (Nat.mod_lt _ (by decide))
    refine ⟨Nat.toDigits 10 (day.number % 7 + 1), ?_, plain_of_isDigits digits', ?_⟩
    · simp [shiftDayOfWeek, digits, number, le]
    · exact .inl ⟨digits, digits', number'⟩
  · have letters := not_isDigits_of_dayName name
    have lt := (dayName_some name).1
    refine ⟨day.text, ?_, plain_of_dayName name, .inr ⟨letters, ?_⟩⟩
    · simp [shiftDayOfWeek, letters]
    · rw [name, Nat.mod_eq_of_lt lt]

section

variable (crate : CronCrate.Weekdays)

theorem Day.Shifted.days {day : Day} {text : Text} (h : day.Shifted text) :
    crate.days text = some {day.number % 7 + 1} := by
  rcases h with ⟨-, digits, number⟩ | ⟨-, name⟩
  · rw [crate.number _ digits, number, if_pos (by omega)]
  · rw [crate.name _ _ name]

theorem Day.Shifted.range {first last : Day} {text text' : Text} (h : first.Shifted text)
    (h' : last.Shifted text') : crate.days (text ++ '-' :: text') =
      if Text.isDigits first.text = Text.isDigits last.text ∧
          first.number % 7 ≤ last.number % 7 then
        some (Finset.Icc (first.number % 7 + 1) (last.number % 7 + 1))
      else none := by
  rcases h with ⟨kind, digits, number⟩ | ⟨kind, name⟩
  · rcases h' with ⟨kind', digits', number'⟩ | ⟨kind', name'⟩
    · rw [crate.numbers _ _ digits digits', number, number', kind, kind']
      refine if_congr ?_ rfl rfl
      simp only [true_and]
      omega
    · rw [(crate.mixed _ _ _ digits name').1, kind, kind']
      simp
  · rcases h' with ⟨kind', digits', number'⟩ | ⟨kind', name'⟩
    · rw [(crate.mixed _ _ _ digits' name).2, kind, kind']
      simp
    · rw [crate.names _ _ _ _ name name', kind, kind']
      simp

/-! ## The shift of one term -/

variable {days : List Text} {step : Option Step}

theorem splitOnce_spell (slash : ∀ day ∈ days, '/' ∉ day) :
    Text.splitOnce '/' (spell days step) = step.map fun step => (joinWith '-' days, step.text) := by
  have clear : '/' ∉ joinWith '-' days := not_mem_joinWith (by decide) slash
  cases step with
  | none => exact Text.splitOnce_of_not_mem clear
  | some step => exact Text.splitOnce_append clear step.text

theorem comma_not_mem_spell (comma : ∀ day ∈ days, ',' ∉ day) : ',' ∉ spell days step := by
  have clear : ',' ∉ joinWith '-' days := not_mem_joinWith (by decide) comma
  cases step with
  | none => exact clear
  | some step =>
    rw [spell, List.mem_append, List.mem_cons]
    rintro (mem | same | mem)
    · exact clear mem
    · exact absurd same (by decide)
    · exact (plain_of_isDigits step.digits).comma mem

theorem shiftTerm_spell {shifted : List Text} (nonempty : days ≠ [])
    (slash : ∀ day ∈ days, '/' ∉ day) (dash : ∀ day ∈ days, '-' ∉ day)
    (hshifted : days.mapM shiftDayOfWeek = .ok shifted) :
    shiftTerm (spell days step) = .ok (spell shifted step) := by
  unfold shiftTerm
  rw [splitOnce_spell slash]
  cases step with
  | none =>
    simp only [Option.map_none, spell, splitOn_joinWith nonempty dash, hshifted]
    rfl
  | some step =>
    simp only [Option.map_some, splitOn_joinWith nonempty dash, hshifted]
    rfl

/-- The days of a range or of the week, under a step. -/
def quartzStep (step : Option Step) (first last : Nat) : Option (Finset Nat) :=
  match step with
  | none => some (Finset.Icc first last)
  | some step =>
    if Text.ofDigits step.text ≤ 7 then
      some (everyNth (Text.ofDigits step.text) (Finset.Icc first last))
    else none

/-- What the crate makes of a shifted term. -/
def DayTerm.quartz : DayTerm → Option (Finset Nat)
  | every step => quartzStep step 1 7
  | day d => some {d.number % 7 + 1}
  | range first last _ step =>
    if Text.isDigits first.text = Text.isDigits last.text ∧
        first.number % 7 ≤ last.number % 7 then
      quartzStep step (first.number % 7 + 1) (last.number % 7 + 1)
    else none

theorem days_spell (many : days = [['*']] ∨ ∃ first last, days = [first, last])
    (comma : ∀ day ∈ days, ',' ∉ day) (slash : ∀ day ∈ days, '/' ∉ day) :
    crate.days (spell days step) = match step with
      | none => crate.days (joinWith '-' days)
      | some step =>
        if Text.ofDigits step.text ≤ 7 then
          (crate.days (joinWith '-' days)).map (everyNth (Text.ofDigits step.text))
        else none := by
  cases step with
  | none => rfl
  | some step =>
    have kind : joinWith '-' days = ['*'] ∨ '-' ∈ joinWith '-' days := by
      rcases many with rfl | ⟨first, last, rfl⟩
      · exact .inl rfl
      · exact .inr (by simp [joinWith])
    have one : 1 ≤ Text.ofDigits step.text := step.positive
    simp only [spell]
    rw [crate.step _ _ kind (not_mem_joinWith (by decide) comma)
      (not_mem_joinWith (by decide) slash) step.digits]
    simp [one]

theorem DayTerm.shift (term : DayTerm) : ∃ shifted, shiftTerm term.text = .ok shifted ∧
    ',' ∉ shifted ∧ crate.days shifted = term.quartz := by
  cases term with
  | every step =>
    have star : ∀ c, c ≠ '*' → ∀ day ∈ [['*']], c ∉ day := by
      intro c ne
      simpa using ne
    refine ⟨spell [['*']] step, ?_, comma_not_mem_spell (star ',' (by decide)), ?_⟩
    · exact shiftTerm_spell (by simp [DayTerm.days]) (star '/' (by decide))
        (star '-' (by decide)) rfl
    · rw [days_spell crate (.inl rfl) (star ',' (by decide)) (star '/' (by decide)), quartz]
      simp only [joinWith, crate.star, Option.map_some]
      cases step with
      | none => rfl
      | some step => rfl
  | day d =>
    obtain ⟨shifted, hshift, plain, becomes⟩ := d.shift
    refine ⟨spell [shifted] none, ?_, comma_not_mem_spell (by simpa using plain.comma), ?_⟩
    · refine shiftTerm_spell (by simp [DayTerm.days]) (by simpa [DayTerm.days] using d.plain.slash)
        (by simpa [DayTerm.days] using d.plain.dash) ?_
      rw [DayTerm.days, List.mapM_cons, hshift]
      rfl
    · exact becomes.days crate
  | range first last le step =>
    obtain ⟨first', hfirst, plain, becomes⟩ := first.shift
    obtain ⟨last', hlast, plain', becomes'⟩ := last.shift
    refine ⟨spell [first', last'] step, ?_,
      comma_not_mem_spell (by simpa using ⟨plain.comma, plain'.comma⟩), ?_⟩
    · refine shiftTerm_spell (by simp [DayTerm.days])
        (by simpa [DayTerm.days] using ⟨first.plain.slash, last.plain.slash⟩)
        (by simpa [DayTerm.days] using ⟨first.plain.dash, last.plain.dash⟩) ?_
      rw [DayTerm.days, List.mapM_cons, List.mapM_cons, hfirst, hlast]
      rfl
    · rw [days_spell crate (.inr ⟨first', last', rfl⟩)
        (by simpa using ⟨plain.comma, plain'.comma⟩)
        (by simpa using ⟨plain.slash, plain'.slash⟩), quartz]
      simp only [joinWith, becomes.range crate becomes']
      cases step with
      | none => rfl
      | some step =>
        simp only [quartzStep]
        split_ifs
        · rfl
        · rfl
        · rfl
        · rfl

end

/-! ## What a shifted term means -/

theorem mem_pick {first last step n : Nat} :
    n ∈ pick first last step ↔ n ≤ 7 ∧ first ≤ n ∧ n ≤ last ∧ (n - first) % step = 0 := by
  simp only [pick, List.mem_filter, List.mem_range, decide_eq_true_eq]
  omega

theorem mem_everyNth {first last step n : Nat} :
    n ∈ everyNth step (Finset.Icc first last) ↔
      first ≤ n ∧ n ≤ last ∧ (n - first) % step = 0 := by
  rw [everyNth, Finset.mem_filter, Finset.mem_Icc, and_assoc]
  refine and_congr_right fun low => and_congr_right fun high => ?_
  have below : (Finset.Icc first last).filter (· < n) = Finset.Ico first n := by
    ext day
    simp only [Finset.mem_filter, Finset.mem_Icc, Finset.mem_Ico]
    omega
  rw [below, Nat.card_Ico]

theorem quartzStep_isSome {step : Option Step} {first last : Nat} :
    (∃ days, quartzStep step first last = some days) ↔ Short step := by
  cases step with
  | none => simp [quartzStep, Short]
  | some step => simp [quartzStep, Short]

theorem mem_quartzStep {step : Option Step} {first last n : Nat} {days : Finset Nat}
    (h : quartzStep step first last = some days) :
    n ∈ days ↔ first ≤ n ∧ n ≤ last ∧ (n - first) % stride step = 0 := by
  unfold quartzStep at h
  split at h
  · obtain rfl := Option.some.inj h
    simp [stride, Nat.mod_one]
  · split at h
    · obtain rfl := Option.some.inj h
      exact mem_everyNth
    · cases h

namespace DayTerm

theorem quartz_isSome {term : DayTerm} : (∃ days, term.quartz = some days) ↔ term.Taken := by
  cases term with
  | every step => exact quartzStep_isSome
  | day d => simp [quartz, Taken]
  | range first last le step =>
    have := last.le_seven
    rw [quartz, Taken]
    split
    · rename_i here
      rw [quartzStep_isSome]
      constructor
      · intro short
        exact ⟨short, here.1, by omega⟩
      · exact And.left
    · rename_i refused
      simp only [reduceCtorEq, exists_false, false_iff]
      rintro ⟨-, alike, ends⟩
      refine refused ⟨alike, ?_⟩
      omega

theorem means_of_full {term : DayTerm} (full : term.Full) : term.Means 0 := by
  cases term with
  | range first last le step => exact ⟨0, mem_pick.mpr (by simp [DayTerm.first, full.1]), rfl⟩
  | every => exact full.elim
  | day => exact full.elim

theorem means_iff (term : DayTerm) (weekday : Nat) : term.Means weekday ↔
    ∃ n, n % 7 = weekday ∧ n ≤ 7 ∧ term.first ≤ n ∧ n ≤ term.last ∧
      (n - term.first) % stride term.step = 0 := by
  simp only [Means, mem_pick, and_comm]

/-- A term that stays below 7 means the numbers it selects. -/
theorem means_of_below (term : DayTerm) {weekday : Nat} (below : term.last < 7) (lt : weekday < 7) :
    term.Means weekday ↔ term.first ≤ weekday ∧ weekday ≤ term.last ∧
      (weekday - term.first) % stride term.step = 0 := by
  rw [means_iff]
  constructor
  · rintro ⟨n, rfl, -, low, high, whole⟩
    rw [Nat.mod_eq_of_lt (by omega)]
    exact ⟨low, high, whole⟩
  · rintro ⟨low, high, whole⟩
    exact ⟨weekday, Nat.mod_eq_of_lt lt, by omega, low, high, whole⟩

theorem means_of_single (term : DayTerm) {weekday : Nat} (single : term.first = term.last)
    (le : term.last ≤ 7) : term.Means weekday ↔ weekday = term.last % 7 := by
  rw [means_iff]
  constructor
  · rintro ⟨n, rfl, -, low, high, -⟩
    have same : n = term.last := by omega
    rw [same]
  · rintro rfl
    exact ⟨term.last, rfl, le, by omega, le_refl _, by simp [single]⟩

/-- A step from 0 to 7 may select Sunday at either end. -/
theorem means_every {step : Option Step} {weekday : Nat} (lt : weekday < 7) :
    (every step).Means weekday ↔ weekday % stride step = 0 := by
  rw [means_iff]
  simp only [first, last, DayTerm.step, Nat.sub_zero]
  constructor
  · rintro ⟨n, rfl, le, -, -, whole⟩
    by_cases sunday : n = 7
    · simp [sunday]
    · rwa [Nat.mod_eq_of_lt (by omega : n < 7)]
  · intro whole
    exact ⟨weekday, Nat.mod_eq_of_lt lt, by omega, Nat.zero_le _, by omega, whole⟩

/-- What the crate finds for a term that it takes. -/
theorem found_iff {term : DayTerm} {days : Finset Nat} {weekday : Nat}
    (hdays : term.quartz = some days) (lt : weekday < 7) :
    weekday + 1 ∈ days ↔ term.Full ∧ weekday = 0 ∨ ¬term.Full ∧ term.Means weekday := by
  have taken := quartz_isSome.mp ⟨days, hdays⟩
  cases term with
  | every step =>
    rw [mem_quartzStep hdays, means_every lt, Nat.add_sub_cancel]
    have inside : 1 ≤ weekday + 1 ∧ weekday + 1 ≤ 7 := by omega
    simp [Full, inside]
  | day d =>
    have means : (day d).Means weekday ↔ weekday = d.number % 7 :=
      means_of_single (day d) rfl d.le_seven
    obtain rfl := Option.some.inj hdays
    rw [means, Finset.mem_singleton]
    simp [Full]
  | range first last le step =>
    have := last.le_seven
    have hstep := hdays
    rw [quartz, if_pos ⟨taken.2.1, by have := taken.2.2; omega⟩] at hstep
    rw [mem_quartzStep hstep, Nat.add_sub_add_right]
    by_cases sunday : last.number = 7
    · -- Both ends are Sunday for the crate.
      have ends : first.number % 7 = 0 ∧ last.number % 7 = 0 := by
        have := taken.2.2 sunday
        omega
      have only : first.number % 7 + 1 ≤ weekday + 1 ∧ weekday + 1 ≤ last.number % 7 + 1 ∧
          (weekday - first.number % 7) % stride step = 0 ↔ weekday = 0 := by
        rw [ends.1, ends.2]
        constructor
        · omega
        · rintro rfl
          simp
      rw [only]
      rcases taken.2.2 sunday with low | high
      · simp [Full, low, sunday]
      · have means : (range first last le step).Means weekday ↔ weekday = last.number % 7 :=
          means_of_single _ (high.trans sunday.symm) last.le_seven
        rw [means]
        simp [Full, high, sunday]
    · have below : (range first last le step).last < 7 := by
        simp only [DayTerm.last]
        omega
      rw [means_of_below _ below lt, Nat.mod_eq_of_lt (by omega : first.number < 7),
        Nat.mod_eq_of_lt (by omega : last.number < 7)]
      simp only [Full, sunday, and_false, false_and, not_false_eq_true, true_and, false_or,
        DayTerm.first, DayTerm.last, DayTerm.step]
      omega

theorem comma_not_mem_text (term : DayTerm) : ',' ∉ term.text := by
  refine comma_not_mem_spell ?_
  cases term with
  | every => simp [days]
  | day d => simpa [days] using d.plain.comma
  | range first last => simpa [days] using ⟨first.plain.comma, last.plain.comma⟩

theorem Means.lt {term : DayTerm} {weekday : Nat} (means : term.Means weekday) : weekday < 7 := by
  obtain ⟨n, -, rfl⟩ := means
  exact Nat.mod_lt n (by decide)

end DayTerm

/-! ## A crate that reads such fields -/

/-- A day by its number or by its name, with whether it is a number. -/
def quartzDay (text : Text) : Option (Bool × Nat) :=
  if Text.isDigits text then
    if 1 ≤ Text.ofDigits text ∧ Text.ofDigits text ≤ 7 then some (true, Text.ofDigits text)
    else none
  else (dayName text).map fun n => (false, n + 1)

def quartzRange (first last : Text) : Option (Finset Nat) :=
  match quartzDay first, quartzDay last with
  | some (number, first), some (number', last) =>
    if number = number' ∧ first ≤ last then some (Finset.Icc first last) else none
  | _, _ => none

def quartzSpecifier (text : Text) : Option (Finset Nat) :=
  if text = ['*'] ∨ text = ['?'] then some (Finset.Icc 1 7)
  else match Text.splitOn '-' text with
    | [day] => (quartzDay day).map fun (_, n) => {n}
    | [first, last] => quartzRange first last
    | _ => none

/-- A step counts from a number to the end of the week, and does not go with a name. -/
def quartzPeriod (text step : Text) : Option (Finset Nat) :=
  if Text.isDigits step ∧ 1 ≤ Text.ofDigits step ∧ Text.ofDigits step ≤ 7 then
    match quartzDay text with
    | some (true, first) => some (everyNth (Text.ofDigits step) (Finset.Icc first 7))
    | some (false, _) => none
    | none => (quartzSpecifier text).map (everyNth (Text.ofDigits step))
  else none

def quartzTerm (term : Text) : Option (Finset Nat) :=
  match Text.splitOnce '/' term with
  | some (text, step) => quartzPeriod text step
  | none => quartzSpecifier term

def quartzDays (field : Text) : Option (Finset Nat) :=
  ((Text.splitOn ',' field).mapM quartzTerm).map fun each => each.foldr (· ∪ ·) ∅

theorem quartzDays_term {term : Text} (comma : ',' ∉ term) : quartzDays term = quartzTerm term := by
  rw [quartzDays, Text.splitOn_of_not_mem comma, List.mapM_cons, List.mapM_nil]
  cases quartzTerm term with
  | none => rfl
  | some days => simp

theorem quartzDays_specifier {text : Text} (comma : ',' ∉ text) (slash : '/' ∉ text) :
    quartzDays text = quartzSpecifier text := by
  rw [quartzDays_term comma, quartzTerm, Text.splitOnce_of_not_mem slash]

theorem quartzDays_day {text : Text} (plain : Plain text) (letter : text ≠ ['?']) :
    quartzDays text = (quartzDay text).map fun (_, n) => {n} := by
  rw [quartzDays_specifier plain.comma plain.slash, quartzSpecifier,
    if_neg (not_or.mpr ⟨plain.star, letter⟩), Text.splitOn_of_not_mem plain.dash]

theorem quartzDays_range {first last : Text} (plain : Plain first) (plain' : Plain last) :
    quartzDays (first ++ '-' :: last) = quartzRange first last := by
  have clear : ∀ c, c ∉ first → c ∉ last → c ≠ '-' → c ∉ first ++ '-' :: last := by
    intro c hfirst hlast other
    simp [hfirst, hlast, other]
  have many : ∀ c, c ≠ '-' → first ++ '-' :: last ≠ [c] := by
    intro c other same
    have mem : '-' ∈ first ++ '-' :: last := by simp
    rw [same, List.mem_singleton] at mem
    exact other mem.symm
  rw [quartzDays_specifier (clear ',' plain.comma plain'.comma (by decide))
      (clear '/' plain.slash plain'.slash (by decide)), quartzSpecifier,
    if_neg (not_or.mpr ⟨many '*' (by decide), many '?' (by decide)⟩),
    Text.splitOn_append plain.dash,
    Text.splitOn_of_not_mem plain'.dash]

theorem quartzDay_number {text : Text} (digits : Text.isDigits text) : quartzDay text =
    if 1 ≤ Text.ofDigits text ∧ Text.ofDigits text ≤ 7 then some (true, Text.ofDigits text)
    else none := if_pos digits

theorem quartzDay_name {text : Text} {n : Nat} (name : dayName text = some n) :
    quartzDay text = some (false, n + 1) := by
  rw [quartzDay, if_neg (by simp [not_isDigits_of_dayName name]), name, Option.map_some]

theorem quartzDay_range {text : Text} (h : text = ['*'] ∨ '-' ∈ text) : quartzDay text = none := by
  have plain : ¬Plain text := by
    rintro ⟨-, dash, -, star⟩
    exact h.elim star dash
  have letters : Text.isDigits text = false := by
    rw [Bool.eq_false_iff]
    exact fun digits => plain (plain_of_isDigits digits)
  cases name : dayName text with
  | none => simp [quartzDay, letters, name]
  | some n => exact absurd (plain_of_dayName name) plain

def CronCrate.Weekdays.quartz : CronCrate.Weekdays where
  days := quartzDays
  list terms nonempty comma := by
    have each : terms.mapM quartzDays = terms.mapM quartzTerm :=
      mapM_congr fun term mem => quartzDays_term (comma term mem)
    rw [quartzDays, splitOn_joinWith nonempty comma, each]
  star := by decide
  number text digits := by
    have letter : text ≠ ['?'] := by
      rintro rfl
      exact absurd digits (by decide)
    rw [quartzDays_day (plain_of_isDigits digits) letter, quartzDay_number digits]
    split
    · rfl
    · rfl
  name text n name := by
    have letter : text ≠ ['?'] := by
      rintro rfl
      have none : dayName ['?'] = none := by decide
      rw [none] at name
      cases name
    rw [quartzDays_day (plain_of_dayName name) letter, quartzDay_name name]
    rfl
  numbers first last digits digits' := by
    rw [quartzDays_range (plain_of_isDigits digits) (plain_of_isDigits digits'), quartzRange,
      quartzDay_number digits, quartzDay_number digits']
    by_cases low : 1 ≤ Text.ofDigits first ∧ Text.ofDigits first ≤ 7
    · by_cases high : 1 ≤ Text.ofDigits last ∧ Text.ofDigits last ≤ 7
      · rw [if_pos low, if_pos high]
        refine if_congr ?_ rfl rfl
        simp only [true_and]
        omega
      · rw [if_pos low, if_neg high, if_neg (by omega)]
    · have refused : ¬(1 ≤ Text.ofDigits first ∧ Text.ofDigits first ≤ Text.ofDigits last ∧
          Text.ofDigits last ≤ 7) := by omega
      rw [if_neg low, if_neg refused]
  names first last m n name name' := by
    rw [quartzDays_range (plain_of_dayName name) (plain_of_dayName name'), quartzRange,
      quartzDay_name name, quartzDay_name name']
    simp
  mixed number name n digits hname := by
    rw [quartzDays_range (plain_of_isDigits digits) (plain_of_dayName hname),
      quartzDays_range (plain_of_dayName hname) (plain_of_isDigits digits), quartzRange,
      quartzRange, quartzDay_number digits, quartzDay_name hname]
    split_ifs
    · simp
    · simp
  step text step kind comma slash digits := by
    have clear : ',' ∉ text ++ '/' :: step := by
      simp [comma, Text.not_mem_of_isDigits digits (c := ',') (by decide)]
    rw [quartzDays_term clear, quartzTerm, Text.splitOnce_append slash,
      quartzDays_specifier comma slash]
    simp only [quartzPeriod, digits, true_and, quartzDay_range kind]

/-! ## The shift of a field -/

theorem DayField.shift (crate : CronCrate.Weekdays) (field : DayField) :
    ∃ shifted, shiftDaysOfWeek field.text = .ok shifted ∧ crate.days shifted =
      (field.terms.mapM DayTerm.quartz).map fun each => each.foldr (· ∪ ·) ∅ := by
  choose shifted hshift comma hquartz using DayTerm.shift crate
  have cut : Text.splitOn ',' field.text = field.terms.map (·.text) := by
    refine splitOn_joinWith (by simpa using field.nonempty) fun part hpart => ?_
    obtain ⟨term, -, rfl⟩ := List.mem_map.mp hpart
    exact term.comma_not_mem_text
  refine ⟨joinWith ',' (field.terms.map shifted), ?_, ?_⟩
  · have each : (field.terms.map (·.text)).mapM shiftTerm = .ok (field.terms.map shifted) := by
      rw [List.mapM_map]
      exact mapM_eq_ok_map fun term _ => hshift term
    rw [shiftDaysOfWeek, cut, each]
    rfl
  · have each : crate.days ∘ shifted = DayTerm.quartz := funext hquartz
    rw [crate.list, List.mapM_map, each]
    · simpa using field.nonempty
    · intro part hpart
      obtain ⟨term, -, rfl⟩ := List.mem_map.mp hpart
      exact comma term

theorem DayField.found_iff {field : DayField} {each : List (Finset Nat)} {weekday : Nat}
    (heach : field.terms.mapM DayTerm.quartz = some each) (lt : weekday < 7) :
    weekday + 1 ∈ each.foldr (· ∪ ·) ∅ ↔ ∃ term ∈ field.terms,
      term.Full ∧ weekday = 0 ∨ ¬term.Full ∧ term.Means weekday := by
  rw [mem_union_of_mapM heach]
  constructor
  · rintro ⟨term, mem, days, hdays, day⟩
    exact ⟨term, mem, (DayTerm.found_iff hdays lt).mp day⟩
  · rintro ⟨term, mem, meant⟩
    obtain ⟨days, -, hdays⟩ := Forall₂.exists_right (mapM_eq_some heach) mem
    exact ⟨term, mem, days, hdays, (DayTerm.found_iff hdays lt).mpr meant⟩

theorem DayField.folds_of_kept {crate : CronCrate.Weekdays} {field : DayField}
    (kept : field.Kept crate) : field.Folds := by
  obtain ⟨shifted, hshift, hquartz⟩ := field.shift crate
  obtain ⟨shifted', days, hshift', hdays, same⟩ := kept
  obtain rfl := Except.ok.inj (hshift.symm.trans hshift')
  rw [hquartz, Option.map_eq_some_iff] at hdays
  obtain ⟨each, heach, rfl⟩ := hdays
  refine ⟨fun term mem => ?_, fun term mem full weekday means => ?_⟩
  · obtain ⟨days, -, hdays⟩ := Forall₂.exists_right (mapM_eq_some heach) mem
    exact DayTerm.quartz_isSome.mp ⟨days, hdays⟩
  · have found := (same weekday means.lt).mpr ⟨term, mem, means⟩
    obtain ⟨other, hother, ⟨-, sunday⟩ | ⟨narrow, means'⟩⟩ :=
      (DayField.found_iff heach means.lt).mp found
    · exact .inl sunday
    · exact .inr ⟨other, hother, narrow, means'⟩

theorem DayField.Folds.kept {field : DayField} (folds : field.Folds)
    (crate : CronCrate.Weekdays) : field.Kept crate := by
  obtain ⟨shifted, hshift, hquartz⟩ := field.shift crate
  obtain ⟨each, heach⟩ := mapM_isSome fun term mem =>
    DayTerm.quartz_isSome.mpr (folds.taken term mem)
  refine ⟨shifted, each.foldr (· ∪ ·) ∅, hshift, by rw [hquartz, heach]; rfl,
    fun weekday lt => ?_⟩
  rw [DayField.found_iff heach lt]
  constructor
  · rintro ⟨term, mem, ⟨full, rfl⟩ | ⟨-, means⟩⟩
    · exact ⟨term, mem, DayTerm.means_of_full full⟩
    · exact ⟨term, mem, means⟩
  · rintro ⟨term, mem, means⟩
    by_cases full : term.Full
    · rcases folds.full term mem full weekday means with rfl | ⟨other, hother, narrow, means'⟩
      · exact ⟨term, mem, .inl ⟨full, rfl⟩⟩
      · exact ⟨other, hother, .inr ⟨narrow, means'⟩⟩
    · exact ⟨term, mem, .inr ⟨full, means⟩⟩

/-- Which crontab fields still mean the same days when they are shifted. -/
theorem shiftDaysOfWeek_kept_iff (crate : CronCrate.Weekdays) (field : DayField) :
    field.Kept crate ↔ field.Folds :=
  ⟨DayField.folds_of_kept, fun folds => folds.kept crate⟩

def Day.ofNumber (n : Fin 8) : Day where
  text := Nat.toDigits 10 n
  number := n
  named := by
    have small : ∀ n < 8, Text.isDigits (Nat.toDigits 10 n) ∧
        Text.ofDigits (Nat.toDigits 10 n) = n := by decide
    obtain ⟨digits, number⟩ := small n n.isLt
    exact .inl ⟨digits, number, by omega⟩

/-- `1-5/2,Sun`, every second day from Monday, and Sunday. -/
def oddDaysAndSunday : DayField where
  terms :=
    [.range (.ofNumber 1) (.ofNumber 5) (by decide) (some ⟨['2'], by decide, by decide⟩),
      .day ⟨"Sun".toList, 0, .inr (by decide)⟩]
  nonempty := by simp

theorem kept_oddDaysAndSunday : oddDaysAndSunday.text = "1-5/2,Sun".toList ∧
    shiftDaysOfWeek oddDaysAndSunday.text = .ok "2-6/2,Sun".toList ∧
    CronCrate.Weekdays.quartz.days "2-6/2,Sun".toList = some {1, 2, 4, 6} ∧
    oddDaysAndSunday.Kept .quartz := by
  refine ⟨by decide, by decide, by decide, (shiftDaysOfWeek_kept_iff .quartz _).mpr ⟨?_, ?_⟩⟩
  · intro term mem
    rcases List.mem_pair.mp mem with rfl | rfl
    · refine ⟨fun step found => ?_, by decide, by decide⟩
      obtain rfl := Option.mem_some.mp found
      decide
    · trivial
  · intro term mem full
    rcases List.mem_pair.mp mem with rfl | rfl
    · exact absurd full.2 (by decide)
    · exact full.elim

/-- `5-7`, Friday to Sunday. -/
def fridayToSunday : DayField := ⟨[.range (.ofNumber 5) (.ofNumber 7) (by decide) none], by simp⟩

theorem not_kept_fridayToSunday : fridayToSunday.text = "5-7".toList ∧
    shiftDaysOfWeek fridayToSunday.text = .ok "6-1".toList ∧
    CronCrate.Weekdays.quartz.days "6-1".toList = none ∧ ¬fridayToSunday.Kept .quartz := by
  have shifted : shiftDaysOfWeek fridayToSunday.text = .ok "6-1".toList := by decide
  have refused : CronCrate.Weekdays.quartz.days "6-1".toList = none := by decide
  refine ⟨by decide, shifted, refused, ?_⟩
  rintro ⟨shifted', days, hshift, hdays, -⟩
  obtain rfl := Except.ok.inj (shifted.symm.trans hshift)
  rw [refused] at hdays
  cases hdays

/-- `0-7` becomes Sunday to Sunday. -/
example : shiftDaysOfWeek "0-7".toList = .ok "1-1".toList ∧
    CronCrate.Weekdays.quartz.days "1-1".toList = some {1} := by decide

end Beez
