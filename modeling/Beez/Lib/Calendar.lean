import Mathlib.Tactic.Common
import Mathlib.Data.Int.Basic

/-! # The Gregorian calendar, as a count of days

A year starts in March here, so a leap day is the last day of its year. An era is 400 years. -/

namespace Beez.Lib

@[ext] structure Date where
  year : Int
  month : Nat
  day : Nat
deriving DecidableEq

namespace Date

/-- The year of the era, and the day of that year, both from zero. -/
def yearOfEra (day : Nat) : Nat × Nat :=
  let century := min (day / 36524) 3
  let rest := day - 36524 * century
  let year := min (rest % 1461 / 365) 3
  (100 * century + 4 * (rest / 1461) + year, rest % 1461 - 365 * year)

/-- The month, and the day of that month, both from one. -/
def monthOfYear (day : Nat) : Nat × Nat :=
  let month := (5 * day + 2) / 153
  (if month < 10 then month + 3 else month - 9, day - (153 * month + 2) / 5 + 1)

/-- The date that lies `days` after 1970-01-01. -/
def ofDays (days : Int) : Date :=
  let shifted := days + 719468
  let year := yearOfEra (shifted % 146097).toNat
  let month := monthOfYear year.2
  ⟨shifted / 146097 * 400 + year.1 + (if month.1 ≤ 2 then 1 else 0), month.1, month.2⟩

/-- The days of a year before `month`. -/
def daysBefore (month : Nat) : Nat :=
  (153 * (if month ≤ 2 then month + 9 else month - 3) + 2) / 5

/-- The days from 1970-01-01 to the date. -/
def toDays (date : Date) : Int :=
  let year := date.year - (if date.month ≤ 2 then 1 else 0)
  let yearOfEra := (year % 400).toNat
  year / 400 * 146097 + (365 * yearOfEra + yearOfEra / 4 - yearOfEra / 100
    + (daysBefore date.month + date.day - 1) : Nat) - 719468

theorem yearOfEra_spec {day : Nat} (h : day < 146097) :
    (yearOfEra day).1 < 400 ∧ (yearOfEra day).2 ≤ 365 ∧
      365 * (yearOfEra day).1 + (yearOfEra day).1 / 4 - (yearOfEra day).1 / 100
        + (yearOfEra day).2 = day := by
  obtain ⟨century, hcentury⟩ : ∃ century, century = min (day / 36524) 3 := ⟨_, rfl⟩
  obtain ⟨rest, hrest⟩ : ∃ rest, rest = day - 36524 * century := ⟨_, rfl⟩
  obtain ⟨year, hyear⟩ : ∃ year, year = min (rest % 1461 / 365) 3 := ⟨_, rfl⟩
  have hcycles : rest / 1461 ≤ 24 := by omega
  have hfour : (100 * century + 4 * (rest / 1461) + year) / 4 = 25 * century + rest / 1461 := by
    omega
  have hhundred : (100 * century + 4 * (rest / 1461) + year) / 100 = century := by omega
  simp only [yearOfEra, ← hcentury, ← hrest, ← hyear, hfour, hhundred]
  omega

theorem monthOfYear_spec {day : Nat} (h : day ≤ 365) :
    1 ≤ (monthOfYear day).1 ∧ (monthOfYear day).1 ≤ 12 ∧
      1 ≤ (monthOfYear day).2 ∧ (monthOfYear day).2 ≤ 31 ∧
      daysBefore (monthOfYear day).1 + (monthOfYear day).2 - 1 = day := by
  simp only [monthOfYear, daysBefore]
  split <;> split <;> omega

theorem day_lt (days : Int) : ((days + 719468) % 146097).toNat < 146097 := by omega

theorem ofDays_ranges (days : Int) : (ofDays days).month ≤ 12 ∧ (ofDays days).day ≤ 31 := by
  obtain ⟨-, hday, -⟩ := yearOfEra_spec (day_lt days)
  obtain ⟨-, hmonth, -, hday, -⟩ := monthOfYear_spec hday
  exact ⟨hmonth, hday⟩

theorem toDays_mk (era : Int) {year : Nat} (month day : Nat) (h : year < 400) :
    toDays ⟨era * 400 + year + (if month ≤ 2 then 1 else 0), month, day⟩ =
      era * 146097 + (365 * year + year / 4 - year / 100 + (daysBefore month + day - 1) : Nat)
        - 719468 := by
  have hyear : ((era * 400 + year) % 400).toNat = year := by omega
  have hera : (era * 400 + year) / 400 = era := by omega
  simp only [toDays, Int.add_sub_cancel]
  rw [hyear, hera]

theorem toDays_ofDays (days : Int) : toDays (ofDays days) = days := by
  obtain ⟨hyear, hday, hdays⟩ := yearOfEra_spec (day_lt days)
  obtain ⟨-, -, -, -, hmonth⟩ := monthOfYear_spec hday
  unfold ofDays
  rw [toDays_mk _ _ _ hyear, hmonth, hdays]
  omega

theorem ofDays_inj {a b : Int} (h : ofDays a = ofDays b) : a = b := by
  rw [← toDays_ofDays a, h, toDays_ofDays]

example : ofDays 11016 = ⟨2000, 2, 29⟩ := by decide

/-! ## Later days have later dates -/

/-- A later year has no fewer leap years before it. -/
theorem leaps_le {a b : Nat} (h : a ≤ b) : a / 4 - a / 100 ≤ b / 4 - b / 100 := by
  have ha : a / 100 = a / 4 / 25 := by omega
  have hb : b / 100 = b / 4 / 25 := by omega
  rw [ha, hb]
  by_cases same : a / 4 / 25 = b / 4 / 25
  · omega
  · omega

theorem yearOfEra_lt {a b : Nat} (hb : b < 146097) (h : a < b) :
    (yearOfEra a).1 < (yearOfEra b).1 ∨
      (yearOfEra a).1 = (yearOfEra b).1 ∧ (yearOfEra a).2 < (yearOfEra b).2 := by
  obtain ⟨-, hday, hdays⟩ := yearOfEra_spec (Nat.lt_trans h hb)
  obtain ⟨-, hday', hdays'⟩ := yearOfEra_spec hb
  generalize (yearOfEra a).1 = year at *
  generalize (yearOfEra b).1 = year' at *
  have leaps : year' ≤ year → _ := leaps_le
  omega

/-- The month that a day of the year lies in, as a number that grows from March to February. -/
theorem monthOfYear_index (day : Nat) :
    (monthOfYear day).1 + (if (monthOfYear day).1 ≤ 2 then 12 else 0) = (5 * day + 2) / 153 + 3 ∨
      365 < day := by
  simp only [monthOfYear]
  split <;> split <;> omega

theorem monthOfYear_lt {a b : Nat} (h : a < b) :
    (5 * a + 2) / 153 < (5 * b + 2) / 153 ∨
      (5 * a + 2) / 153 = (5 * b + 2) / 153 ∧ (monthOfYear a).2 < (monthOfYear b).2 := by
  simp only [monthOfYear]
  omega

/-- The months since the year zero. -/
def monthIndex (date : Date) : Int := 12 * date.year + date.month

theorem monthIndex_ofDays (days : Int) :
    monthIndex (ofDays days) = 12 * ((days + 719468) / 146097 * 400 +
      (yearOfEra ((days + 719468) % 146097).toNat).1) +
        ((5 * (yearOfEra ((days + 719468) % 146097).toNat).2 + 2) / 153 + 3 : Nat) := by
  obtain ⟨-, hday, -⟩ := yearOfEra_spec (day_lt days)
  have index := (monthOfYear_index (yearOfEra ((days + 719468) % 146097).toNat).2).resolve_right
    (Nat.not_lt.mpr hday)
  simp only [monthIndex, ofDays]
  split at index <;> rename_i first <;> simp only [first, if_true, if_false] <;> omega

theorem ofDays_lt {a b : Int} (h : a < b) :
    monthIndex (ofDays a) < monthIndex (ofDays b) ∨
      monthIndex (ofDays a) = monthIndex (ofDays b) ∧ (ofDays a).day < (ofDays b).day := by
  rw [monthIndex_ofDays, monthIndex_ofDays]
  obtain ⟨hyear, hday, -⟩ := yearOfEra_spec (day_lt a)
  show _ ∨ _ ∧ (monthOfYear (yearOfEra ((a + 719468) % 146097).toNat).2).2 <
    (monthOfYear (yearOfEra ((b + 719468) % 146097).toNat).2).2
  by_cases era : (a + 719468) / 146097 < (b + 719468) / 146097
  · left
    omega
  · have same : (a + 719468) / 146097 = (b + 719468) / 146097 := by omega
    have later := yearOfEra_lt (day_lt b) (a := ((a + 719468) % 146097).toNat) (by omega)
    generalize yearOfEra ((a + 719468) % 146097).toNat = year at *
    generalize yearOfEra ((b + 719468) % 146097).toNat = year' at *
    rcases later with more | ⟨sameYear, more⟩
    · left
      omega
    · rcases monthOfYear_lt more with month | ⟨sameMonth, later⟩
      · left
        omega
      · right
        exact ⟨by omega, later⟩

theorem month_pos (days : Int) : 1 ≤ (ofDays days).month := by
  obtain ⟨-, hday, -⟩ := yearOfEra_spec (day_lt days)
  exact (monthOfYear_spec hday).1

end Date

end Beez.Lib
