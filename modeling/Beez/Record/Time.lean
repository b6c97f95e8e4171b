import Beez.Lib.Calendar
import Beez.Lib.Lexical
import Beez.Text

/-! # UTC timestamps

A time is a number of nanoseconds since 1970.
-/

open Beez.Lib

namespace Beez.Record

def millisecond (time : Int) : Int := time / 1000000

/-- `%Y`: four digits, and a sign before every other year. -/
def yearText (year : Int) : Text :=
  if 0 ≤ year ∧ year < 10000 then padded 4 year.toNat
  else (if year < 0 then '-' else '+') :: padded 4 year.natAbs

/-- `T%H%M%S%3fZ` of a millisecond of the day. -/
def clockText (time : Nat) : Text :=
  'T' :: (padded 2 (time / 3600000) ++ (padded 2 (time / 60000 % 60) ++
    (padded 2 (time / 1000 % 60) ++ (padded 3 (time % 1000) ++ ['Z']))))

/-- Formats `time` as a UTC stamp without separators, for a directory name. -/
def compactUtc (time : Int) : Text :=
  let date := Date.ofDays (millisecond time / 86400000)
  yearText date.year ++ (padded 2 date.month ++ (padded 2 date.day ++
    clockText (millisecond time % 86400000).toNat))

example : compactUtc 1700000000042000000 = "20231114T221320042Z".toList := by decide

/-! ## No two milliseconds have one stamp -/

theorem length_padded_two {n : Nat} (h : n < 100) : (padded 2 n).length = 2 :=
  length_padded (by decide) (by omega)

theorem length_padded_three {n : Nat} (h : n < 1000) : (padded 3 n).length = 3 :=
  length_padded (by decide) (by omega)

theorem padded_two_append {m n : Nat} {s t : Text} (hm : m < 100) (hn : n < 100)
    (h : padded 2 m ++ s = padded 2 n ++ t) : m = n ∧ s = t := by
  obtain ⟨same, rest⟩ := List.append_inj h (by rw [length_padded_two hm, length_padded_two hn])
  exact ⟨padded_inj same, rest⟩

theorem sign_ne {year : Int} {rest : Text} {n : Nat}
    (h : (if year < 0 then '-' else '+') :: rest = padded 4 n) : False := by
  have digit : (if year < 0 then '-' else '+').isDigit = true := by
    apply isDigit_of_mem_padded
    rw [← h]
    exact List.mem_cons_self
  split at digit <;> simp at digit

theorem yearText_inj {a b : Int} (h : yearText a = yearText b) : a = b := by
  unfold yearText at h
  by_cases ha : 0 ≤ a ∧ a < 10000
  · by_cases hb : 0 ≤ b ∧ b < 10000
    · rw [if_pos ha, if_pos hb] at h
      have := padded_inj h
      omega
    · rw [if_pos ha, if_neg hb] at h
      exact (sign_ne h.symm).elim
  · by_cases hb : 0 ≤ b ∧ b < 10000
    · rw [if_neg ha, if_pos hb] at h
      exact (sign_ne h).elim
    · rw [if_neg ha, if_neg hb] at h
      obtain ⟨sign, digits⟩ := List.cons.inj h
      have := padded_inj digits
      split at sign <;> split at sign <;> first | omega | simp at sign

theorem length_clockText {time : Nat} (h : time < 86400000) : (clockText time).length = 11 := by
  simp only [clockText, List.length_cons, List.length_append, List.length_nil]
  rw [length_padded_two (by omega), length_padded_two (by omega), length_padded_two (by omega),
    length_padded_three (by omega)]

theorem clockText_inj {a b : Nat} (ha : a < 86400000) (hb : b < 86400000)
    (h : clockText a = clockText b) : a = b := by
  obtain ⟨hour, h⟩ := padded_two_append (by omega) (by omega) (List.cons.inj h).2
  obtain ⟨minute, h⟩ := padded_two_append (by omega) (by omega) h
  obtain ⟨second, h⟩ := padded_two_append (by omega) (by omega) h
  have milli := padded_inj (List.append_cancel_right h)
  omega

theorem compactUtc_inj {a b : Int} (h : compactUtc a = compactUtc b) :
    millisecond a = millisecond b := by
  have ranges := fun days => Date.ofDays_ranges days
  have length : ∀ time : Int, (padded 2 (Date.ofDays (millisecond time / 86400000)).month ++
      (padded 2 (Date.ofDays (millisecond time / 86400000)).day ++
        clockText (millisecond time % 86400000).toNat)).length = 15 := by
    intro time
    obtain ⟨hmonth, hday⟩ := ranges (millisecond time / 86400000)
    rw [List.length_append, List.length_append, length_padded_two (by omega),
      length_padded_two (by omega), length_clockText (by omega)]
  obtain ⟨hmonth, hday⟩ := ranges (millisecond a / 86400000)
  obtain ⟨hmonth', hday'⟩ := ranges (millisecond b / 86400000)
  obtain ⟨year, h⟩ := List.append_inj' h (by rw [length, length])
  obtain ⟨month, h⟩ := padded_two_append (by omega) (by omega) h
  obtain ⟨day, h⟩ := padded_two_append (by omega) (by omega) h
  have date : Date.ofDays (millisecond a / 86400000) = Date.ofDays (millisecond b / 86400000) := by
    apply Date.ext
    · exact yearText_inj year
    · exact month
    · exact day
  have days := Date.ofDays_inj date
  have clock := clockText_inj (by omega) (by omega) h
  omega

/-! ## Stamps sort by time -/

theorem clockText_lt {a b : Nat} (h : a < b) (hb : b < 86400000) : clockText a < clockText b := by
  refine @List.append_left_lt _ _ ['T'] _ _ ?_
  by_cases hour : a / 3600000 < b / 3600000
  · exact padded_append_lt (by decide) hour (by omega) _ _
  rw [show a / 3600000 = b / 3600000 by omega]
  apply List.append_left_lt
  by_cases minute : a / 60000 % 60 < b / 60000 % 60
  · exact padded_append_lt (by decide) minute (by omega) _ _
  rw [show a / 60000 % 60 = b / 60000 % 60 by omega]
  apply List.append_left_lt
  by_cases second : a / 1000 % 60 < b / 1000 % 60
  · exact padded_append_lt (by decide) second (by omega) _ _
  rw [show a / 1000 % 60 = b / 1000 % 60 by omega]
  apply List.append_left_lt
  exact padded_append_lt (by decide) (by omega) (by omega) _ _

/-- The year of the time has four digits. -/
def FourDigits (time : Int) : Prop :=
  0 ≤ (Date.ofDays (millisecond time / 86400000)).year ∧
    (Date.ofDays (millisecond time / 86400000)).year < 10000

theorem yearText_four {year : Int} (h : 0 ≤ year ∧ year < 10000) :
    yearText year = padded 4 year.toNat := if_pos h

theorem compactUtc_lt {a b : Int} (h : millisecond a < millisecond b) (ha : FourDigits a)
    (hb : FourDigits b) : compactUtc a < compactUtc b := by
  obtain ⟨hmonth, hday⟩ := Date.ofDays_ranges (millisecond b / 86400000)
  have pos := Date.month_pos (millisecond b / 86400000)
  have pos' := Date.month_pos (millisecond a / 86400000)
  have hmonth' := (Date.ofDays_ranges (millisecond a / 86400000)).1
  simp only [compactUtc, yearText_four ha, yearText_four hb]
  obtain ⟨low, -⟩ := ha
  obtain ⟨low', high'⟩ := hb
  by_cases days : millisecond a / 86400000 = millisecond b / 86400000
  · rw [days]
    apply List.append_left_lt
    apply List.append_left_lt
    apply List.append_left_lt
    exact clockText_lt (by omega) (by omega)
  · have later := Date.ofDays_lt (show millisecond a / 86400000 < millisecond b / 86400000 by omega)
    unfold Date.monthIndex at later
    generalize Date.ofDays (millisecond a / 86400000) = date at *
    generalize Date.ofDays (millisecond b / 86400000) = date' at *
    by_cases year : date.year < date'.year
    · exact padded_append_lt (by decide) (by omega) (by omega) _ _
    rw [show date.year = date'.year by omega]
    apply List.append_left_lt
    by_cases month : date.month < date'.month
    · exact padded_append_lt (by decide) month (by omega) _ _
    rw [show date.month = date'.month by omega]
    apply List.append_left_lt
    exact padded_append_lt (by decide) (by omega) (by omega) _ _

theorem length_compactUtc {time : Int} (h : FourDigits time) : (compactUtc time).length = 19 := by
  obtain ⟨hmonth, hday⟩ := Date.ofDays_ranges (millisecond time / 86400000)
  have year := h.2
  simp only [compactUtc, yearText_four h]
  rw [List.length_append, List.length_append, List.length_append,
    length_padded (by decide) (by omega), length_padded_two (by omega), length_padded_two (by omega),
    length_clockText (by omega)]

end Beez.Record
