import Beez.Lib.Decimal
import Beez.Schedule.Cron

/-! # Offsets from UTC, read and written -/

open Beez.Lib

namespace Beez

/-- The sign before a number, and the rest. -/
def signed : Text → Int × Text
  | '+' :: digits => (1, digits)
  | '-' :: digits => (-1, digits)
  | digits => (1, digits)

/-- `text.parse::<i32>()`. One sign is allowed. -/
def parseI32 (text : Text) : Option I32 :=
  let (sign, digits) := signed text
  if h : Text.isDigits digits ∧ Fits32 (sign * Text.ofDigits digits) then some ⟨_, h.2⟩ else none

namespace UtcOffset

def utc : UtcOffset := ⟨⟨0, by decide⟩⟩

def utcNames : List Text := ["Z".toList, "z".toList, "UTC".toList, "utc".toList]

def signOf : Char → Option Int
  | '+' => some 1
  | '-' => some (-1)
  | _ => none

/-- The sign of an offset, and the texts of its hours and of its minutes. -/
def parts : Text → Option (Int × Text × Text)
  | [] => none
  | c :: rest => do
    let sign ← signOf c
    match Text.splitOnce ':' rest with
    | some (hours, minutes) => return (sign, hours, minutes)
    -- A bare hour count, such as +02.
    | none => return (sign, rest, ['0'])

/-- The numbers of an offset, when each is in its range. -/
def numbers (value : Text) : Option (Int × I32 × I32) := do
  let (sign, hours, minutes) ← parts value
  let hours ← parseI32 hours
  let minutes ← parseI32 minutes
  if hours.val < 0 ∨ ¬(0 ≤ minutes.val ∧ minutes.val ≤ 59) then none
  else return (sign, hours, minutes)

def limitSeconds : Int := 18 * 3600

/-- Nothing stands for a panic. -/
def fromStr (build : Build) (value : Text) : Option (Except ScheduleError UtcOffset) :=
  if value ∈ utcNames then some (.ok utc)
  else match numbers value with
    | none => some (.error (.offset value))
    | some (sign, hours, minutes) => do
      let ofHours ← build.fit (hours.val * 3600)
      let ofMinutes ← build.fit (minutes.val * 60)
      let sum ← build.fit (ofHours.val + ofMinutes.val)
      let seconds ← build.fit (sign * sum.val)
      let size ← build.fit seconds.val.natAbs
      if limitSeconds < size.val then return .error (.offset value)
      else return .ok ⟨seconds⟩

/-- `{:02}`. -/
def twoDigits (n : Int) : Text :=
  if n < 0 then '-' :: decimal n.natAbs else padded 2 n.natAbs

/-- The text an offset is written as. Nothing stands for a panic. -/
def display (build : Build) (offset : UtcOffset) : Option Text :=
  if offset.seconds.val = 0 then some ['Z']
  else do
    let sign := if offset.seconds.val < 0 then '-' else '+'
    let total ← build.fit offset.seconds.val.natAbs
    return sign :: twoDigits (total.val / 3600) ++ ':' :: twoDigits (total.val % 3600 / 60)

/-! ## What an offset should be -/

/-- UTC by a name, or one sign before a count of hours and perhaps one of minutes, with the seconds
east that it means. -/
inductive Writes : Text → Int → Prop
  | named {value : Text} (h : value ∈ utcNames) : Writes value 0
  | hours {c : Char} {sign : Int} {hours : Text} (hsign : signOf c = some sign)
    (hhours : Text.isDigits hours) : Writes (c :: hours) (sign * (Text.ofDigits hours * 3600))
  | minutes {c : Char} {sign : Int} {hours minutes : Text} (hsign : signOf c = some sign)
    (hhours : Text.isDigits hours) (hminutes : Text.isDigits minutes)
    (less : Text.ofDigits minutes ≤ 59) : Writes (c :: (hours ++ ':' :: minutes))
      (sign * (Text.ofDigits hours * 3600 + Text.ofDigits minutes * 60))

/-- No build overflows, and an offset that is read is the one that is written. -/
structure ReadRight (value : Text) : Prop where
  fits : ∃ result, fromStr .checked value = some result
  right : ∀ build offset, fromStr build value = some (.ok offset) →
    Writes value offset.seconds.val ∧ offset.seconds.val.natAbs ≤ limitSeconds ∧
      ∃ text, display build offset = some text ∧ fromStr build text = some (.ok offset)

/-- The seconds of the counts fit, and counts within the limit have no sign of their own. -/
def Proper (value : Text) : Prop :=
  ∀ sign hours minutes h m, parts value = some (sign, hours, minutes) →
    parseI32 hours = some h → parseI32 minutes = some m →
    0 ≤ h.val → 0 ≤ m.val → m.val ≤ 59 →
      Fits32 (h.val * 3600 + m.val * 60) ∧
        (h.val * 3600 + m.val * 60 ≤ limitSeconds → Text.isDigits hours ∧ Text.isDigits minutes)

/-! ## Counts -/

theorem signed_of_isDigits {digits : Text} (h : Text.isDigits digits) :
    signed digits = (1, digits) := by
  unfold signed
  split
  · exact absurd (List.mem_cons_self ..) (Text.not_mem_of_isDigits h (by decide : _ = false))
  · exact absurd (List.mem_cons_self ..) (Text.not_mem_of_isDigits h (by decide : _ = false))
  · rfl

theorem parseI32_of_isDigits {digits : Text} (h : Text.isDigits digits) :
    parseI32 digits = if fits : Fits32 (Text.ofDigits digits) then some ⟨_, fits⟩ else none := by
  simp [parseI32, signed_of_isDigits h, h]

theorem parseI32_eq {digits : Text} (h : Text.isDigits digits) {n : I32}
    (hn : parseI32 digits = some n) : n.val = Text.ofDigits digits := by
  rw [parseI32_of_isDigits h] at hn
  split at hn
  · rw [← Option.some.inj hn]
  · cases hn

theorem isDigits_padded (n : Nat) : Text.isDigits (padded 2 n) := by
  have ne : padded 2 n ≠ [] := by
    apply List.ne_nil_of_length_pos
    simp only [padded, List.leftpad, List.length_append, List.length_replicate]
    omega
  rw [Text.isDigits, Bool.and_eq_true, List.all_eq_true]
  refine ⟨by simpa using ne, fun c hc => ?_⟩
  have digit := isDigit_of_mem_padded hc
  rw [Char.isDigit, Bool.and_eq_true, decide_eq_true_eq, decide_eq_true_eq] at digit
  rw [Bool.and_eq_true, decide_eq_true_eq, decide_eq_true_eq]
  exact digit

theorem ofDigits_padded (n : Nat) : Text.ofDigits (padded 2 n) = n := ofDigitChars_padded 2 n

/-! ## Parts -/

theorem signOf_cases {c : Char} {sign : Int} (h : signOf c = some sign) :
    c = '+' ∧ sign = 1 ∨ c = '-' ∧ sign = -1 := by
  unfold signOf at h
  split at h
  · exact .inl ⟨rfl, (Option.some.inj h).symm⟩
  · exact .inr ⟨rfl, (Option.some.inj h).symm⟩
  · cases h

theorem parts_hours {c : Char} {sign : Int} {hours : Text} (hsign : signOf c = some sign)
    (hhours : Text.isDigits hours) : parts (c :: hours) = some (sign, hours, ['0']) := by
  have clear : ':' ∉ hours := Text.not_mem_of_isDigits hhours (by decide)
  simp [parts, hsign, Text.splitOnce_of_not_mem clear]

theorem parts_minutes {c : Char} {sign : Int} {hours : Text} (hsign : signOf c = some sign)
    (hhours : Text.isDigits hours) (minutes : Text) :
    parts (c :: (hours ++ ':' :: minutes)) = some (sign, hours, minutes) := by
  have clear : ':' ∉ hours := Text.not_mem_of_isDigits hhours (by decide)
  simp [parts, hsign, Text.splitOnce_append clear]

theorem parts_some {value hours minutes : Text} {sign : Int}
    (h : parts value = some (sign, hours, minutes)) : ∃ c, signOf c = some sign ∧
      (value = c :: hours ∧ minutes = ['0'] ∨ value = c :: (hours ++ ':' :: minutes)) := by
  unfold parts at h
  split at h
  · cases h
  · rename_i c rest
    obtain ⟨sign', hsign, h⟩ := Option.bind_eq_some_iff.mp h
    split at h
    · rename_i hsplit
      simp only [Option.pure_def, Option.some.injEq, Prod.mk.injEq] at h
      obtain ⟨rfl, rfl, rfl⟩ := h
      exact ⟨c, hsign, .inr (congrArg (c :: ·) (Text.splitOnce_some hsplit))⟩
    · simp only [Option.pure_def, Option.some.injEq, Prod.mk.injEq] at h
      obtain ⟨rfl, rfl, rfl⟩ := h
      exact ⟨c, hsign, .inl ⟨rfl, rfl⟩⟩

theorem not_named {value hours minutes : Text} {sign : Int}
    (h : parts value = some (sign, hours, minutes)) : value ∉ utcNames := by
  obtain ⟨c, hsign, hvalue⟩ := parts_some h
  have head : value.head? = some c := by
    rcases hvalue with ⟨rfl, -⟩ | rfl
    · rfl
    · rfl
  intro named
  simp only [utcNames, List.mem_cons, List.not_mem_nil, or_false] at named
  rcases named with rfl | rfl | rfl | rfl <;> cases head <;> cases hsign

theorem numbers_some {value : Text} {sign : Int} {h m : I32}
    (hnumbers : numbers value = some (sign, h, m)) : ∃ hours minutes,
      parts value = some (sign, hours, minutes) ∧ parseI32 hours = some h ∧
      parseI32 minutes = some m ∧ 0 ≤ h.val ∧ 0 ≤ m.val ∧ m.val ≤ 59 := by
  unfold numbers at hnumbers
  obtain ⟨⟨sign', hours, minutes⟩, hparts, hnumbers⟩ := Option.bind_eq_some_iff.mp hnumbers
  obtain ⟨h', hhours, hnumbers⟩ := Option.bind_eq_some_iff.mp hnumbers
  obtain ⟨m', hminutes, hnumbers⟩ := Option.bind_eq_some_iff.mp hnumbers
  split at hnumbers
  · cases hnumbers
  · simp only [Option.pure_def, Option.some.injEq, Prod.mk.injEq] at hnumbers
    obtain ⟨rfl, rfl, rfl⟩ := hnumbers
    exact ⟨hours, minutes, hparts, hhours, hminutes, by omega⟩

theorem numbers_of_parts {value hours minutes : Text} {sign : Int} {h m : I32}
    (hparts : parts value = some (sign, hours, minutes)) (hhours : parseI32 hours = some h)
    (hminutes : parseI32 minutes = some m) (hh : 0 ≤ h.val) (hm : 0 ≤ m.val) (less : m.val ≤ 59) :
    numbers value = some (sign, h, m) := by
  have notOver : ¬(h.val < 0 ∨ ¬(0 ≤ m.val ∧ m.val ≤ 59)) := by omega
  rw [numbers, hparts]
  simp only [Option.bind_eq_bind, Option.bind_some, hhours, hminutes, if_neg notOver]
  rfl

/-! ## Seconds -/

theorem fromStr_utc (build : Build) {value : Text} (named : value ∈ utcNames) :
    fromStr build value = some (.ok utc) := if_pos named

theorem fromStr_none (build : Build) {value : Text} (unnamed : value ∉ utcNames)
    (h : numbers value = none) : fromStr build value = some (.error (.offset value)) := by
  rw [fromStr, if_neg unnamed, h]

section

variable {value : Text} {sign : Int} {h m : I32}

theorem unnamed_of_numbers (hnumbers : numbers value = some (sign, h, m)) : value ∉ utcNames := by
  obtain ⟨hours, minutes, hparts, -⟩ := numbers_some hnumbers
  exact not_named hparts

theorem fits_signed (hnumbers : numbers value = some (sign, h, m))
    (fits : Fits32 (h.val * 3600 + m.val * 60)) :
    Fits32 (sign * (h.val * 3600 + m.val * 60)) := by
  obtain ⟨hours, minutes, hparts, -, -, positive⟩ := numbers_some hnumbers
  obtain ⟨c, hsign, -⟩ := parts_some hparts
  unfold Fits32 at *
  rcases signOf_cases hsign with ⟨-, rfl⟩ | ⟨-, rfl⟩
  · omega
  · omega

theorem natAbs_signed (hnumbers : numbers value = some (sign, h, m)) :
    ((sign * (h.val * 3600 + m.val * 60)).natAbs : Int) = h.val * 3600 + m.val * 60 := by
  obtain ⟨hours, minutes, hparts, -, -, positive⟩ := numbers_some hnumbers
  obtain ⟨c, hsign, -⟩ := parts_some hparts
  rcases signOf_cases hsign with ⟨-, rfl⟩ | ⟨-, rfl⟩
  · omega
  · omega

/-- Where the seconds fit, every build computes them. -/
theorem fromStr_of_fits (build : Build) (hnumbers : numbers value = some (sign, h, m))
    (fits : Fits32 (h.val * 3600 + m.val * 60)) : fromStr build value =
      some (if limitSeconds < h.val * 3600 + m.val * 60 then .error (.offset value)
        else .ok ⟨⟨_, fits_signed hnumbers fits⟩⟩) := by
  obtain ⟨hours, minutes, hparts, -, -, positive⟩ := numbers_some hnumbers
  have fitsHours : Fits32 (h.val * 3600) := by unfold Fits32 at *; omega
  have fitsMinutes : Fits32 (m.val * 60) := by unfold Fits32 at *; omega
  rw [fromStr, if_neg (unnamed_of_numbers hnumbers), hnumbers]
  simp only [build.fit_of_fits fitsHours, build.fit_of_fits fitsMinutes, build.fit_of_fits fits,
    build.fit_of_fits (fits_signed hnumbers fits), natAbs_signed hnumbers, Option.bind_eq_bind,
    Option.bind_some]
  split
  · rfl
  · rfl

theorem fits_of_checked (hnumbers : numbers value = some (sign, h, m))
    {result : Except ScheduleError UtcOffset} (hresult : fromStr .checked value = some result) :
    Fits32 (h.val * 3600 + m.val * 60) := by
  rw [fromStr, if_neg (unnamed_of_numbers hnumbers), hnumbers] at hresult
  obtain ⟨ofHours, hours, hresult⟩ := Option.bind_eq_some_iff.mp hresult
  obtain ⟨ofMinutes, minutes, hresult⟩ := Option.bind_eq_some_iff.mp hresult
  obtain ⟨sum, hsum, hresult⟩ := Option.bind_eq_some_iff.mp hresult
  rw [Build.eq_of_checked hours, Build.eq_of_checked minutes] at hsum
  rw [← Build.eq_of_checked hsum]
  exact sum.property

end

/-! ## The text of an offset -/

theorem numbers_padded {c : Char} {sign : Int} (hsign : signOf c = some sign) {h m : Nat}
    (hh : Fits32 h) (less : m ≤ 59) :
    numbers (c :: (padded 2 h ++ ':' :: padded 2 m)) =
      some (sign, ⟨h, hh⟩, ⟨m, by unfold Fits32; omega⟩) := by
  have fits : Fits32 m := by unfold Fits32; omega
  have hours : parseI32 (padded 2 h) = some ⟨h, hh⟩ := by
    simp [parseI32_of_isDigits (isDigits_padded h), ofDigits_padded, hh]
  have minutes : parseI32 (padded 2 m) = some ⟨m, fits⟩ := by
    simp [parseI32_of_isDigits (isDigits_padded m), ofDigits_padded, fits]
  apply numbers_of_parts (parts_minutes hsign (isDigits_padded h) _) hours minutes
  · dsimp only
    omega
  · dsimp only
    omega
  · dsimp only
    omega

theorem twoDigits_natCast (n : Nat) : twoDigits n = padded 2 n := by
  rw [twoDigits, if_neg (by omega), Int.natAbs_natCast]

theorem fromStr_display (build : Build) {offset : UtcOffset}
    (bounded : offset.seconds.val.natAbs ≤ limitSeconds) (whole : offset.seconds.val % 60 = 0) :
    ∃ text, display build offset = some text ∧ fromStr build text = some (.ok offset) := by
  obtain ⟨⟨s, fits⟩⟩ := offset
  dsimp only at bounded whole
  rw [limitSeconds] at bounded
  by_cases zero : s = 0
  · subst zero
    exact ⟨['Z'], rfl, fromStr_utc build (by decide)⟩
  have size : Fits32 (s.natAbs : Int) := by unfold Fits32; omega
  let h := s.natAbs / 3600
  let m := s.natAbs % 3600 / 60
  obtain ⟨c, sign, hc, hsign, hs⟩ : ∃ c sign, (if s < 0 then '-' else '+') = c ∧
      signOf c = some sign ∧ s = sign * (h * 3600 + m * 60) := by
    by_cases negative : s < 0
    · exact ⟨'-', -1, if_pos negative, rfl, by omega⟩
    · exact ⟨'+', 1, if_neg negative, rfl, by omega⟩
  have hdisplay : display build ⟨⟨s, fits⟩⟩ = some (c :: (padded 2 h ++ ':' :: padded 2 m)) := by
    rw [display, if_neg zero, hc]
    simp only [build.fit_of_fits size, Option.bind_eq_bind, Option.bind_some]
    have hours : ((s.natAbs : Int) / 3600) = (h : Int) := by omega
    have minutes : ((s.natAbs : Int) % 3600 / 60) = (m : Int) := by omega
    rw [hours, minutes, twoDigits_natCast, twoDigits_natCast]
    rfl
  refine ⟨_, hdisplay, ?_⟩
  have hh : Fits32 h := by unfold Fits32; omega
  have hnumbers := numbers_padded hsign hh (m := m) (by omega)
  have fitsSum : Fits32 ((h : Int) * 3600 + m * 60) := by unfold Fits32; omega
  rw [fromStr_of_fits build hnumbers fitsSum, if_neg (by rw [limitSeconds]; dsimp only; omega)]
  simp [hs]

/-! ## Which texts are read right -/

theorem ReadRight.proper {value : Text} (right : ReadRight value) : Proper value := by
  intro sign hours minutes h m hparts hhours hminutes hh hm less
  have hnumbers := numbers_of_parts hparts hhours hminutes hh hm less
  obtain ⟨result, hresult⟩ := right.fits
  have fits := fits_of_checked hnumbers hresult
  refine ⟨fits, fun within => ?_⟩
  have hread := fromStr_of_fits .wrapping hnumbers fits
  rw [if_neg (by omega)] at hread
  obtain ⟨writes, -⟩ := right.right _ _ hread
  generalize (UtcOffset.mk _).seconds.val = seconds at writes
  cases writes with
  | named named => exact absurd named (not_named hparts)
  | hours hsign unsigned =>
    rw [parts_hours hsign unsigned] at hparts
    obtain ⟨-, rfl, rfl⟩ := by simpa using hparts
    exact ⟨unsigned, by decide⟩
  | minutes hsign unsigned unsigned' =>
    rw [parts_minutes hsign unsigned] at hparts
    obtain ⟨-, rfl, rfl⟩ := by simpa using hparts
    exact ⟨unsigned, unsigned'⟩

theorem writes_of_parts {value hours minutes : Text} {sign : Int}
    (hparts : parts value = some (sign, hours, minutes)) (hhours : Text.isDigits hours)
    (hminutes : Text.isDigits minutes) (less : Text.ofDigits minutes ≤ 59) :
    Writes value (sign * (Text.ofDigits hours * 3600 + Text.ofDigits minutes * 60)) := by
  obtain ⟨c, hsign, ⟨rfl, rfl⟩ | rfl⟩ := parts_some hparts
  · have zero : Text.ofDigits ['0'] = 0 := by decide
    simpa [zero] using Writes.hours hsign hhours
  · exact .minutes hsign hhours hminutes less

theorem Proper.readRight {value : Text} (proper : Proper value) : ReadRight value := by
  by_cases named : value ∈ utcNames
  · refine ⟨⟨_, fromStr_utc _ named⟩, fun build offset hread => ?_⟩
    obtain rfl := Except.ok.inj (Option.some.inj (hread.symm.trans (fromStr_utc build named)))
    exact ⟨.named named, by decide, fromStr_display build (by decide) (by decide)⟩
  cases hnumbers : numbers value with
  | none =>
    refine ⟨⟨_, fromStr_none _ named hnumbers⟩, fun build offset hread => ?_⟩
    rw [fromStr_none build named hnumbers] at hread
    cases hread
  | some counts =>
    obtain ⟨sign, h, m⟩ := counts
    obtain ⟨hours, minutes, hparts, hhours, hminutes, positive⟩ := numbers_some hnumbers
    obtain ⟨fits, unsigned⟩ := proper sign hours minutes h m hparts hhours hminutes positive.1
      positive.2.1 positive.2.2
    refine ⟨⟨_, fromStr_of_fits _ hnumbers fits⟩, fun build offset hread => ?_⟩
    rw [fromStr_of_fits build hnumbers fits] at hread
    split at hread
    · cases hread
    · rename_i within
      obtain ⟨digits, digits'⟩ := unsigned (by omega)
      obtain rfl := Except.ok.inj (Option.some.inj hread)
      have eqHours := parseI32_eq digits hhours
      have eqMinutes := parseI32_eq digits' hminutes
      obtain ⟨c, hsign, -⟩ := parts_some hparts
      have bounded : ((sign * (h.val * 3600 + m.val * 60)).natAbs : Int) ≤ limitSeconds := by
        rw [natAbs_signed hnumbers]
        omega
      refine ⟨?_, bounded, fromStr_display build bounded ?_⟩
      · have writes := writes_of_parts hparts digits digits' (by omega)
        rwa [← eqHours, ← eqMinutes] at writes
      · rcases signOf_cases hsign with ⟨-, rfl⟩ | ⟨-, rfl⟩
        · dsimp only
          omega
        · dsimp only
          omega

/-- Which texts are read as what they write, without an overflow. -/
theorem readRight_iff (value : Text) : ReadRight value ↔ Proper value :=
  ⟨ReadRight.proper, Proper.readRight⟩

/-- A build that does not check for overflows takes these hours for an offset of `i32::MIN`. -/
theorem not_readRight_manyHours : fromStr .checked "+8947848:32".toList = none ∧
    fromStr .wrapping "+8947848:32".toList = some (.ok ⟨⟨-2147483648, by decide⟩⟩) ∧
    ¬ReadRight "+8947848:32".toList := by
  have panics : fromStr .checked "+8947848:32".toList = none := by decide
  refine ⟨panics, by decide +kernel, fun right => ?_⟩
  obtain ⟨result, hresult⟩ := right.fits
  rw [panics] at hresult
  cases hresult

end UtcOffset

end Beez
