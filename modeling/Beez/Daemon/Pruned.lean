import Beez.Daemon.Sweeps
import Beez.Utf8

/-! # What a sweep may remove

`isRunName` looks at the length of the stamp, at its `T` and at its `Z`, and not at its digits.
-/

open Beez.Lib Beez.Record

namespace Beez.Daemon

/-! ## The names of runs -/

/-- A name that `run_id` can give a run: eight digits for the date, and a process ID of 32 bits. -/
def IsRunId (name : Text) : Prop :=
  ∃ (started : Int) (pid : Nat), FourDigits started ∧ pid < 2 ^ 32 ∧ name = runId started pid

theorem isAscii_of_isDigit {c : Char} (h : c.isDigit) : c.toNat < 0x80 := by
  have high : c.toNat ≤ '9'.toNat := (Bool.and_eq_true_iff.mp h).2 |> of_decide_eq_true
  exact Nat.lt_of_le_of_lt high (by decide)

/-- The eight digits of the date and the nine of the time. -/
theorem compactUtc_digits {time : Int} (h : FourDigits time) :
    ∃ date clock : Text, compactUtc time = date ++ 'T' :: (clock ++ ['Z']) ∧ date.length = 8 ∧
      clock.length = 9 ∧ ∀ c ∈ date ++ clock, c.isDigit := by
  obtain ⟨hmonth, hday⟩ := Date.ofDays_ranges (millisecond time / 86400000)
  have year := h.2
  simp only [compactUtc, yearText_four h, clockText]
  generalize Date.ofDays (millisecond time / 86400000) = date at *
  generalize hclock : (millisecond time % 86400000).toNat = clock
  refine ⟨padded 4 date.year.toNat ++ (padded 2 date.month ++ padded 2 date.day),
    padded 2 (clock / 3600000) ++ (padded 2 (clock / 60000 % 60) ++
      (padded 2 (clock / 1000 % 60) ++ padded 3 (clock % 1000))), by simp, ?_, ?_, ?_⟩
  · rw [List.length_append, List.length_append, length_padded (by decide) (by omega),
      length_padded_two (by omega), length_padded_two (by omega)]
  · rw [List.length_append, List.length_append, List.length_append, length_padded_two (by omega),
      length_padded_two (by omega), length_padded_two (by omega), length_padded_three (by omega)]
  · simp only [List.mem_append]
    rintro c ((h | h | h) | h | h | h | h) <;> exact isDigit_of_mem_padded h

theorem isRunName_of_isRunId {name : Text} (h : IsRunId name) : isRunName name = true := by
  obtain ⟨started, pid, four, -, rfl⟩ := h
  obtain ⟨date, clock, hstamp, hdate, hclock, digits⟩ := compactUtc_digits four
  rw [List.forall_mem_append] at digits
  have ascii : ∀ c ∈ compactUtc started, c.toNat < 0x80 := by
    rw [hstamp]
    simp only [List.forall_mem_append, List.forall_mem_cons]
    exact ⟨fun c hc => isAscii_of_isDigit (digits.1 c hc), by decide,
      fun c hc => isAscii_of_isDigit (digits.2 c hc), by decide, by simp⟩
  have dash : '-' ∉ compactUtc started := by
    have none : ∀ text : Text, (∀ c ∈ text, c.isDigit) → '-' ∉ text := fun text h hc => by
      simpa using h _ hc
    rw [hstamp]
    simp [none date digits.1, none clock digits.2]
  have eighth : (Text.toUtf8 (compactUtc started))[8]? = some 84 := by
    have hlength := Text.length_toUtf8 fun c hc => isAscii_of_isDigit (digits.1 c hc)
    rw [hdate] at hlength
    rw [hstamp, Text.toUtf8_append, List.getElem?_append_right (by omega), hlength]
    rfl
  have last : (compactUtc started).getLast? = some 'Z' := by
    rw [hstamp, ← List.cons_append, ← List.append_assoc, List.getLast?_concat]
  rw [isRunName, runId, Text.splitOnce_append dash]
  simp only [Text.length_toUtf8 ascii, length_compactUtc four, last, eighth, Text.isDigits_decimal]
  decide

/-- Run names sort by the time they started. -/
theorem started_le {started started' : Int} {pid pid' : Nat} (four : FourDigits started)
    (four' : FourDigits started') (h : runId started pid ≤ runId started' pid') :
    millisecond started ≤ millisecond started' := by
  by_contra later
  have less := compactUtc_lt (Int.lt_of_not_ge later) four' four
  have same : (compactUtc started').length = (compactUtc started).length := by
    rw [length_compactUtc four, length_compactUtc four']
  exact absurd h (not_le_of_gt (append_lt_append same less _ _))

/-! ## One sweep, entry by entry -/

variable {runs : List Entry} {keep : Nat} {sweep : Sweep} {entry : Entry}

/-- The entries that a sweep counts as runs. -/
def accepted (runs : List Entry) : List Entry :=
  runs.filter fun entry => isRunName entry.name && entry.isDir

theorem runNames_eq (runs : List Entry) : runNames runs = (accepted runs).map (·.name) := rfl

theorem mem_accepted : entry ∈ accepted runs ↔
    entry ∈ runs ∧ entry.isDir = true ∧ isRunName entry.name = true := by
  rw [accepted, List.mem_filter, Bool.and_eq_true, and_comm (a := isRunName entry.name = true)]

theorem nodup_runNames (distinct : (runs.map (·.name)).Nodup) : (runNames runs).Nodup :=
  distinct.sublist (List.filter_sublist.map _)

theorem nodup_oldest {names : List Text} (h : names.Nodup) (keep : Nat) : (oldest keep names).Nodup :=
  ((List.perm_insertionSort _ names).nodup_iff.mpr h).sublist (List.take_sublist _ _)

theorem mem_of_mem_prune (mem : entry ∈ (prune runs keep sweep).2) : entry ∈ runs := by
  unfold prune at mem
  split at mem
  · exact mem
  · split at mem
    · exact mem
    · dsimp only at mem
      split at mem
      · exact mem
      · exact List.mem_of_mem_filter mem

theorem prune_few (few : (runNames runs).length ≤ keep) : (prune runs keep sweep).2 = runs := by
  unfold prune
  split
  · rfl
  · split
    · rfl
    · exact congrArg Prod.snd (if_pos few)

/-- Where two entries with one name are one entry, a sweep removes the removable ones that it
counts and that are not among the newest. -/
theorem mem_prune (distinct : (runs.map (·.name)).Nodup) (some : 0 < keep) (mem : entry ∈ runs) :
    entry ∉ (prune runs keep sweep).2 ↔ entry ∈ accepted runs ∧
      sweep.unreadable = none ∧ sweep.removable entry.name = true ∧
        keep < countFrom entry.name (runNames runs) := by
  have own : entry.name ∈ runNames runs ↔ entry ∈ accepted runs := by
    rw [runNames_eq, List.mem_map]
    constructor
    · rintro ⟨other, hother, name⟩
      rwa [List.inj_on_of_nodup_map distinct mem (mem_accepted.mp hother).1 name.symm]
    · exact fun h => ⟨entry, h, rfl⟩
  rw [not_mem_prune_iff mem, own]
  constructor
  · rintro ⟨-, readable, run, removable, more⟩
    exact ⟨run, readable, removable, more⟩
  · rintro ⟨run, readable, removable, more⟩
    exact ⟨Nat.ne_of_gt some, readable, run, removable, more⟩

/-- How many entries a sweep takes away that can take away everything. -/
theorem length_prune (distinct : (runs.map (·.name)).Nodup) (some : 0 < keep) :
    (prune runs keep sweepsAll).2.length + ((accepted runs).length - keep) = runs.length := by
  have names : (runNames runs).length = (accepted runs).length := List.length_map ..
  by_cases few : (runNames runs).length ≤ keep
  · rw [prune_few few]
    omega
  have after : (prune runs keep sweepsAll).2 =
      runs.filter (·.name ∉ oldest keep (runNames runs)) := by
    unfold prune
    rw [if_neg (Nat.ne_of_gt some)]
    dsimp only [sweepsAll]
    rw [if_neg few, List.filter_true]
  have gone : ((runs.filter (·.name ∈ oldest keep (runNames runs))).map (·.name)).Perm
      (oldest keep (runNames runs)) := by
    refine (List.perm_ext_iff_of_nodup (distinct.sublist (List.filter_sublist.map _))
      (nodup_oldest (nodup_runNames distinct) keep)).mpr fun name => ?_
    simp only [List.mem_map, List.mem_filter, decide_eq_true_eq]
    constructor
    · rintro ⟨entry, ⟨-, old⟩, rfl⟩
      exact old
    · intro old
      obtain ⟨entry, hentry, rfl⟩ := List.mem_map.mp (mem_of_mem_oldest old)
      exact ⟨entry, ⟨(mem_accepted.mp hentry).1, old⟩, rfl⟩
  have count := gone.length_eq
  rw [List.length_map, length_oldest, names] at count
  have split := List.length_eq_length_filter_add (l := runs)
    (fun entry => decide (entry.name ∈ oldest keep (runNames runs)))
  rw [after]
  simp only [decide_not] at split ⊢
  omega

/-! ## What a sweep is for -/

open Classical in
/-- How many directories have the name of a run. -/
noncomputable def runCount (runs : List Entry) : Nat :=
  (runs.filter fun entry => entry.isDir ∧ IsRunId entry.name).length

/-- A sweep takes the oldest runs, and nothing but runs. -/
structure PrunesRuns (runs : List Entry) (keep : Nat) : Prop where
  only : ∀ sweep, ∀ entry ∈ runs, entry ∉ (prune runs keep sweep).2 →
    entry.isDir = true ∧ IsRunId entry.name
  count : (prune runs keep sweepsAll).1 = .ok (runCount runs - keep) ∧
    (prune runs keep sweepsAll).2.length + (runCount runs - keep) = runs.length
  /-- A directory that is still there because its removal failed is not one that the sweep keeps. -/
  oldest : ∀ sweep, ∀ gone ∈ runs, gone ∉ (prune runs keep sweep).2 →
    ∀ kept ∈ (prune runs keep sweep).2, kept.isDir = true → sweep.removable kept.name = true →
      ∀ started pid started' pid', FourDigits started → FourDigits started' →
        pid' < 2 ^ 32 → gone.name = runId started pid → kept.name = runId started' pid' →
          millisecond started ≤ millisecond started'

/-- Every directory that passes for a run is one. -/
def OnlyRuns (runs : List Entry) : Prop :=
  ∀ entry ∈ runs, entry.isDir = true → isRunName entry.name = true → IsRunId entry.name

open Classical in
theorem runCount_eq (runs : List Entry) :
    runCount runs = ((accepted runs).filter fun entry => IsRunId entry.name).length := by
  rw [runCount, accepted, List.filter_filter]
  congr 1
  apply List.filter_congr
  intro entry _
  have run := @isRunName_of_isRunId entry.name
  by_cases h : IsRunId entry.name
  · simp [h, run h]
  · simp [h]

theorem runCount_le (runs : List Entry) : runCount runs ≤ (accepted runs).length := by
  rw [runCount_eq]
  exact List.length_filter_le _ _

theorem runCount_eq_iff (runs : List Entry) :
    runCount runs = (accepted runs).length ↔ OnlyRuns runs := by
  rw [runCount_eq, List.length_filter_eq_length_iff]
  simp only [mem_accepted, decide_eq_true_eq, OnlyRuns]
  exact ⟨fun h entry mem dir run => h entry ⟨mem, dir, run⟩, fun h entry run => h entry run.1 run.2.1 run.2.2⟩

theorem prune_count (some : 0 < keep) :
    (prune runs keep sweepsAll).1 = .ok ((accepted runs).length - keep) := by
  have names : (runNames runs).length = (accepted runs).length := List.length_map ..
  unfold prune
  rw [if_neg (Nat.ne_of_gt some)]
  dsimp only [sweepsAll]
  split
  · rename_i few
    rw [Nat.sub_eq_zero_of_le (names ▸ few)]
  · rw [List.filter_true, length_oldest, names]

theorem prune_oldest (distinct : (runs.map (·.name)).Nodup) (some : 0 < keep) {gone kept : Entry}
    (hgone : gone ∈ runs) (removed : gone ∉ (prune runs keep sweep).2)
    (stays : kept ∈ (prune runs keep sweep).2) (counted : kept ∈ accepted runs)
    (removable : sweep.removable kept.name = true) : gone.name ≤ kept.name := by
  obtain ⟨-, readable, -, more⟩ := (mem_prune distinct some hgone).mp removed
  have few : ¬ keep < countFrom kept.name (runNames runs) := fun more' =>
    (mem_prune distinct some (mem_accepted.mp counted).1).mpr
      ⟨counted, readable, removable, more'⟩ stays
  by_contra later
  have := @countFrom_le _ _ (runNames runs) _ _ (le_of_not_ge later)
  omega

/-- A sweep takes the oldest runs and nothing else exactly when every directory that passes for a
run is one, or when there are too few of them to remove any. -/
theorem prunesRuns_iff (distinct : (runs.map (·.name)).Nodup) (some : 0 < keep) :
    PrunesRuns runs keep ↔ OnlyRuns runs ∨ (runNames runs).length ≤ keep := by
  have names : (runNames runs).length = (accepted runs).length := List.length_map ..
  constructor
  · rintro ⟨-, ⟨-, count⟩, -⟩
    by_contra both
    rw [not_or, names] at both
    have whole := length_prune distinct some
    have := runCount_le runs
    exact both.1 ((runCount_eq_iff runs).mp (by omega))
  · intro h
    have count : runCount runs - keep = (accepted runs).length - keep := by
      rcases h with h | few
      · rw [(runCount_eq_iff runs).mpr h]
      · have := runCount_le runs
        omega
    have run : ∀ sweep, ∀ entry ∈ runs, entry ∉ (prune runs keep sweep).2 →
        entry.isDir = true ∧ IsRunId entry.name := by
      intro sweep entry mem removed
      rcases h with h | few
      · obtain ⟨-, dir, name⟩ := mem_accepted.mp ((mem_prune distinct some mem).mp removed).1
        exact ⟨dir, h entry mem dir name⟩
      · rw [prune_few few] at removed
        exact absurd mem removed
    refine ⟨run, ⟨?_, ?_⟩, ?_⟩
    · rw [count, prune_count some]
    · rw [count, length_prune distinct some]
    · intro sweep gone hgone removed kept stays dir removable started pid started' pid' four four'
        small hname hname'
      have counted : kept ∈ accepted runs := mem_accepted.mpr ⟨mem_of_mem_prune stays, dir,
        isRunName_of_isRunId ⟨started', pid', four', small, hname'⟩⟩
      have order := prune_oldest distinct some hgone removed stays counted removable
      rw [hname, hname'] at order
      exact started_le four four' order

/-- Two runs, and a directory that is none. -/
def twoNights : List Entry :=
  [⟨"20231114T221320042Z-4123".toList, true⟩, ⟨"20231115T221320042Z-4123".toList, true⟩,
    ⟨"notes".toList, true⟩]

theorem prunesRuns_iff_notes :
    (PrunesRuns twoNights 1 ↔ OnlyRuns twoNights ∨ (runNames twoNights).length ≤ 1) ∧
      (prune twoNights 1 sweepsAll).2 = [⟨"20231115T221320042Z-4123".toList, true⟩, ⟨"notes".toList, true⟩] :=
  ⟨prunesRuns_iff (by decide) (by decide), by decide +kernel⟩

theorem IsRunId.isDigit {c : Char} {rest : Text} (h : IsRunId (c :: rest)) : c.isDigit := by
  obtain ⟨started, pid, four, -, hname⟩ := h
  obtain ⟨date, clock, hstamp, hdate, -, digits⟩ := compactUtc_digits four
  rw [runId, hstamp] at hname
  cases date with
  | nil => cases hdate
  | cons d date =>
    rw [(List.cons.inj hname).1]
    exact digits d (by simp)

/-- Two directories that pass for runs, and are none. -/
def archives : List Entry :=
  [⟨"archivesTyear_2025Z-1".toList, true⟩, ⟨"archivesTyear_2026Z-1".toList, true⟩]

/-- A sweep that keeps one run removes an archive. -/
theorem archive_removed :
    ¬ ∀ (runs : List Entry) (keep : Nat), (runs.map (·.name)).Nodup → 0 < keep →
      PrunesRuns runs keep := by
  intro claim
  have gone := (claim archives 1 (by decide) (by decide)).only sweepsAll
    ⟨"archivesTyear_2025Z-1".toList, true⟩ (by decide) (by decide)
  exact absurd (IsRunId.isDigit gone.2) (by decide)

end Beez.Daemon
