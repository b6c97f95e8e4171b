import Beez.Daemon.Counting
import Beez.Daemon.Watching
import Beez.Lib.Newest
import Beez.Record.Log
import Mathlib.Data.Char
import Mathlib.Data.List.Lex

/-! # The sweep of the runs

A daemon writes a run every time a job fires. It removes the oldest ones as it starts and after
each run that ends. Run names carry the time they started and sort by it.
-/

open Beez.Lib Beez.Record

namespace Beez.Daemon

/-! ## One sweep -/

/-- True for a name Beez gives a run. -/
def isRunName (name : Text) : Bool :=
  match Text.splitOnce '-' name with
  | none => false
  | some (stamp, pid) =>
    let bytes := Text.toUtf8 stamp
    bytes.length = 19 && stamp.getLast? = some 'Z' && bytes[8]? = some 84 && Text.isDigits pid

example : isRunName "20260910T030000004Z-4123".toList = true := by decide
example : isRunName "latest".toList = false := by decide

/-- One entry of the runs directory. A symbolic link is no directory. -/
structure Entry where
  name : Text
  isDir : Bool
deriving DecidableEq

/-- What a sweep finds: why it cannot read the runs directory, and what it can remove. -/
structure Sweep where
  unreadable : Option Text
  removable : Text → Bool

/-- The runs that a sweep counts. -/
def runNames (runs : List Entry) : List Text :=
  (runs.filter fun entry => isRunName entry.name && entry.isDir).map (·.name)

/-- Removes every run but the newest `keep`, and reports how many went. A root that never held a
run has no entries. -/
def prune (runs : List Entry) (keep : Nat) (sweep : Sweep) : Except Text Nat × List Entry :=
  if keep = 0 then (.ok 0, runs)
  else match sweep.unreadable with
    | some error => (.error error, runs)
    | none =>
      let names := runNames runs
      if names.length ≤ keep then (.ok 0, runs)
      else
        let removed := (oldest keep names).filter sweep.removable
        (.ok removed.length, runs.filter (·.name ∉ removed))

/-- The sweep takes the run away: it can, and more than `keep` runs, that one included, are not
older. -/
def Goes (runs : List Entry) (keep : Nat) (sweep : Sweep) (name : Text) : Prop :=
  keep ≠ 0 ∧ sweep.unreadable = none ∧ isRunName name = true ∧ sweep.removable name = true ∧
    keep < countFrom name (runNames runs)

instance (runs : List Entry) (keep : Nat) (sweep : Sweep) (name : Text) :
    Decidable (Goes runs keep sweep name) :=
  inferInstanceAs (Decidable (_ ∧ _ ∧ _ ∧ _ ∧ _))

/-- A sweep takes away the removable entries whose name it counts and that are not among the
newest. -/
theorem not_mem_prune_iff {runs : List Entry} {keep : Nat} {sweep : Sweep} {entry : Entry}
    (mem : entry ∈ runs) : entry ∉ (prune runs keep sweep).2 ↔ keep ≠ 0 ∧
      sweep.unreadable = none ∧ entry.name ∈ runNames runs ∧ sweep.removable entry.name = true ∧
        keep < countFrom entry.name (runNames runs) := by
  unfold prune
  by_cases all : keep = 0
  · simp [all, mem]
  · rw [if_neg all]
    cases sweep.unreadable with
    | some error => simp [mem]
    | none =>
      dsimp only
      split
      · next few =>
        have within : countFrom entry.name (runNames runs) ≤ (runNames runs).length :=
          List.countP_le_length
        refine iff_of_false (not_not_intro mem) ?_
        rintro ⟨-, -, -, -, more⟩
        omega
      · rw [List.mem_filter, decide_eq_true_eq, List.mem_filter]
        simp only [mem, true_and, not_not]
        constructor
        · rintro ⟨old, removable⟩
          have run := mem_of_mem_oldest old
          exact ⟨all, run, removable, (mem_oldest_iff run).mp old⟩
        · rintro ⟨-, run, removable, more⟩
          exact ⟨(mem_oldest_iff run).mpr more, removable⟩

theorem prune_keeps_iff {runs : List Entry} {keep : Nat} {sweep : Sweep} {name : Text}
    (mem : ⟨name, true⟩ ∈ runs) :
    ⟨name, true⟩ ∈ (prune runs keep sweep).2 ↔ ¬ Goes runs keep sweep name := by
  have counted : name ∈ runNames runs ↔ isRunName name = true := by
    unfold runNames
    constructor
    · intro h
      obtain ⟨entry, hentry, rfl⟩ := List.mem_map.mp h
      exact (Bool.and_eq_true_iff.mp (List.mem_filter.mp hentry).2).1
    · exact fun h => List.mem_map.mpr ⟨_, List.mem_filter.mpr ⟨mem, by simpa using h⟩, rfl⟩
  rw [← not_iff_not, not_mem_prune_iff mem, counted, Goes, not_not]

/-! ## Runs in flight -/

/-- The thread whose end the input reports. -/
def ends (daemon : Daemon) (input : Input) : Option Nat :=
  match input with
  | .finished _ thread _ =>
    if daemon.takes input && daemon.threads[thread]?.any (·.loaded.isSome) then some thread else none
  | _ => none

/-- What is left of a list with one entry for each run in flight. -/
def leaves {α : Type} (ended : Option Nat) (entries : List α) : List α :=
  match ended with
  | some thread => entries.eraseIdx thread
  | none => entries

section

variable [CronCrate] {daemon after : Daemon} {host : Host}

theorem move_inFlight (move : Move (everything False) host daemon after) :
    daemon.inFlight <+: after.inFlight := by
  cases move with
  | settle _ allowed _ => exact allowed.elim
  | fire _ found _ =>
    rcases inFlight_fire found host with ⟨-, same⟩ | ⟨-, same⟩
    · rw [same]
    · rw [same]
      exact List.prefix_append _ _
  | startWaiting _ _ found _ =>
    rw [inFlight_start found]
    exact List.prefix_append _ _
  | trigger _ found _ _ =>
    rw [inFlight_start found]
    exact List.prefix_append _ _
  | hold here _ =>
    obtain ⟨job, found, -⟩ := found_of_position here
    rw [hold_of_found found]
    exact List.prefix_rfl
  | load thread content _ => rw [inFlight_load]
  | reload | add | retain | remove | rest => exact List.prefix_rfl

theorem moves_inFlight (moves : Moves (everything False) host daemon after) :
    daemon.inFlight <+: after.inFlight :=
  @Moves.keeps _ _ _ _ (fun reached => daemon.inFlight <+: reached.inFlight) _
    (fun _ _ move held => held.trans (move_inFlight move)) moves List.prefix_rfl

theorem handleFinished_inFlight (daemon : Daemon) (host : Host) (thread : Nat)
    (outcome : RunOutcome) :
    leaves (if daemon.threads[thread]?.any (·.loaded.isSome) then some thread else none)
      daemon.inFlight <+: (daemon.handleFinished host thread outcome).inFlight := by
  rcases handleFinished_cases daemon host thread outcome with
    ⟨silent, same⟩ | ⟨ended, found, loaded, ends⟩
  · rw [silent, same]
    exact List.prefix_rfl
  · have queued : Moves (everything False) host
        (daemon.settle host thread ended.run.id (ended.outcome outcome))
        (daemon.finished host thread ended.run.id (ended.outcome outcome)) := startQueued_moves
    have more := moves_inFlight queued
    rw [found, Option.any_some, loaded, ends]
    rwa [inFlight_settle] at more

/-- A step ends at most the run that it reports, and appends those that it starts. -/
theorem step_inFlight (daemon : Daemon) (input : Input) :
    leaves (daemon.ends input) daemon.inFlight <+: (daemon.step input).inFlight := by
  by_cases finish : ∃ host thread outcome, input = .finished host thread outcome
  · obtain ⟨host, thread, outcome, rfl⟩ := finish
    unfold ends step
    by_cases taken : daemon.takes (.finished host thread outcome) = true
    · simp only [taken, if_true, Bool.true_and]
      exact handleFinished_inFlight daemon host thread outcome
    · simp only [taken, Bool.false_and, Bool.false_eq_true, if_false]
      exact List.prefix_rfl
  · have none : daemon.ends input = none := by
      cases input with
      | finished host thread outcome => exact absurd ⟨host, thread, outcome, rfl⟩ finish
      | pass | timeout | command | signal | loads | edited => rfl
    rw [none]
    have moves := daemon.step_endsNone fun host thread outcome h => finish ⟨host, thread, outcome, h⟩
    exact moves_inFlight moves

end

/-! ## The daemon and the runs of its root -/

/-- A daemon, how many runs it keeps, and the runs directory of its root. For each run in flight
there is the name of the directory that it made, once it did. -/
structure Swept where
  daemon : Daemon
  keep : Nat
  runs : List Entry
  directories : List (Option Text)
  aligned : directories.length = daemon.threads.length

inductive SweptInput where
  /-- The daemon takes an input, and sweeps if a run ended. -/
  | step (input : Input) (sweep : Sweep)
  /-- The run of one thread, which has read its manifest, makes its directory. -/
  | makes (thread : Nat) (started : Int) (pid : Nat)
  /-- Anything else changes what is in the runs directory. -/
  | others (runs : List Entry)

namespace Swept

theorem length_leaves {α β : Type} {entries : List α} {others : List β} (ended : Option Nat)
    (same : entries.length = others.length) :
    (leaves ended entries).length = (leaves ended others).length := by
  cases ended with
  | none => exact same
  | some thread => simp [leaves, List.length_eraseIdx, same]

section

variable [CronCrate]

/-- One entry for each run in flight once the daemon took `input`: a new run made no directory. -/
def carried (swept : Swept) (input : Input) : List (Option Text) :=
  let left := leaves (swept.daemon.ends input) swept.directories
  left ++ List.replicate ((swept.daemon.step input).threads.length - left.length) none

theorem length_carried (swept : Swept) (input : Input) :
    (swept.carried input).length = (swept.daemon.step input).threads.length := by
  have more := (step_inFlight swept.daemon input).length_le
  have same : swept.directories.length = swept.daemon.inFlight.length := by
    rw [swept.aligned, inFlight, List.length_map]
  rw [← length_leaves (swept.daemon.ends input) same] at more
  rw [inFlight, List.length_map] at more
  unfold carried
  rw [List.length_append, List.length_replicate]
  omega

def step (swept : Swept) : SweptInput → Swept
  | .step input sweep => {
      daemon := swept.daemon.step input
      keep := swept.keep
      runs := if (swept.daemon.ends input).isSome then (prune swept.runs swept.keep sweep).2
        else swept.runs
      directories := swept.carried input
      aligned := swept.length_carried input }
  | .makes thread started pid =>
    let name := runId started pid
    if (swept.daemon.threads[thread]?.bind (·.loaded)).any (·.isOk) &&
        swept.directories[thread]? = some none then
      { swept with
        runs := if swept.runs.any (·.name = name) then swept.runs else swept.runs ++ [⟨name, true⟩]
        directories := swept.directories.set thread (some name)
        aligned := List.length_set.trans swept.aligned }
    else swept
  | .others runs => { swept with runs := runs }

/-- A daemon that starts sweeps before it runs anything. -/
def start (daemon : Daemon) (idle : daemon.threads = []) (keep : Nat) (runs : List Entry)
    (sweep : Sweep) : Swept where
  daemon := daemon
  keep := keep
  runs := (prune runs keep sweep).2
  directories := []
  aligned := by simp [idle]

/-- The directories of the runs in flight. -/
def inUse (swept : Swept) : List Text := swept.directories.filterMap id

/-- The sweep that the input leads to, if any. -/
def sweeps (swept : Swept) : SweptInput → Option Sweep
  | .step input sweep => if (swept.daemon.ends input).isSome then some sweep else none
  | _ => none

/-- If the input leads to a sweep, the directory of every run that is still in flight stays. -/
def Spares (swept : Swept) (input : SweptInput) : Prop :=
  (swept.sweeps input).isSome = true → ∀ name ∈ (swept.step input).inUse, ⟨name, true⟩ ∈ swept.runs →
    ⟨name, true⟩ ∈ (swept.step input).runs

instance (swept : Swept) (input : SweptInput) : Decidable (swept.Spares input) :=
  inferInstanceAs (Decidable (_ → ∀ name ∈ (swept.step input).inUse, _ → _))

/-- In every history, a sweep leaves the directory of a run in flight if and only if that run is
among the newest `keep`, or the sweep fails. -/
theorem sweep_keeps_iff (swept : Swept) (inputs : List SweptInput) :
    Along step (fun swept input => ∀ sweep, swept.sweeps input = some sweep →
      ∀ name ∈ (swept.step input).inUse, ⟨name, true⟩ ∈ swept.runs →
        (⟨name, true⟩ ∈ (swept.step input).runs ↔ ¬ Goes swept.runs swept.keep sweep name))
      swept inputs := by
  refine Along.of_forall (fun swept input sweep swept_by name _ mem => ?_) swept inputs
  cases input with
  | step input own =>
    unfold sweeps at swept_by
    by_cases ended : (swept.daemon.ends input).isSome = true
    · simp only [ended, if_true, Option.some.injEq] at swept_by
      subst swept_by
      simp only [step, ended, if_true]
      exact prune_keeps_iff mem
    · simp [ended] at swept_by
  | makes | others => cases swept_by

end

end Swept

/-! ## A run that outlives a younger one -/

def sweepsAll : Sweep := ⟨none, fun _ => true⟩

/-- Of the two runs, the second one starts later and ends first. -/
def youngerEndsFirst : List SweptInput :=
  [.step (.pass early) sweepsAll, .step (.command early (.trigger "nightly:early".toList)) sweepsAll,
    .step (.pass early) sweepsAll, .step (.command early (.trigger "weekly".toList)) sweepsAll,
    .step (.pass early) sweepsAll,
    .step (.loads 0 (oneNamed "early".toList (nightlyIn "a").path)) sweepsAll,
    .makes 0 1700000000000000000 4123,
    .step (.loads 1 (oneNamed "early".toList weekly.path)) sweepsAll,
    .makes 1 1700000001000000000 4123,
    .step (.finished early 1 ⟨none, some 0, [], none⟩) sweepsAll]

theorem nightlyAndWeekly_idle : nightlyAndWeekly.threads = [] :=
  List.length_eq_zero_iff.mp (by decide +kernel)

/-- Two runs at a time, and one that is kept. -/
theorem sweep_removes_running :
    @openDaemon .unused early ["root"] 2 ⟨.ok ⟨[nightlyIn "a", weekly]⟩, ⟨[]⟩⟩ =
        some nightlyAndWeekly ∧
      ¬ Along (@Swept.step .unused) (@Swept.Spares .unused)
        (.start nightlyAndWeekly nightlyAndWeekly_idle 1 [] sweepsAll) youngerEndsFirst :=
  ⟨nightlyAndWeekly_opened, by decide +kernel⟩

end Beez.Daemon
