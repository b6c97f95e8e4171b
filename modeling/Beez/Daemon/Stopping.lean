import Beez.Daemon.Counting

/-! # A daemon that was asked to stop -/

open Beez.Lib

namespace Beez.Daemon

/-- What the step leaves of the runs of a daemon that stops: it starts none, no more go on than
before, and once none goes on the daemon is over. -/
structure WindsDown (before after : Daemon) : Prop where
  starts : after.starts = before.starts
  runs : after.threads.length ≤ before.threads.length
  ends : after.threads = [] → after.isOver = true

/-- The input is a trigger that the daemon accepts. -/
def acceptsTrigger (daemon : Daemon) : Input → Bool
  | .command _ (.trigger id) =>
    (daemon.position id).any fun index => daemon.jobs[index]?.any fun job =>
      job.error.isNone && !job.running && decide (daemon.running < daemon.limit)
  | _ => false

/-- The daemon stops, and counts its runs. -/
structure Stops (limit : Nat) (daemon : Daemon) : Prop where
  stopping : daemon.stopping = true
  counted : Counted limit daemon

theorem Stops.idle_isOver {limit : Nat} {daemon : Daemon} (stops : Stops limit daemon)
    (idle : daemon.threads = []) : daemon.isOver = true := by
  have none : daemon.running = 0 := by
    rw [stops.counted.exact, idle]
    rfl
  simp [isOver, stops.stopping, none]

/-! ## What starts no run -/

/-- A change that starts no run and does not take a stop back. -/
structure Quiet (before after : Daemon) : Prop where
  stopping : before.stopping = true → after.stopping = true
  starts : after.starts = before.starts
  runs : after.threads.length ≤ before.threads.length

section

variable {daemon before middle after : Daemon} {host : Host}

theorem Quiet.refl (daemon : Daemon) : Quiet daemon daemon := ⟨id, rfl, Nat.le_refl _⟩

theorem Quiet.trans (first : Quiet before middle) (second : Quiet middle after) :
    Quiet before after := by
  refine ⟨fun h => second.stopping (first.stopping h), ?_, ?_⟩
  · rw [second.starts, first.starts]
  · exact Nat.le_trans second.runs first.runs

theorem starts_append (daemon : Daemon) (planned : List (Job × Option Plan)) :
    (daemon.trace ++ planLines planned).countP Happening.isStart = daemon.starts := by
  rw [List.countP_append, planLines_starts]
  rfl

theorem settle_quiet {index : Nat} {thread : RunThread} (id : Text)
    (found : daemon.threads[index]? = some thread) (outcome : RunOutcome) :
    Quiet daemon (daemon.settle host index id outcome) := by
  obtain ⟨-, -, hstarts, hlength⟩ := settle_counts host id found outcome
  refine ⟨fun stopping => ?_, hstarts, by omega⟩
  cases here : daemon.position id with
  | none => rwa [settle_of_none here]
  | some position =>
    obtain ⟨job, held, -⟩ := found_of_position here
    rwa [settle_of_found here held]

theorem unwatch_quiet (manifest : Path) : Quiet daemon (daemon.unwatch host manifest).2 := by
  unfold unwatch
  dsimp only
  split
  · exact ⟨id, rfl, Nat.le_refl _⟩
  · cases host.registryWrite <;> exact ⟨id, rfl, Nat.le_refl _⟩

theorem remove_quiet (manifest : Path) : Quiet daemon (daemon.remove host manifest).2 := by
  have dropped : Quiet daemon (daemon.unwatch host manifest).2 := unwatch_quiet manifest
  unfold remove
  split
  · rename_i found
    rw [found] at dropped
    exact dropped.trans ⟨id, rfl, Nat.le_refl _⟩
  · rename_i found
    rw [found] at dropped
    exact dropped
  · rename_i found
    rw [found] at dropped
    exact dropped

theorem acceptsTrigger_iff {id : Text} :
    daemon.acceptsTrigger (.command host (.trigger id)) = true ↔
      ∃ index job, daemon.position id = some index ∧ daemon.jobs[index]? = some job ∧
        job.error = none ∧ job.running = false ∧ daemon.running < daemon.limit := by
  simp [acceptsTrigger, Option.any_eq_true, and_assoc]

theorem trigger_quiet (id : Text)
    (refused : daemon.acceptsTrigger (.command host (.trigger id)) = false) :
    Quiet daemon (daemon.trigger host id).2 := by
  rcases trigger_cases daemon host id with
    ⟨error, same, -⟩ | ⟨index, job, here, found, whole, idle, room, -⟩
  · rw [same]
    exact .refl daemon
  · rw [acceptsTrigger_iff.mpr ⟨index, job, here, found, whole, idle, room⟩] at refused
    cases refused

theorem trigger_starts (id : Text)
    (accepted : daemon.acceptsTrigger (.command host (.trigger id)) = true) :
    (daemon.trigger host id).2.starts = daemon.starts + 1 := by
  obtain ⟨index, job, here, found, whole, idle, room⟩ := acceptsTrigger_iff.mp accepted
  rcases trigger_cases daemon host id with ⟨error, -, full⟩ | ⟨_, _, -, found, -, -, -, starts⟩
  · have := full index job here found whole idle
    omega
  · rw [starts, start_of_found found]
    simp [Daemon.starts, Happening.isStart]

theorem startQueued_quiet (host : Host) (stopping : daemon.stopping = true) :
    Quiet daemon (daemon.startQueued host.now) := by
  unfold startQueued
  rw [if_pos stopping]
  exact .refl daemon

theorem trigger_stopping (id : Text) : (daemon.trigger host id).2.stopping = daemon.stopping := by
  rcases trigger_cases daemon host id with ⟨error, same, -⟩ | ⟨_, _, -, found, -, -, -, starts⟩
  · rw [same]
  · rw [starts, start_of_found found]

theorem handleFinished_quiet (stopping : daemon.stopping = true) (index : Nat)
    (outcome : RunOutcome) : Quiet daemon (daemon.handleFinished host index outcome) := by
  rcases handleFinished_cases daemon host index outcome with ⟨-, same⟩ | ⟨thread, found, -, ends⟩
  · rw [same]
    exact .refl daemon
  · have settled : Quiet daemon
        (daemon.settle host index thread.run.id (thread.outcome outcome)) :=
      settle_quiet thread.run.id found _
    have queued := settled.trans (startQueued_quiet host (settled.stopping stopping))
    rw [ends]
    exact ⟨queued.stopping, queued.starts, queued.runs⟩

variable [CronCrate]

theorem install_quiet (watched : Watched) (fresh : List Job) :
    Quiet daemon (daemon.install host watched fresh) :=
  ⟨id, starts_append daemon _, Nat.le_refl _⟩

theorem reloads_quiet (watched : List Watched) :
    Quiet daemon (runAll (reload host) daemon watched) := by
  induction watched generalizing daemon with
  | nil => exact .refl daemon
  | cons first rest ih => exact (install_quiet first _).trans ih

theorem reloadAll_quiet : Quiet daemon (daemon.reloadAll host).2 := by
  have listed : Quiet daemon daemon.reloadRegistry := ⟨id, rfl, Nat.le_refl _⟩
  exact listed.trans (reloads_quiet _)

theorem add_quiet (watched : Watched) : Quiet daemon (daemon.add host watched).2 := by
  unfold add watch
  dsimp only
  split
  · exact .refl daemon
  · cases host.registryWrite with
    | error error => exact ⟨id, rfl, Nat.le_refl _⟩
    | ok _ => exact ⟨id, starts_append daemon _, Nat.le_refl _⟩

theorem hold_quiet (id : Text) (paused : Bool) : Quiet daemon (daemon.hold host id paused).2 := by
  unfold hold
  cases here : daemon.position id with
  | none => exact .refl daemon
  | some index =>
    obtain ⟨job, found, -⟩ := found_of_position here
    dsimp only
    rw [hold_of_found found]
    exact ⟨fun h => h, starts_append daemon _, Nat.le_refl _⟩

theorem take_quiet (stopping : daemon.stopping = true) {input : Input}
    (refused : daemon.acceptsTrigger input = false) : Quiet daemon (daemon.take input) := by
  cases input with
  | pass host =>
    have scanned : Quiet daemon (daemon.rescan host) := reloads_quiet _
    have held : Quiet daemon ((daemon.rescan host).fireDue host) := by
      unfold fireDue
      rw [if_pos (scanned.stopping stopping)]
      exact scanned
    exact ⟨held.stopping, held.starts, held.runs⟩
  | timeout => exact ⟨id, rfl, Nat.le_refl _⟩
  | command host request =>
    have commanded : Quiet daemon (daemon.command host request).2 := by
      cases request with
      | status => exact .refl daemon
      | add manifest workingDirectory => exact add_quiet _
      | remove manifest => exact remove_quiet manifest
      | pause job => exact hold_quiet job true
      | resume job => exact hold_quiet job false
      | trigger job => exact trigger_quiet job refused
      | reload => exact reloadAll_quiet
      | stop => exact ⟨fun _ => rfl, rfl, Nat.le_refl _⟩
    exact ⟨commanded.stopping, commanded.starts, commanded.runs⟩
  | finished host index outcome => exact handleFinished_quiet stopping index outcome
  | signal =>
    have signalled : Quiet daemon daemon.signal := by
      unfold signal
      rw [if_pos stopping]
      exact ⟨id, rfl, Nat.le_refl _⟩
    exact ⟨signalled.stopping, signalled.starts, signalled.runs⟩
  | loads thread content =>
    refine ⟨id, rfl, ?_⟩
    unfold take load
    simp
  | edited registry => exact ⟨id, rfl, Nat.le_refl _⟩

theorem step_quiet (stopping : daemon.stopping = true) {input : Input}
    (refused : daemon.takes input = true → daemon.acceptsTrigger input = false) :
    Quiet daemon (daemon.step input) := by
  unfold step
  split
  · rename_i taken
    exact take_quiet stopping (refused taken)
  · exact .refl daemon

theorem step_stopping (stopping : daemon.stopping = true) (input : Input) :
    (daemon.step input).stopping = true := by
  by_cases accepted : daemon.takes input = true ∧ daemon.acceptsTrigger input = true
  · obtain ⟨taken, accepted⟩ := accepted
    unfold acceptsTrigger at accepted
    split at accepted
    · rename_i host id
      unfold step
      rw [if_pos taken]
      exact (trigger_stopping id).trans stopping
    · cases accepted
  · have quiet : Quiet daemon (daemon.step input) :=
      step_quiet stopping fun taken => by simpa [taken] using accepted
    exact quiet.stopping stopping

/-! ## After the stop -/

variable {limit : Nat}

theorem step_stops (stops : Stops limit daemon) (input : Input) :
    Stops limit (daemon.step input) :=
  ⟨step_stopping stops.stopping input,
    keeps_always (fun _ _ _ move => move_counted move) stops.counted [input]⟩

theorem windsDown_iff (stops : Stops limit daemon) (input : Input) :
    WindsDown daemon (daemon.step input) ↔
      (daemon.takes input = true → daemon.acceptsTrigger input = false) := by
  constructor
  · intro winds taken
    by_contra accepted
    unfold acceptsTrigger at accepted
    split at accepted
    · rename_i host id
      have more : (daemon.step (.command host (.trigger id))).starts = daemon.starts + 1 := by
        unfold step
        rw [if_pos taken]
        exact trigger_starts id (by simpa [acceptsTrigger] using accepted)
      have := winds.starts
      omega
    · exact accepted rfl
  · intro refused
    have quiet := step_quiet stops.stopping refused
    exact ⟨quiet.starts, quiet.runs, (step_stops stops input).idle_isOver⟩

theorem stops_of_stop (counted : Counted limit daemon) {stop : Input}
    (asked : stop = .signal ∨ ∃ host, stop = .command host .stop)
    (taken : daemon.takes stop = true) : Stops limit (daemon.step stop) := by
  refine ⟨?_, keeps_always (fun _ _ _ move => move_counted move) counted [stop]⟩
  unfold step
  rw [if_pos taken]
  rcases asked with rfl | ⟨host, rfl⟩
  · have stopped : daemon.signal.stopping = true := by
      unfold signal
      split
      · rename_i stopping
        exact stopping
      · rfl
    exact stopped
  · rfl

/-- After a stop, a daemon winds down at every step if and only if it accepts no trigger. -/
theorem stop_winds_down {root : Path} {files : Files}
    (opened : openDaemon host root limit files = some daemon) (inputs : List Input) {stop : Input}
    (asked : stop = .signal ∨ ∃ host, stop = .command host .stop)
    (taken : (runAll step daemon inputs).takes stop = true) (later : List Input) :
    Along step (fun before input => WindsDown before (before.step input))
        ((runAll step daemon inputs).step stop) later ↔
      Along step (fun before input => before.takes input = true →
        before.acceptsTrigger input = false) ((runAll step daemon inputs).step stop) later := by
  have counted := keeps_always (fun _ _ _ move => move_counted move)
    (openDaemon_counted opened).1 inputs
  have keep : ∀ before input, Stops (max limit 1) before → Stops (max limit 1) (step before input) :=
    fun before input stops => step_stops stops input
  exact Along.iff keep (fun before input stops => windsDown_iff stops input)
    (stops_of_stop counted asked taken) later

end

/-! ## A job that is triggered while the daemon waits -/

def triggeredBefore : List Input :=
  [.pass early, .command early (.trigger "nightly".toList), .pass early]

def triggeredAfter : List Input :=
  [.pass early, .command early (.trigger "nightly:early".toList)]

def stoppedDaemon : Daemon :=
  @step .unused (@runAll _ _ (@step .unused) twoNightlyDaemon triggeredBefore) (.command early .stop)

theorem stop_starts :
    stoppedDaemon.stopping = true ∧
      (@runAll _ _ (@step .unused) stoppedDaemon triggeredAfter).starts = stoppedDaemon.starts + 1 ∧
      stoppedDaemon.inFlight.length <
        (@runAll _ _ (@step .unused) stoppedDaemon triggeredAfter).inFlight.length ∧
      ¬ Along (@step .unused) (fun before input => WindsDown before (@step .unused before input))
        stoppedDaemon triggeredAfter := by
  let _ : CronCrate := .unused
  have more : (runAll step stoppedDaemon triggeredAfter).starts = stoppedDaemon.starts + 1 := by
    decide +kernel
  refine ⟨by decide +kernel, more, by decide +kernel, fun winds => ?_⟩
  have first := winds.1.starts
  have second := winds.2.1.starts
  simp only [triggeredAfter, runAll_cons, runAll_nil] at more
  omega

/-- A trigger that is refused starts nothing. -/
theorem stop_winds_down_refused :
    Along (@step .unused) (fun before input => WindsDown before (@step .unused before input))
      stoppedDaemon [.pass early, .command early (.trigger "nightly".toList)] := by
  let _ : CronCrate := .unused
  refine (stop_winds_down twoNightlyDaemon_opened triggeredBefore (.inr ⟨early, rfl⟩)
    (by decide +kernel) _).mpr ⟨fun _ => rfl, fun _ => by decide +kernel, trivial⟩

end Beez.Daemon
