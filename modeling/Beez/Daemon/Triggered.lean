import Beez.Daemon.Waiting

/-! # A run that stands beside the schedules -/

open Beez.Lib

namespace Beez.Daemon

/-- Where a job stands in its schedule: the next fire, the last one, and whether one waits. -/
def Job.place (job : Job) : Option Int × Option Int × Bool :=
  (job.nextFire, job.state.lastFire, job.queued)

/-- A run of the job `id` started, and nothing but its mark and the count of runs changed. -/
structure RunsBeside (before after : Daemon) (id : Text) : Prop where
  schedules : after.jobs.map Job.place = before.jobs.map Job.place
  only : ∃ index job run, before.position id = some index ∧ before.jobs[index]? = some job ∧
    after = { before with
      jobs := before.jobs.set index { job with running := true }
      running := before.running + 1
      threads := before.threads ++ [⟨run, job.source, none⟩]
      trace := before.trace ++ [.started job run before.inFlight] }

/-- A fire of the job `id` waits. -/
def hasWaiting (daemon : Daemon) (id : Text) : Bool :=
  (daemon.position id).any fun index => daemon.jobs[index]?.any (·.queued)

/-- An accepted trigger leaves every schedule alone if and only if no fire of its job waits. -/
theorem trigger_beside_iff (daemon : Daemon) (host : Host) (id : Text) {message : Text}
    (accepted : (daemon.trigger host id).1 = .done message) :
    RunsBeside daemon (daemon.trigger host id).2 id ↔ daemon.hasWaiting id = false := by
  rcases trigger_cases daemon host id with
    ⟨_, refused, -⟩ | ⟨index, job, here, found, -, -, -, starts⟩
  · rw [refused] at accepted
    cases accepted
  have waits : daemon.hasWaiting id = job.queued := by simp [hasWaiting, here, found]
  rw [starts, waits]
  constructor
  · intro beside
    have started : (daemon.start index host.now).jobs[index]? =
        some { job with running := true, queued := false } := by
      rw [start_of_found found]
      exact getElem?_set_of_found found _
    have place := congrArg (·[index]?) beside.schedules
    simp only [List.getElem?_map, started, found, Option.map_some, Option.some.injEq] at place
    exact (congrArg (·.2.2) place).symm
  · intro free
    have marked : { job with running := true, queued := false } = { job with running := true } := by
      rw [← free]
    rw [start_of_found found, marked]
    exact ⟨map_set_of_found found rfl, index, job, _, here, found, rfl⟩

/-! ## A waiting fire that a trigger drops -/

def heldDaemon : Daemon := @runAll _ _ (@step .unused) tightDaemon (heldWhileWaiting.take 8)

theorem dropped_triggered :
    @openDaemon .unused (lateHost 0 0) ["root"] 1 ⟨.ok nightly, ⟨[]⟩⟩ = some tightDaemon ∧
      (heldDaemon.trigger (lateHost 60000000003 0) late).1 = .done "running nightly:late now".toList ∧
      ¬ RunsBeside heldDaemon (heldDaemon.trigger (lateHost 60000000003 0) late).2 late :=
  ⟨tightDaemon_opened, by decide +kernel, fun beside => absurd beside.schedules (by decide +kernel)⟩

theorem trigger_beside_idle :
    RunsBeside tightDaemon (tightDaemon.trigger (lateHost 0 0) late).2 late :=
  (trigger_beside_iff tightDaemon (lateHost 0 0) late rfl).mpr (by decide +kernel)

end Beez.Daemon
