import Beez.Daemon.Counting

/-! # Fires that a schedule drops -/

open Beez.Lib

namespace Beez.Daemon

/-- The schedule of the job drops a fire that meets a run of the job. -/
def Job.skips (job : Job) : Bool := job.schedule.any (·.onOverlap = .skip)

/-- The fire at `index` is one that its schedule drops, because a run of its job goes on. -/
def MeetsRun (daemon : Daemon) (index : Nat) (job : Job) : Prop :=
  daemon.jobs[index]? = some job ∧ job.skips = true ∧ job.id ∈ daemon.inFlight

/-- There is room for another run, and the job bears the mark that a run of it goes on. Where
there is no room, a fire of the job waits already. -/
def SeesRun (daemon : Daemon) (job : Job) : Prop :=
  if daemon.running < daemon.limit then job.running = true else job.queued = true

theorem actionFor_skips (daemon : Daemon) {job : Job} (skips : job.skips = true) :
    (daemon.limit ≤ daemon.running ∧
        daemon.actionFor job = .queue "the daemon is at its run limit") ∨
      (daemon.running < daemon.limit ∧ job.running = false ∧ daemon.actionFor job = .start) ∨
      (daemon.running < daemon.limit ∧ job.running = true ∧ daemon.actionFor job = .skip) := by
  obtain ⟨schedule, hschedule, hskip⟩ : ∃ schedule, job.schedule = some schedule ∧
      schedule.onOverlap = .skip := by simpa [Job.skips, Option.any_eq_true] using skips
  have overlap : (job.schedule.map (·.onOverlap)).getD .skip = .skip := by
    simpa [hschedule] using hskip
  unfold actionFor
  by_cases full : daemon.running ≥ daemon.limit
  · exact .inl ⟨full, if_pos full⟩
  · rw [if_neg full, overlap]
    cases job.running with
    | false => exact .inr (.inl ⟨by omega, rfl, rfl⟩)
    | true => exact .inr (.inr ⟨by omega, rfl, rfl⟩)

section

variable [CronCrate]

/-- The fire starts no run, and no fire waits because of it. -/
def Drops (host : Host) (daemon : Daemon) (index : Nat) (job : Job) : Prop :=
  (fire host daemon index).threads = daemon.threads ∧
    ∀ after, (fire host daemon index).jobs[index]? = some after → after.queued = job.queued

/-- Every fire of one step meets `ok` in the state that finds it. -/
def AtFires (ok : Host → Daemon → Nat → Prop) (daemon : Daemon) : Input → Prop
  | .pass host => daemon.takes (.pass host) = true → (daemon.rescan host).stopping = false →
    Along (fire host) (ok host) (daemon.rescan host) ((daemon.rescan host).due host.now)
  | _ => True

section

variable {daemon : Daemon} {host : Host} {index : Nat} {job : Job}

theorem fire_threads (found : daemon.jobs[index]? = some job) :
    (fire host daemon index).threads = daemon.threads ↔ daemon.actionFor job ≠ .start := by
  rw [fire_of_found found]
  cases daemon.actionFor job <;> simp [Action.threads]

theorem fire_queued (found : daemon.jobs[index]? = some job) :
    (∀ after, (fire host daemon index).jobs[index]? = some after → after.queued = job.queued) ↔
      ((daemon.actionFor job).on job).queued = job.queued := by
  have hjobs := congrArg Daemon.jobs (fire_of_found found host)
  rw [hjobs, getElem?_set_of_found found]
  simp only [Option.some.injEq, forall_eq']
  rw [plan_eq]
  cases daemon.actionFor job <;> exact Iff.rfl

theorem drops_iff (found : daemon.jobs[index]? = some job) (skips : job.skips = true) :
    Drops host daemon index job ↔ SeesRun daemon job := by
  unfold Drops SeesRun
  rw [fire_threads found, fire_queued found]
  rcases actionFor_skips daemon skips with
    ⟨full, action⟩ | ⟨room, idle, action⟩ | ⟨room, running, action⟩
  · rw [action, if_neg (by omega)]
    simp only [ne_eq, reduceCtorEq, not_false_eq_true, true_and, Action.on]
    exact eq_comm
  · rw [action, if_pos room]
    simp [idle]
  · rw [action, if_pos room]
    simp [running, Action.on]

theorem atFires_congr {ok ok' : Host → Daemon → Nat → Prop}
    (same : ∀ host daemon index, ok host daemon index ↔ ok' host daemon index) (daemon : Daemon)
    (input : Input) : AtFires ok daemon input ↔ AtFires ok' daemon input := by
  cases input with
  | pass host =>
    simp only [AtFires, Along.congr (same host)]
  | timeout | command | finished | signal | loads | edited => exact Iff.rfl

/-- In every history, each fire that its schedule drops because a run of its job goes on leads
to no run and waits for none if and only if the daemon sees that run when the fire comes. -/
theorem skips_iff (daemon : Daemon) (inputs : List Input) :
    Along step (AtFires fun host daemon index => ∀ job, MeetsRun daemon index job →
        Drops host daemon index job) daemon inputs ↔
      Along step (AtFires fun _ daemon index => ∀ job, MeetsRun daemon index job →
        SeesRun daemon job) daemon inputs := by
  refine Along.congr (fun daemon input => ?_) daemon inputs
  apply atFires_congr
  intro host daemon index
  refine forall_congr' fun job => forall_congr' fun meets => ?_
  obtain ⟨found, skips, -⟩ := meets
  exact drops_iff found skips

end

end

/-! ## A fire that meets its own run at the limit -/

def tightDaemon : Daemon :=
  (@openDaemon .unused (lateHost 0 0) ["root"] 1 ⟨.ok nightly, ⟨[]⟩⟩).get (by decide +kernel)

theorem tightDaemon_opened :
    @openDaemon .unused (lateHost 0 0) ["root"] 1 ⟨.ok nightly, ⟨[]⟩⟩ = some tightDaemon :=
  (Option.some_get _).symm

/-- The job is triggered, it falls due while that run goes on, and the run ends. -/
def dueWhileRunning : List Input :=
  [.pass (lateHost 0 0), .command (lateHost 0 0) (.trigger late), .pass (lateHost 60000000000 0),
    .loads 0 (oneTask (oneTime (some "late".toList) 60000000000)),
    .finished (lateHost 60000000001 0) 0 ⟨none, some 0, [], none⟩]

def fullDaemon : Daemon :=
  @rescan .unused (@runAll _ _ (@step .unused) tightDaemon (dueWhileRunning.take 2))
    (lateHost 60000000000 0)

theorem skip_queued :
    @openDaemon .unused (lateHost 0 0) ["root"] 1 ⟨.ok nightly, ⟨[]⟩⟩ = some tightDaemon ∧
      (@runAll _ _ (@step .unused) tightDaemon dueWhileRunning).starts = 2 ∧
      ¬ Along (@step .unused) (@AtFires .unused fun host daemon index => ∀ job,
        MeetsRun daemon index job → @Drops .unused host daemon index job) tightDaemon
          dueWhileRunning := by
  let _ : CronCrate := .unused
  refine ⟨tightDaemon_opened, by decide +kernel, fun drops => ?_⟩
  have due : fullDaemon.due 60000000000 = [0] := by decide +kernel
  have meets : ∃ job, fullDaemon.jobs[0]? = some job ∧ job.skips = true ∧
      job.id ∈ fullDaemon.inFlight ∧ fullDaemon.limit ≤ fullDaemon.running ∧
      job.queued = false := by
    have h : fullDaemon.jobs[0]?.any (fun job => job.skips && decide (job.id ∈ fullDaemon.inFlight)
        && decide (fullDaemon.limit ≤ fullDaemon.running) && !job.queued) = true := by
      decide +kernel
    simpa [Option.any_eq_true, and_assoc] using h
  obtain ⟨job, found, skips, going, full, free⟩ := meets
  have third : Along (fire (lateHost 60000000000 0)) (fun daemon index => ∀ job,
      MeetsRun daemon index job → Drops (lateHost 60000000000 0) daemon index job) fullDaemon
      (fullDaemon.due 60000000000) := drops.2.2.1 (by decide +kernel) (by decide +kernel)
  rw [due] at third
  have sees := (drops_iff found skips).mp (third.1 job ⟨found, skips, going⟩)
  unfold SeesRun at sees
  rw [if_neg (by omega), free] at sees
  cases sees

end Beez.Daemon
