import Beez.Daemon.Due
import Beez.Daemon.Watching

/-! # Fires that are taken in time

A job owes the first instant after its last recorded fire. While a daemon takes its fires in time,
the fire for that instant stays planned.
-/

open Beez.Lib

namespace Beez.Daemon

/-! ## What the steps must meet -/

section

variable [CronCrate]

/-- The first instant after the last fire that is recorded, of a job that may run late. A recurring
job that never fired has none. -/
def Job.owed (job : Job) : Option Int :=
  job.schedule.bind fun schedule =>
    if schedule.catchUp then
      let base := if schedule.schedule.isRecurring then job.state.lastFire
        else some (job.state.lastFire.getD 0)
      base.bind schedule.schedule.nextAfter
    else none

/-- No instant of a job that may run late passes while the job is held back. -/
def HoldsNone (daemon : Daemon) (since upTo : Int) : Prop :=
  ∀ job ∈ daemon.jobs, job.isReady = false → ∀ schedule, job.schedule = some schedule →
    schedule.catchUp = true → ∀ instant, schedule.schedule.Hits instant → since < instant →
      upTo < instant

/-- A job that is read again goes on: it has the schedule and the last fire that it had, and is
held back only when no fire of it is due. -/
def GoesOn (host : Host) (daemon : Daemon) (fresh : Job) : Prop :=
  ∃ old, daemon.jobs.find? (·.id = fresh.id) = some old ∧ old.schedule = fresh.schedule ∧
    old.state.lastFire = fresh.state.lastFire ∧
      (fresh.isReady = false → isDue host.now old = false)

/-- A job that is read goes on as it was, or it is new, and no instant of it passed since its last
recorded fire. -/
def ReadsOnTime (host : Host) (daemon : Daemon) (watched : Watched) : Prop :=
  ∀ fresh ∈ jobsOf host.load watched daemon.states, GoesOn host daemon fresh ∨
    ∀ first, fresh.owed = some first → (carry daemon.jobs fresh).nextFire = none ∧ host.now < first

/-- A pass comes before the instant after the one that is planned. -/
def PassesOnTime (daemon : Daemon) (now : Int) : Prop :=
  daemon.stopping = false → ∀ job ∈ daemon.jobs, isDue now job = true →
    ∀ schedule fire next, job.schedule = some schedule → schedule.catchUp = true →
      job.nextFire = some fire → schedule.schedule.nextAfter fire = some next → now < next

/-- No fire is due of the jobs that may run late. -/
def NoneDue (daemon : Daemon) (now : Int) (which : Job → Prop) : Prop :=
  ∀ job ∈ daemon.jobs, which job → job.schedule.any (·.catchUp) = true → isDue now job = false

/-- Fires are taken in time, and what takes a job out of the way finds no fire of it due. -/
def OnTime (daemon : Daemon) : Input → Prop
  | .pass host => Along (reload host) (ReadsOnTime host) daemon (daemon.changed host) ∧
      PassesOnTime (daemon.rescan host) host.now
  | .command host (.add manifest workingDirectory) =>
    ∀ names, admitJobs (jobsOf host.load ⟨manifest, workingDirectory⟩ daemon.states)
      (daemon.othersIds ⟨manifest, workingDirectory⟩) = .ok names →
        ReadsOnTime host daemon ⟨manifest, workingDirectory⟩
  | .command host .reload => Along (reload host) (ReadsOnTime host) daemon.reloadRegistry
    daemon.reloadRegistry.registry.manifests
  | .command host (.pause named) | .command host (.resume named) =>
    NoneDue daemon host.now (·.id = named)
  | _ => True

end

/-! ## What a job keeps -/

section

variable [CronCrate] {up : Int → Prop} {job new : Job} {now : Int} {daemon after : Daemon}
  {host : Host} {index : Nat}

/-- The first instant that the job owes passed while no daemon was up, or it is still to come, or
its fire is planned and not late. -/
def Job.Accounted (up : Int → Prop) (now : Int) (job : Job) : Prop :=
  ∀ first, job.owed = some first → first ≤ now ∧ ¬ up first ∨
    (job.isReady = true → job.nextFire.isSome = true) ∧
      (∀ fire, job.nextFire = some fire → fire ≤ first ∨ fire ≤ now) ∧
      (job.isReady = false → now < first)

/-- The instant that the job owes did not pass beside a daemon. -/
def Job.Clear (up : Int → Prop) (now : Int) (job : Job) : Prop :=
  ∀ first, job.owed = some first → now < first ∨ ¬ up first

/-- What decides about the fires of a job. -/
structure Job.SameTimes (old new : Job) : Prop where
  schedule : new.schedule = old.schedule
  lastFire : new.state.lastFire = old.state.lastFire
  ready : new.isReady = old.isReady
  nextFire : new.nextFire = old.nextFire

theorem Job.owed_congr (schedule : new.schedule = job.schedule)
    (lastFire : new.state.lastFire = job.state.lastFire) : new.owed = job.owed := by
  unfold Job.owed
  rw [schedule, lastFire]

theorem Job.Accounted.congr (accounted : job.Accounted up now) (same : job.SameTimes new) :
    new.Accounted up now := by
  intro first howed
  rw [Job.owed_congr same.schedule same.lastFire] at howed
  rw [same.ready, same.nextFire]
  exact accounted first howed

theorem Job.hits_of_owed {first : Int} (howed : job.owed = some first) :
    ∃ schedule, job.schedule = some schedule ∧ schedule.catchUp = true ∧
      schedule.schedule.Hits first := by
  unfold Job.owed at howed
  obtain ⟨schedule, hschedule, howed⟩ := Option.bind_eq_some_iff.mp howed
  split at howed
  · obtain ⟨base, -, hnext⟩ := Option.bind_eq_some_iff.mp howed
    exact ⟨schedule, hschedule, ‹_›, base, hnext⟩
  · cases howed

theorem Job.catchUp_of_owed {first : Int} (howed : job.owed = some first) :
    job.schedule.any (·.catchUp) = true := by
  obtain ⟨schedule, hschedule, late, -⟩ := job.hits_of_owed howed
  simp [hschedule, late]

/-- A plan of a ready job looks for the instant that the job owes. -/
theorem Job.nextAfter_of_owed (now : Int) {first : Int} (howed : job.owed = some first) :
    ∃ schedule, job.schedule = some schedule ∧ schedule.catchUp = true ∧
      schedule.schedule.nextAfter (job.base schedule now) = some first := by
  unfold Job.owed at howed
  obtain ⟨schedule, hschedule, howed⟩ := Option.bind_eq_some_iff.mp howed
  split at howed
  · rename_i late
    refine ⟨schedule, hschedule, late, ?_⟩
    unfold Job.base
    cases recurring : schedule.schedule.isRecurring with
    | false => simpa [recurring] using howed
    | true =>
      cases hlast : job.state.lastFire with
      | none => simp [recurring, hlast] at howed
      | some last => simpa [recurring, hlast] using howed
  · cases howed

/-- Time passes while a daemon runs. -/
theorem Job.Accounted.wait {later : Int} (accounted : job.Accounted up now) (forward : now ≤ later)
    (held : job.isReady = false → ∀ first, job.owed = some first → now < first → later < first) :
    job.Accounted (fun time => up time ∨ now < time ∧ time ≤ later) later := by
  intro first howed
  rcases accounted first howed with ⟨passed, down⟩ | ⟨planned, early, ahead⟩
  · refine .inl ⟨by omega, ?_⟩
    rintro (was | ⟨after, -⟩)
    · exact down was
    · omega
  · refine .inr ⟨planned, fun fire hfire => ?_, fun unready => ?_⟩
    · have := early fire hfire
      omega
    · exact held unready first howed (ahead unready)

/-- A job with no fire due did not miss the instant that it owes. -/
theorem Job.Accounted.clear (accounted : job.Accounted up now)
    (undue : job.schedule.any (·.catchUp) = true → isDue now job = false) : job.Clear up now := by
  intro first howed
  rcases accounted first howed with ⟨-, down⟩ | ⟨planned, early, ahead⟩
  · exact .inr down
  · left
    cases ready : job.isReady with
    | false => exact ahead ready
    | true =>
      obtain ⟨fire, hfire⟩ := Option.isSome_iff_exists.mp (planned ready)
      have later : now < fire := by
        simpa [isDue, ready, hfire] using undue (Job.catchUp_of_owed howed)
      have := early fire hfire
      omega

/-- A plan that misses no instant beside a daemon accounts for the job. -/
theorem Job.Clear.plan (clear : job.Clear up now) : (plan job now false).1.Accounted up now := by
  have shape := plan_eq job now false
  intro first howed
  have same : (Daemon.plan job now false).1.owed = job.owed := by
    rw [shape]
    rfl
  rw [same] at howed
  by_cases passed : first ≤ now
  · rcases clear first howed with ahead | down
    · omega
    · exact .inl ⟨passed, down⟩
  · right
    obtain ⟨schedule, hschedule, -, hnext⟩ := Job.nextAfter_of_owed now howed
    have ready : (Daemon.plan job now false).1.isReady = job.isReady := by
      rw [shape]
      rfl
    have planned : (Daemon.plan job now false).1.nextFire =
        if job.isReady = true then some first else none := by
      have base : job.state.lastFire.getD (if schedule.schedule.isRecurring then now else 0) =
          job.base schedule now := rfl
      have ahead : now < first := by omega
      rw [plan_nextFire, hschedule, Option.bind_some, JobSchedule.planned, base, hnext]
      simp [ahead]
    rw [ready, planned]
    refine ⟨fun h => by simp [h], fun fire hfire => ?_, fun _ => by omega⟩
    split at hfire
    · obtain rfl := Option.some.inj hfire
      exact .inl (le_refl _)
    · cases hfire

/-! ## What an operation leaves accounted for -/

/-- Every job is accounted for. -/
def AllAccounted (up : Int → Prop) (now : Int) (daemon : Daemon) : Prop :=
  ∀ job ∈ daemon.jobs, job.Accounted up now

theorem AllAccounted.of_same (all : AllAccounted up now daemon)
    (jobs : ∀ new ∈ after.jobs, ∃ old ∈ daemon.jobs, old.SameTimes new) :
    AllAccounted up now after := by
  intro new hnew
  obtain ⟨old, hold, same⟩ := jobs new hnew
  exact (all old hold).congr same

theorem AllAccounted.of_subset (all : AllAccounted up now daemon)
    (jobs : ∀ job ∈ after.jobs, job ∈ daemon.jobs) : AllAccounted up now after :=
  fun job mem => all job (jobs job mem)

theorem AllAccounted.set (all : AllAccounted up now daemon) (accounted : new.Accounted up now)
    (jobs : after.jobs = daemon.jobs.set index new) : AllAccounted up now after := by
  intro job mem
  rw [jobs] at mem
  rcases List.mem_or_eq_of_mem_set mem with mem | rfl
  · exact all job mem
  · exact accounted

theorem AllAccounted.start (all : AllAccounted up now daemon)
    (found : daemon.jobs[index]? = some job) (fire : Int) :
    AllAccounted up now (daemon.start index fire) := by
  have same : job.SameTimes { job with running := true, queued := false } := ⟨rfl, rfl, rfl, rfl⟩
  rw [start_of_found found]
  exact all.set ((all job (List.mem_of_getElem? found)).congr same) rfl

theorem AllAccounted.settle (all : AllAccounted up now daemon) (thread : Nat) (id : Text)
    (outcome : RunOutcome) : AllAccounted up now (daemon.settle host thread id outcome) := by
  cases here : daemon.position id with
  | none =>
    rw [settle_of_none here]
    exact all
  | some place =>
    obtain ⟨job, found, -⟩ := found_of_position here
    have same : job.SameTimes (job.ended outcome) := ⟨rfl, rfl, rfl, rfl⟩
    rw [settle_of_found here found]
    exact all.set ((all job (List.mem_of_getElem? found)).congr same) rfl

theorem AllAccounted.startWaiting (all : AllAccounted up now daemon) (room : Nat) (time : Int) :
    AllAccounted up now (daemon.startWaiting time room) := by
  induction room generalizing daemon with
  | zero => exact all
  | succ room ih =>
    rw [Daemon.startWaiting]
    split
    · exact all
    · rename_i place here
      obtain ⟨job, found, -⟩ := found_of_findIdx? here
      exact ih (all.start found _)

theorem AllAccounted.finished (all : AllAccounted up now daemon) (thread : Nat)
    (outcome : RunOutcome) :
    AllAccounted up now (daemon.handleFinished host thread outcome) := by
  rcases handleFinished_cases daemon host thread outcome with ⟨-, same⟩ | ⟨ended, -, -, same⟩
  · rwa [same]
  · rw [same]
    have settled : AllAccounted up now
        (daemon.settle host thread ended.run.id (ended.outcome outcome)) := all.settle _ _ _
    change AllAccounted up now
      (daemon.finished host thread ended.run.id (ended.outcome outcome))
    unfold Daemon.finished startQueued
    split
    · exact settled
    · exact settled.startWaiting _ _

theorem AllAccounted.hold (all : AllAccounted up host.now daemon) (named : Text) (paused : Bool)
    (undue : NoneDue daemon host.now (·.id = named)) :
    AllAccounted up host.now (daemon.hold host named paused).2 := by
  unfold Daemon.hold
  cases here : daemon.position named with
  | none => exact all
  | some place =>
    obtain ⟨job, found, own⟩ := found_of_position here
    have mem := List.mem_of_getElem? found
    have clear : (job.held paused).Clear up host.now :=
      (all job mem).clear (undue job mem own)
    dsimp only
    rw [hold_of_found found]
    exact all.set clear.plan rfl

theorem AllAccounted.reload {watched : Watched} (all : AllAccounted up host.now daemon)
    (reads : ReadsOnTime host daemon watched) :
    AllAccounted up host.now (reload host daemon watched) := by
  intro job mem
  rcases mem_install mem with hold | ⟨fresh, hfresh, rfl⟩
  · exact all job hold
  have owed : (carry daemon.jobs fresh).owed = fresh.owed := by
    rw [carry_eq]
    rfl
  have ready : (carry daemon.jobs fresh).isReady = fresh.isReady := by
    rw [carry_eq]
    rfl
  rcases reads fresh hfresh with ⟨old, hold, schedule, lastFire, held⟩ | isNew
  · have accounted := all old (List.mem_of_find?_eq_some hold)
    have same : fresh.owed = old.owed := Job.owed_congr schedule.symm lastFire.symm
    have carried : (carry daemon.jobs fresh).nextFire = old.nextFire := by
      unfold carry
      rw [hold]
      exact if_pos schedule
    unfold planFresh
    split
    · rename_i unplanned
      rw [carried, Option.isNone_iff_eq_none] at unplanned
      refine Job.Clear.plan fun first howed => ?_
      rw [owed, same] at howed
      exact accounted.clear (fun _ => by simp [isDue, unplanned]) first howed
    · rename_i planned
      intro first howed
      rw [owed, same] at howed
      rw [carried] at planned ⊢
      rw [ready]
      rcases accounted first howed with down | ⟨-, early, -⟩
      · exact .inl down
      · by_cases down : first ≤ host.now ∧ ¬ up first
        · exact .inl down
        · refine .inr ⟨fun _ => ?_, early, fun unready => ?_⟩
          · exact Option.isSome_iff_ne_none.mpr fun none => planned (by simp [none])
          · have clear := accounted.clear (fun _ => held unready) first howed
            by_contra passed
            exact down ⟨by omega, clear.resolve_left passed⟩
  · unfold planFresh
    split
    · refine Job.Clear.plan fun first howed => .inl ?_
      rw [owed] at howed
      exact (isNew first howed).2
    · rename_i planned
      intro first howed
      rw [owed] at howed
      simp [(isNew first howed).1] at planned

theorem AllAccounted.reloads {watched : List Watched} (all : AllAccounted up host.now daemon)
    (reads : Along (Daemon.reload host) (ReadsOnTime host) daemon watched) :
    AllAccounted up host.now (runAll (Daemon.reload host) daemon watched) :=
  runAll_invariant (fun _ _ all reads => AllAccounted.reload all reads) all reads

/-- The fire of a job that is due moves its last fire on, and the next instant lies ahead. -/
theorem AllAccounted.fireDue (all : AllAccounted up host.now daemon)
    (passes : PassesOnTime daemon host.now) : AllAccounted up host.now (daemon.fireDue host) := by
  cases going : daemon.stopping with
  | true =>
    rw [show daemon.fireDue host = daemon by simp [Daemon.fireDue, going]]
    exact all
  | false =>
    intro job mem
    obtain ⟨place, found⟩ := List.mem_iff_getElem?.mp mem
    cases hold : daemon.jobs[place]? with
    | none =>
      have out : place ∉ daemon.due host.now := fun hdue => by
        have lt := due_within place hdue
        rw [List.getElem?_eq_none_iff] at hold
        omega
      rw [fireDue_of_going going, fireAll_other due_apart due_within out, hold] at found
      cases found
    | some old =>
      have hmem := List.mem_of_getElem? hold
      cases isdue : isDue host.now old with
      | false =>
        obtain rfl := Option.some.inj ((fireDue_other going hold isdue).symm.trans found)
        exact all old hmem
      | true =>
        obtain ⟨action, fired⟩ :=
          fireAll_job due_apart due_within ((mem_due_iff hold).mpr isdue) hold
        rw [← fireDue_of_going going] at fired
        obtain rfl := Option.some.inj (fired.symm.trans found)
        obtain ⟨fire, hfire⟩ : ∃ fire, old.nextFire = some fire := by
          rw [isDue, Bool.and_eq_true] at isdue
          exact Option.isSome_iff_exists.mp (Option.isSome_of_any isdue.2)
        refine Job.Clear.plan fun first howed => .inl ?_
        rw [hfire, Option.getD_some] at howed
        obtain ⟨schedule, hschedule, late, hnext⟩ := Job.nextAfter_of_owed host.now howed
        rw [Action.on_schedule] at hschedule
        have base : (action.on (old.movedOn fire)).base schedule host.now = fire := by
          rw [Job.base, Action.on_state]
          rfl
        rw [base] at hnext
        exact passes going old hmem isdue schedule fire first hschedule late hfire hnext

theorem AllAccounted.take {input : Input} (all : AllAccounted up now daemon)
    (here : ∀ host, input.host = some host → host.now = now) (onTime : OnTime daemon input) :
    AllAccounted up now (daemon.take input) := by
  cases input with
  | pass host =>
    obtain rfl := here host rfl
    exact (AllAccounted.reloads all onTime.1).fireDue onTime.2
  | timeout => exact all
  | command host request =>
    obtain rfl := here host rfl
    cases request with
    | status => exact all
    | stop => exact all
    | add manifest workingDirectory =>
      change AllAccounted up host.now (daemon.add host ⟨manifest, workingDirectory⟩).2
      rcases @add_leaves daemon host _ ⟨manifest, workingDirectory⟩ with
        same | same | ⟨⟨names, admitted⟩, -, same⟩
      · rwa [same]
      · rw [same]
        exact all
      · rw [same]
        exact all.reload (onTime names admitted)
    | remove manifest =>
      change AllAccounted up host.now (daemon.remove host manifest).2
      rcases @remove_leaves daemon host manifest with same | same | same
      · rwa [same]
      · rw [same]
        exact all
      · rw [same]
        exact all.of_subset fun job mem => List.mem_of_mem_filter mem
    | pause named => exact all.hold named true onTime
    | resume named => exact all.hold named false onTime
    | trigger named =>
      change AllAccounted up host.now (daemon.trigger host named).2
      rcases trigger_cases daemon host named with ⟨_, same, -⟩ | ⟨_, _, -, found, -, -, -, same⟩
      · rwa [same]
      · rw [same]
        exact all.start found _
    | reload =>
      have left : AllAccounted up host.now daemon.reloadRegistry :=
        all.of_subset fun job mem => List.mem_of_mem_filter mem
      exact left.reloads onTime
  | finished host thread outcome => exact all.finished thread outcome
  | signal =>
    unfold Daemon.take signal
    dsimp only
    split
    · exact all
    · exact all
  | loads thread content => exact all
  | edited registry => exact all

theorem AllAccounted.step {input : Input} {up : Int → Prop} {now : Int}
    (all : AllAccounted up now daemon) (here : ∀ host, input.host = some host → host.now = now)
    (onTime : daemon.takes input = true → OnTime daemon input) :
    AllAccounted up now (daemon.step input) := by
  unfold Daemon.step
  split
  · exact all.take here (onTime ‹_›)
  · exact all

end

end Beez.Daemon
