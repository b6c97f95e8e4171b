import Beez.Daemon.Daemon
import Beez.Lib.Keyed

/-! # What each operation does to the daemon -/

open Beez.Lib

namespace Beez

/-- The fire that planning finds for a ready job at `now`. -/
def JobSchedule.planned [CronCrate] (schedule : JobSchedule) (lastFire : Option Int) (now : Int) :
    Option Int :=
  (schedule.schedule.nextAfter (lastFire.getD (if schedule.schedule.isRecurring then now else 0))).bind
    fun next => if now < next then some next else schedule.schedule.nextAfter now

namespace Daemon

variable {daemon : Daemon} {host : Host} {index : Nat} {job : Job}

/-! ## Planning and carrying over -/

/-- Planning touches the planned fire only. -/
theorem plan_eq [CronCrate] (job : Job) (now : Int) (allowCatchUp : Bool) :
    (plan job now allowCatchUp).1 =
      { job with nextFire := (plan job now allowCatchUp).1.nextFire } := by
  unfold plan
  dsimp only
  split
  · rfl
  · split
    · rfl
    · split
      · rfl
      · split
        · rfl
        · split <;> rfl

theorem plan_nextFire [CronCrate] (job : Job) (now : Int) :
    (plan job now false).1.nextFire = if job.isReady = true then
      job.schedule.bind fun schedule => schedule.planned job.state.lastFire now else none := by
  have ready : Job.isReady { job with nextFire := none } = job.isReady := rfl
  unfold plan JobSchedule.planned
  dsimp only
  rw [ready]
  cases job.isReady with
  | false => rfl
  | true =>
    simp only [Bool.not_true, Bool.false_eq_true, if_false, if_true, Bool.false_and]
    cases job.schedule with
    | none => rfl
    | some schedule =>
      dsimp only [Option.bind_some]
      cases schedule.schedule.nextAfter (job.state.lastFire.getD _) with
      | none => rfl
      | some next =>
        dsimp only [Option.bind_some]
        split <;> rfl

theorem carry_eq (jobs : List Job) (job : Job) :
    carry jobs job = { job with
      running := (carry jobs job).running
      queued := (carry jobs job).queued
      nextFire := (carry jobs job).nextFire } := by
  unfold carry
  split <;> rfl

theorem carry_of_mem {jobs : List Job} {job old : Job} (distinct : (ids jobs).Nodup)
    (mem : old ∈ jobs) (same : old.id = job.id) :
    carry jobs job = { job with
      running := old.running
      queued := old.queued
      nextFire := if old.schedule = job.schedule then old.nextFire else job.nextFire } := by
  unfold carry
  rw [find?_of_mem distinct mem same]

theorem planFresh_eq [CronCrate] (job : Job) (now : Int) :
    (planFresh job now).1 = { job with nextFire := (planFresh job now).1.nextFire } := by
  unfold planFresh
  split
  · exact plan_eq job now false
  · rfl

@[simp] theorem plan_id [CronCrate] (job : Job) (now : Int) (allowCatchUp : Bool) :
    (plan job now allowCatchUp).1.id = job.id := by
  rw [plan_eq]

@[simp] theorem plan_manifest [CronCrate] (job : Job) (now : Int) (allowCatchUp : Bool) :
    (plan job now allowCatchUp).1.manifest = job.manifest := by
  rw [plan_eq]

@[simp] theorem planFresh_id [CronCrate] (job : Job) (now : Int) :
    (planFresh job now).1.id = job.id := by
  rw [planFresh_eq]

@[simp] theorem planFresh_manifest [CronCrate] (job : Job) (now : Int) :
    (planFresh job now).1.manifest = job.manifest := by
  rw [planFresh_eq]

@[simp] theorem carry_id (jobs : List Job) (job : Job) : (carry jobs job).id = job.id := by
  rw [carry_eq]

@[simp] theorem carry_manifest (jobs : List Job) (job : Job) :
    (carry jobs job).manifest = job.manifest := by
  rw [carry_eq]

theorem mem_planLines {planned : List (Job × Option Plan)} {happening : Happening}
    (h : happening ∈ planLines planned) : ∃ job found, happening = .planned job found := by
  obtain ⟨⟨job, found⟩, -, hline⟩ := List.mem_flatMap.mp h
  obtain ⟨plan, -, rfl⟩ := List.mem_map.mp hline
  exact ⟨job, plan, rfl⟩

/-- Every job that a manifest gives is a new one. -/
theorem jobsOf_built {load : Path → Except Text Manifest} {watched : Watched} {states : States}
    {job : Job} (h : job ∈ jobsOf load watched states) :
    ∃ id schedule error source, job = Job.new id watched schedule error states source := by
  unfold jobsOf at h
  split at h
  · rw [List.mem_singleton.mp h]
    exact ⟨_, _, _, _, rfl⟩
  · split at h
    · rw [List.mem_singleton.mp h]
      exact ⟨_, _, _, _, rfl⟩
    · obtain ⟨schedule, -, rfl⟩ := List.mem_map.mp h
      exact ⟨_, _, _, _, rfl⟩

theorem jobsOf_new {load : Path → Except Text Manifest} {watched : Watched} {states : States}
    {job : Job} (h : job ∈ jobsOf load watched states) :
    job.state = states.get job.id ∧ job.nextFire = none := by
  obtain ⟨_, _, _, _, rfl⟩ := jobsOf_built h
  exact ⟨rfl, rfl⟩

theorem jobsOf_idle {load : Path → Except Text Manifest} {watched : Watched} {states : States}
    {job : Job} (h : job ∈ jobsOf load watched states) :
    job.running = false ∧ job.queued = false := by
  obtain ⟨_, _, _, _, rfl⟩ := jobsOf_built h
  exact ⟨rfl, rfl⟩

theorem jobsOf_manifest {load : Path → Except Text Manifest} {watched : Watched} {states : States}
    {job : Job} (h : job ∈ jobsOf load watched states) : job.manifest = watched.path := by
  obtain ⟨_, _, _, _, rfl⟩ := jobsOf_built h
  rfl

theorem mem_install [CronCrate] {watched : Watched} {fresh : List Job}
    (mem : job ∈ (daemon.install host watched fresh).jobs) : job ∈ daemon.jobs ∨
      ∃ read ∈ fresh, job = (planFresh (carry daemon.jobs read) host.now).1 := by
  rcases List.mem_append.mp mem with hkept | hfresh
  · exact .inl (List.mem_of_mem_filter hkept)
  · obtain ⟨planned, hplanned, rfl⟩ := List.mem_map.mp hfresh
    obtain ⟨read, hread, rfl⟩ := List.mem_map.mp hplanned
    exact .inr ⟨read, hread, rfl⟩

theorem carry_nextFire {jobs : List Job} {job : Job} {next : Int} (fresh : job.nextFire = none)
    (h : (carry jobs job).nextFire = some next) :
    ∃ old ∈ jobs, old.id = job.id ∧ old.schedule = job.schedule ∧ old.nextFire = some next := by
  unfold carry at h
  split at h
  · rw [fresh] at h
    cases h
  · rename_i old hold
    dsimp only at h
    split at h
    · rename_i same
      exact ⟨old, List.mem_of_find?_eq_some hold, by simpa using List.find?_some hold, same, h⟩
    · rw [fresh] at h
      cases h

/-! ## Operations on one job -/

theorem lt_of_found (found : daemon.jobs[index]? = some job) : index < daemon.jobs.length :=
  (List.getElem?_eq_some_iff.mp found).1

theorem getElem?_set_of_found (found : daemon.jobs[index]? = some job) (other : Job) :
    (daemon.jobs.set index other)[index]? = some other := by
  rw [List.getElem?_set_self (lt_of_found found)]

theorem start_of_found (found : daemon.jobs[index]? = some job) (fire : Int) :
    daemon.start index fire = { daemon with
      jobs := daemon.jobs.set index { job with running := true, queued := false }
      running := daemon.running + 1
      threads := daemon.threads ++ [⟨daemon.runOf job fire, job.source, none⟩]
      trace := daemon.trace ++ [.started job (daemon.runOf job fire) daemon.inFlight] } := by
  unfold start
  rw [found]

theorem queue_of_found (found : daemon.jobs[index]? = some job) :
    daemon.queue index =
      { daemon with jobs := daemon.jobs.set index { job with queued := true } } := by
  unfold queue
  rw [found]

theorem saveState_of_found (job : Job) (found : daemon.jobs[index]? = some job) (host : Host) :
    daemon.saveState host index =
      { daemon with states := daemon.states.set job.id job.state }.writeStates host := by
  unfold saveState
  rw [found]

theorem planJob_of_found [CronCrate] (found : daemon.jobs[index]? = some job) (now : Int)
    (allowCatchUp : Bool) :
    daemon.planJob index now allowCatchUp = { daemon with
      jobs := daemon.jobs.set index (plan job now allowCatchUp).1
      trace := daemon.trace ++ planLines [plan job now allowCatchUp] } := by
  unfold planJob
  rw [found]

theorem save_plan_of_found [CronCrate] (job : Job) (found : daemon.jobs[index]? = some job)
    (host : Host) (now : Int) (allowCatchUp : Bool) :
    (daemon.saveState host index).planJob index now allowCatchUp =
      { daemon with
        jobs := daemon.jobs.set index (plan job now allowCatchUp).1
        states := daemon.states.set job.id job.state
        files := (Daemon.writeStates
          { daemon with states := daemon.states.set job.id job.state } host).files
        trace := daemon.trace ++ planLines [plan job now allowCatchUp] } := by
  have kept : (Daemon.writeStates
      { daemon with states := daemon.states.set job.id job.state } host).jobs[index]? = some job :=
    found
  rw [saveState_of_found job found, planJob_of_found kept]
  rfl

/-! ## A fire -/

/-- The job after a fire led to `action`. -/
def Action.on (action : Action) (job : Job) : Job :=
  match action with
  | .start => { job with running := true, queued := false }
  | .queue _ => { job with queued := true }
  | .skip => job

@[simp] theorem Action.on_id (action : Action) (job : Job) : (action.on job).id = job.id := by
  cases action <;> rfl

@[simp] theorem Action.on_schedule (action : Action) (job : Job) :
    (action.on job).schedule = job.schedule := by
  cases action <;> rfl

@[simp] theorem Action.on_state (action : Action) (job : Job) :
    (action.on job).state = job.state := by
  cases action <;> rfl

theorem Action.on_running (action : Action) (job : Job) :
    (action.on job).running = true ↔ action = .start ∨ job.running = true := by
  cases action <;> simp [on]

@[simp] theorem Job.movedOn_id (job : Job) (fire : Int) : (job.movedOn fire).id = job.id := rfl

def Action.threads (action : Action) (run : JobRun) (source : Option Manifest) : List RunThread :=
  match action with
  | .start => [⟨run, source, none⟩]
  | _ => []

/-- What is reported of the runs that `action` starts. -/
def Action.lines (action : Action) (job : Job) (run : JobRun) (inFlight : List Text) :
    List Happening :=
  match action with
  | .start => [.started job run inFlight]
  | _ => []

theorem fire_of_found [CronCrate] (found : daemon.jobs[index]? = some job) (host : Host) :
    fire host daemon index =
      let action := daemon.actionFor job
      let moved := job.movedOn (job.nextFire.getD host.now)
      let planned := plan (action.on moved) host.now false
      let run := daemon.runOf moved (job.nextFire.getD host.now)
      { daemon with
        jobs := daemon.jobs.set index planned.1
        running := daemon.running + (action.threads run job.source).length
        states := daemon.states.set job.id moved.state
        files := (Daemon.writeStates
          { daemon with states := daemon.states.set job.id moved.state } host).files
        threads := daemon.threads ++ action.threads run job.source
        trace := daemon.trace ++ [.fired job (job.nextFire.getD host.now) action] ++
          action.lines moved run daemon.inFlight ++ planLines [planned] } := by
  unfold fire
  rw [found]
  dsimp only
  cases daemon.actionFor job with
  | start =>
    have moved : (daemon.moveOn index job (job.nextFire.getD host.now) .start).jobs[index]? =
        some (job.movedOn (job.nextFire.getD host.now)) := getElem?_set_of_found found _
    rw [act, start_of_found moved,
      save_plan_of_found _ (List.getElem?_set_self (by simpa [moveOn] using lt_of_found found))]
    simp only [moveOn, List.set_set]
    rfl
  | queue reason =>
    have moved : (daemon.moveOn index job (job.nextFire.getD host.now) (.queue reason)).jobs[index]? =
        some (job.movedOn (job.nextFire.getD host.now)) := getElem?_set_of_found found _
    rw [act, queue_of_found moved,
      save_plan_of_found _ (List.getElem?_set_self (by simpa [moveOn] using lt_of_found found))]
    simp only [moveOn, List.set_set, Action.lines, Action.threads, List.append_nil]
    rfl
  | skip =>
    have moved : (daemon.moveOn index job (job.nextFire.getD host.now) .skip).jobs[index]? =
        some (job.movedOn (job.nextFire.getD host.now)) := getElem?_set_of_found found _
    rw [act, save_plan_of_found _ moved]
    simp only [moveOn, List.set_set, Action.lines, Action.threads, List.append_nil]
    rfl

theorem mem_due {now : Int} {index : Nat} (h : index ∈ daemon.due now) :
    ∃ job, daemon.jobs[index]? = some job ∧ isDue now job = true := by
  unfold due at h
  simpa [Option.any_eq_true] using (List.mem_filter.mp h).2

/-! ## The end of a run, and a job held back -/

def Job.ended (job : Job) (outcome : RunOutcome) : Job :=
  { job with
    running := false
    state := { job.state with lastRun := outcome.directory, lastStatus := outcome.status } }

def Job.held (job : Job) (paused : Bool) : Job :=
  { job with state := { job.state with paused := paused } }

theorem settle_of_none {id : Text} (absent : daemon.position id = none) (host : Host) (thread : Nat)
    (outcome : RunOutcome) :
    daemon.settle host thread id outcome = { daemon with
      running := daemon.running - 1
      threads := daemon.threads.eraseIdx thread } := by
  unfold settle
  have : Daemon.position { daemon with
      running := daemon.running - 1
      threads := daemon.threads.eraseIdx thread } id = none := absent
  simp only [this]

theorem settle_of_found {id : Text} (here : daemon.position id = some index)
    (found : daemon.jobs[index]? = some job) (host : Host) (thread : Nat) (outcome : RunOutcome) :
    daemon.settle host thread id outcome = { daemon with
      running := daemon.running - 1
      threads := daemon.threads.eraseIdx thread
      jobs := daemon.jobs.set index (job.ended outcome)
      states := daemon.states.set job.id (job.ended outcome).state
      files := (Daemon.writeStates
        { daemon with states := daemon.states.set job.id (job.ended outcome).state } host).files } := by
  unfold settle
  have : Daemon.position { daemon with
      running := daemon.running - 1
      threads := daemon.threads.eraseIdx thread } id = some index := here
  simp only [this, modify_of_found found]
  rw [saveState_of_found (job.ended outcome)]
  · rfl
  · exact getElem?_set_of_found found _

theorem hold_of_found [CronCrate] (found : daemon.jobs[index]? = some job) (host : Host)
    (paused : Bool) :
    ((daemon.holdJob index paused).saveState host index).planJob index host.now false =
      { daemon with
        jobs := daemon.jobs.set index (plan (job.held paused) host.now false).1
        states := daemon.states.set job.id (job.held paused).state
        files := (Daemon.writeStates
          { daemon with states := daemon.states.set job.id (job.held paused).state } host).files
        trace := daemon.trace ++ planLines [plan (job.held paused) host.now false] } := by
  unfold holdJob
  simp only [modify_of_found found]
  rw [save_plan_of_found (job.held paused)]
  · simp only [List.set_set]
    rfl
  · exact getElem?_set_of_found found _

theorem found_of_position {id : Text} (here : daemon.position id = some index) :
    ∃ job, daemon.jobs[index]? = some job ∧ job.id = id := by
  obtain ⟨job, found, hid⟩ := found_of_findIdx? here
  exact ⟨job, found, by simpa using hid⟩

theorem not_mem_of_position {id : Text} (absent : daemon.position id = none) :
    id ∉ ids daemon.jobs := by
  intro hid
  obtain ⟨job, mem, same⟩ := List.mem_map.mp hid
  simpa [same] using List.findIdx?_eq_none_iff.mp absent job mem

/-- A trigger is refused, or it starts a run of its job and does nothing else. -/
theorem trigger_cases (daemon : Daemon) (host : Host) (id : Text) :
    (∃ error, daemon.trigger host id = (.error error, daemon) ∧
      ∀ index job, daemon.position id = some index → daemon.jobs[index]? = some job →
        job.error = none → job.running = false → daemon.limit ≤ daemon.running) ∨
    ∃ index job, daemon.position id = some index ∧ daemon.jobs[index]? = some job ∧
      job.error = none ∧ job.running = false ∧ daemon.running < daemon.limit ∧
      daemon.trigger host id =
        (.done ("running ".toList ++ id ++ " now".toList), daemon.start index host.now) := by
  unfold trigger
  cases here : daemon.position id with
  | none => exact .inl ⟨_, rfl, by simp⟩
  | some index =>
    obtain ⟨job, found, -⟩ := found_of_position here
    have only : ∀ index' job', some index = some index' → daemon.jobs[index']? = some job' →
        job' = job := by
      rintro _ job' ⟨⟩ found'
      exact Option.some.inj (found'.symm.trans found)
    simp only [found]
    cases whole : job.error with
    | some error =>
      refine .inl ⟨_, rfl, fun index' job' here' found' whole' => ?_⟩
      rw [only index' job' here' found', whole] at whole'
      cases whole'
    | none =>
      dsimp only
      split
      · rename_i running
        refine .inl ⟨_, rfl, fun index' job' here' found' _ idle => ?_⟩
        rw [only index' job' here' found', running] at idle
        cases idle
      · split
        · rename_i full
          exact .inl ⟨_, rfl, fun _ _ _ _ _ _ => full⟩
        · rename_i idle full
          exact .inr ⟨index, job, rfl, found, whole, by simpa using idle, by omega, rfl⟩

/-- An end that nobody waits for does nothing, and any other one finishes its run. -/
theorem handleFinished_cases (daemon : Daemon) (host : Host) (index : Nat) (outcome : RunOutcome) :
    daemon.threads[index]?.any (·.loaded.isSome) = false ∧
      daemon.handleFinished host index outcome = daemon ∨
    ∃ thread, daemon.threads[index]? = some thread ∧ thread.loaded.isSome = true ∧
      daemon.handleFinished host index outcome =
        { daemon.finished host index thread.run.id (thread.outcome outcome) with waiting := false } := by
  unfold handleFinished
  cases found : daemon.threads[index]? with
  | none => exact .inl ⟨rfl, rfl⟩
  | some thread =>
    cases loaded : thread.loaded.isSome with
    | false => exact .inl ⟨loaded, by simp [loaded]⟩
    | true => exact .inr ⟨thread, rfl, loaded, by simp [loaded]⟩

/-! ## The start -/

theorem openDaemon_built [CronCrate] {root : Path} {limit : Nat} {files : Files}
    (opened : openDaemon host root limit files = some daemon) :
    ∃ registry states, files.registry = .ok registry ∧ files.states.reread = some states ∧
      daemon.states = states ∧ daemon.jobs =
        (build host.load host.modified registry states).2.map fun job =>
          (plan job host.now true).1 := by
  unfold openDaemon at opened
  split at opened
  · rename_i registry states hregistry hstates
    simp only [Option.some.injEq] at opened
    subst opened
    exact ⟨registry, states, hregistry, hstates, rfl, by simp [planAll, Function.comp_def]⟩
  · cases opened

theorem openDaemon_fresh [CronCrate] {root : Path} {limit : Nat} {files : Files}
    (opened : openDaemon host root limit files = some daemon) :
    daemon.threads = [] ∧ ∃ planned, daemon.trace = planLines planned := by
  unfold openDaemon at opened
  split at opened
  · simp only [Option.some.injEq] at opened
    subst opened
    exact ⟨rfl, _, rfl⟩
  · cases opened

end Daemon

end Beez
