import Beez.Daemon.Waiting

/-! # The words that report a job

A job is reported as done as soon as no fire of it is planned, also when one waits.
-/

open Beez.Lib

namespace Beez.Daemon

/-! ## What the words say -/

/-- With no run of it in `runs`, a ready job with a waiting fire is reported as queued, and a job
that is reported as done has no fire left. -/
structure Job.ReportsWaiting (job : Job) (runs : List Text) : Prop where
  queued : job.isReady = true → job.id ∉ runs → job.queued = true → job.condition = "queued"
  done : job.condition = "done" → job.nextFire = none ∧ job.queued = false

def ReportsWaiting (daemon : Daemon) : Prop :=
  ∀ job ∈ daemon.jobs, job.ReportsWaiting daemon.inFlight

/-- The job waits for a run of it that goes on, or has another fire planned. -/
def Job.Backed (job : Job) (runs : List Text) (planned : Prop) : Prop :=
  if job.running = true then job.id ∈ runs else planned

theorem condition_of_ready {job : Job} (ready : job.isReady = true) :
    job.condition = if job.running then "running" else if job.nextFire.isNone then "done"
      else if job.queued then "queued" else "waiting" := by
  simp only [Job.isReady, Bool.and_eq_true, Bool.not_eq_true', Option.isNone_iff_eq_none] at ready
  obtain ⟨⟨whole, enabled⟩, going⟩ := ready
  simp [Job.condition, whole, enabled, going]

theorem ready_of_done {job : Job} (h : job.condition = "done") : job.isReady = true := by
  unfold Job.condition at h
  unfold Job.isReady
  cases herror : job.error with
  | some error => simp [herror] at h
  | none =>
    cases hpaused : job.state.paused with
    | true => cases hrunning : job.running <;> simp [herror, hpaused, hrunning] at h
    | false =>
      cases henabled : job.enabled with
      | true => rfl
      | false => cases hrunning : job.running <;> simp [herror, hpaused, hrunning, henabled] at h

/-- The words are right about a job if and only if its waiting fire stands beside a run or beside
a planned fire. -/
theorem reportsWaiting_iff (job : Job) (runs : List Text) :
    job.ReportsWaiting runs ↔
      (job.isReady = true → job.queued = true → job.Backed runs (job.nextFire.isSome = true)) := by
  unfold Job.Backed
  constructor
  · intro right ready waits
    have word := condition_of_ready ready
    split
    · rename_i running
      by_contra away
      have queued := right.queued ready away waits
      rw [word, if_pos running] at queued
      exact absurd queued (by decide)
    · rename_i idle
      cases hnext : job.nextFire with
      | some next => rfl
      | none =>
        have done : job.condition = "done" := by simp [word, idle, hnext]
        rw [(right.done done).2] at waits
        cases waits
  · intro backed
    constructor
    · intro ready away waits
      have word := condition_of_ready ready
      have planned := backed ready waits
      split at planned
      · exact absurd planned away
      · rename_i idle
        obtain ⟨next, hnext⟩ := Option.isSome_iff_exists.mp planned
        simp [word, idle, hnext, waits]
    · intro done
      have ready := ready_of_done done
      have word := condition_of_ready ready
      have idle : job.running ≠ true := by
        intro running
        rw [word, if_pos running] at done
        exact absurd done (by decide)
      have hnext : job.nextFire = none := by
        cases hnext : job.nextFire with
        | none => rfl
        | some next =>
          cases hqueued : job.queued <;> simp [word, idle, hnext, hqueued] at done
      refine ⟨hnext, ?_⟩
      by_contra waits
      have planned := backed ready (by simpa using waits)
      rw [if_neg idle, hnext] at planned
      cases planned

/-! ## What each event must leave alone -/

section

variable [CronCrate]

/-- Planning finds a fire of the job after `now`. -/
def Job.firesAgain (job : Job) (now : Int) : Bool :=
  job.schedule.any fun schedule =>
    let base := job.state.lastFire.getD (if schedule.schedule.isRecurring then now else 0)
    (schedule.schedule.nextAfter base).any fun next =>
      now < next || (schedule.schedule.nextAfter now).isSome

theorem plan_firesAgain {job : Job} (ready : job.isReady = true) (now : Int) :
    (plan job now false).1.nextFire.isSome = job.firesAgain now := by
  rw [plan_nextFire, if_pos ready, Option.isSome_bind]
  unfold Job.firesAgain JobSchedule.planned
  congr 1
  funext schedule
  rw [Option.isSome_bind]
  congr 1
  funext next
  split
  · simp [*]
  · simp [*]

/-- A job that takes over a waiting fire from a read stands beside a run or another fire. -/
def TakesOverBacked (host : Host) (daemon : Daemon) (watched : Watched) : Prop :=
  ∀ job ∈ jobsOf host.load watched daemon.states, job.isReady = true →
    (carry daemon.jobs job).queued = true → (carry daemon.jobs job).Backed daemon.inFlight
      ((carry daemon.jobs job).nextFire.isSome = true ∨ job.firesAgain host.now = true)

/-- A fire that has to wait, or that finds one waiting, is not the last of its schedule, or a run
of its job goes on. -/
def WaitsBacked (host : Host) (daemon : Daemon) (index : Nat) : Prop :=
  ∀ job, daemon.jobs[index]? = some job → ((daemon.actionFor job).on job).queued = true →
    job.Backed daemon.inFlight
      ((job.movedOn (job.nextFire.getD host.now)).firesAgain host.now = true)

/-- The fire of a job whose hold ends does not wait, or is not the last of its schedule. -/
def ReleasesBacked (host : Host) (daemon : Daemon) (id : Text) : Prop :=
  ∀ index job, daemon.position id = some index → daemon.jobs[index]? = some job →
    job.queued = true → (job.held false).isReady = true →
      job.Backed daemon.inFlight ((job.held false).firesAgain host.now = true)

/-- The fire of the job whose run ends does not wait, is not the last of its schedule, or starts
now: the daemon goes on and has room for it and for those that wait in front of it. -/
def EndsBacked (daemon : Daemon) (id : Text) : Prop :=
  ∀ index job, daemon.position id = some index → daemon.jobs[index]? = some job →
    job.isReady = true → job.queued = true → job.nextFire.isSome = true ∨
      daemon.stopping = false ∧
        (daemon.jobs.take index).countP mayStart < daemon.limit - (daemon.running - 1)

/-- No event leaves the last fire of a schedule waiting beside no run. -/
def BacksWaiting (daemon : Daemon) : Input → Prop
  | .pass host =>
    Along (reload host) (TakesOverBacked host) daemon (daemon.changed host) ∧
      ((daemon.rescan host).stopping = false →
        Along (fire host) (WaitsBacked host) (daemon.rescan host) ((daemon.rescan host).due host.now))
  | .command host (.add manifest workingDirectory) =>
    let watched : Watched := ⟨manifest, workingDirectory⟩
    ∀ names, admitJobs (jobsOf host.load watched daemon.states) (daemon.othersIds watched) =
      .ok names → host.registryWrite = .ok () → TakesOverBacked host daemon watched
  | .command host .reload =>
    Along (reload host) (TakesOverBacked host) daemon.reloadRegistry
      daemon.reloadRegistry.registry.manifests
  | .command host (.resume id) => ReleasesBacked host daemon id
  | .finished _ index _ =>
    ∀ thread, daemon.threads[index]? = some thread → thread.loaded.isSome = true →
      OthersGoOn daemon index thread.run.id ∧ EndsBacked daemon thread.run.id
  | _ => True

end

/-! ## What each operation leaves waiting -/

/-- Every ready job with a waiting fire, other than those `spared`, is backed. -/
def Backed (spared : Nat → Prop) (daemon : Daemon) : Prop :=
  ∀ index job, daemon.jobs[index]? = some job → ¬ spared index → job.isReady = true →
    job.queued = true → job.Backed daemon.inFlight (job.nextFire.isSome = true)

theorem reportsWaiting_iff_backed {daemon : Daemon} :
    ReportsWaiting daemon ↔ Backed (fun _ => False) daemon := by
  unfold ReportsWaiting Backed
  simp only [reportsWaiting_iff, not_false_eq_true, true_imp_iff]
  constructor
  · exact fun all index job found => all job (List.mem_of_getElem? found)
  · intro all job mem
    obtain ⟨index, found⟩ := List.mem_iff_getElem?.mp mem
    exact all index job found

section

variable {daemon after : Daemon} {host : Host} {spared : Nat → Prop} {job : Job} {index : Nat}

theorem Job.Backed.mono {runs more : List Text} {planned planned' : Prop}
    (backed : job.Backed runs planned) (grows : job.id ∈ runs → job.id ∈ more)
    (weaker : planned → planned') : job.Backed more planned' := by
  unfold Job.Backed at *
  by_cases running : job.running = true
  · rw [if_pos running] at *
    exact grows backed
  · rw [if_neg running] at *
    exact weaker backed

/-- One job took the place of another, and no run ended. -/
theorem Backed.set {other : Job} (backed : Backed spared daemon)
    (found : daemon.jobs[index]? = some job) (jobs : after.jobs = daemon.jobs.set index other)
    (grows : ∀ id ∈ daemon.inFlight, id ∈ after.inFlight)
    (own : other.isReady = true → other.queued = true →
      other.Backed after.inFlight (other.nextFire.isSome = true)) : Backed spared after := by
  intro place held here apart ready waits
  rw [jobs] at here
  rcases getElem?_set_cases found here with ⟨rfl, rfl⟩ | ⟨-, here⟩
  · exact own ready waits
  · exact (backed place held here apart ready waits).mono (grows _) id

theorem Backed.of_jobs (backed : Backed (fun _ => False) daemon)
    (flight : after.inFlight = daemon.inFlight) (jobs : ∀ job ∈ after.jobs, job ∈ daemon.jobs) :
    Backed (fun _ => False) after := by
  rw [← reportsWaiting_iff_backed] at *
  intro job mem
  rw [flight]
  exact backed job (jobs job mem)

theorem Backed.start (backed : Backed spared daemon) (found : daemon.jobs[index]? = some job)
    (fire : Int) : Backed spared (daemon.start index fire) := by
  have flight := inFlight_start found fire
  refine backed.set found (congrArg Daemon.jobs (start_of_found found fire)) ?_ fun _ waits => ?_
  · intro id hid
    rw [flight]
    exact List.mem_append_left _ hid
  · cases waits

/-- A job that does not wait stays so while others start. -/
theorem startWaiting_free {room : Nat} (now : Int) (found : daemon.jobs[index]? = some job)
    (free : job.queued = false) :
    ∃ job', (daemon.startWaiting now room).jobs[index]? = some job' ∧ job'.queued = false := by
  induction room generalizing daemon job with
  | zero => exact ⟨job, found, free⟩
  | succ room ih =>
    rw [startWaiting]
    split
    · exact ⟨job, found, free⟩
    · next position here =>
      obtain ⟨other, held, -⟩ := found_of_findIdx? here
      simp only [held, Option.bind_some]
      by_cases same : index = position
      · subst same
        have started := congrArg Daemon.jobs (start_of_found held (other.state.lastFire.getD now))
        have own := getElem?_set_of_found held { other with running := true, queued := false }
        exact ih ((congrArg (·[index]?) started).trans own) rfl
      · have kept : (daemon.start position (other.state.lastFire.getD now)).jobs[index]? =
            some job := by
          rw [start_of_found held, List.getElem?_set_ne (Ne.symm same), found]
        exact ih kept free

/-- A waiting fire starts if there is room for those in front of it and for it. -/
theorem startWaiting_starts {room : Nat} (now : Int) (found : daemon.jobs[index]? = some job)
    (waits : mayStart job = true) (enough : (daemon.jobs.take index).countP mayStart < room) :
    ∃ job', (daemon.startWaiting now room).jobs[index]? = some job' ∧ job'.queued = false := by
  induction room generalizing daemon with
  | zero => omega
  | succ room ih =>
    rw [startWaiting]
    cases here : daemon.jobs.findIdx? mayStart with
    | none =>
      have := List.findIdx?_eq_none_iff.mp here job (List.mem_of_getElem? found)
      rw [waits] at this
      cases this
    | some position =>
      obtain ⟨other, held, first⟩ := found_of_findIdx? here
      simp only [held, Option.bind_some]
      have started := start_of_found held (other.state.lastFire.getD now)
      by_cases same : index = position
      · subst same
        have own := getElem?_set_of_found held { other with running := true, queued := false }
        exact startWaiting_free now ((congrArg (·.jobs[index]?) started).trans own) rfl
      · have before : position < index := by
          obtain ⟨_, -, least⟩ := List.findIdx?_eq_some_iff_getElem.mp here
          by_contra later
          have lt : index < position := by omega
          obtain ⟨_, hget⟩ := List.getElem?_eq_some_iff.mp found
          exact absurd waits (by simpa [hget] using least index lt)
        have fewer : ((daemon.start position (other.state.lastFire.getD now)).jobs.take index).countP
            mayStart < room := by
          have inside : position < (daemon.jobs.take index).length := by
            rw [List.length_take]
            have := lt_of_found found
            omega
          have own : (daemon.jobs.take index)[position] = other := by
            rw [List.getElem_take]
            exact (List.getElem?_eq_some_iff.mp held).2
          have counts : 0 < (daemon.jobs.take index).countP mayStart :=
            List.countP_pos_iff.mpr ⟨other, own ▸ List.getElem_mem inside, first⟩
          rw [started, List.take_set, List.countP_set inside, own, first]
          simp only [mayStart, Bool.false_and, Bool.false_eq_true, if_false, if_true]
          omega
        refine ih ?_ fewer
        rw [started, List.getElem?_set_ne (Ne.symm same), found]

/-- What waits beside no run once the free places are taken is what waited so before. -/
theorem Backed.startWaiting (backed : Backed spared daemon) (room : Nat) (now : Int) :
    Backed spared (daemon.startWaiting now room) := by
  induction room generalizing daemon with
  | zero => exact backed
  | succ room ih =>
    rw [Daemon.startWaiting]
    split
    · exact backed
    · next position here =>
      obtain ⟨other, held, -⟩ := found_of_findIdx? here
      exact ih (backed.start held _)

theorem Backed.all (backed : Backed spared daemon)
    (own : ∀ index job, spared index → daemon.jobs[index]? = some job → job.isReady = true →
      job.queued = true → job.Backed daemon.inFlight (job.nextFire.isSome = true)) :
    Backed (fun _ => False) daemon := by
  intro place held here _ ready waits
  by_cases apart : spared place
  · exact own place held apart here ready waits
  · exact backed place held here apart ready waits

/-- A job that no end is told to keeps its run, or has another fire planned. -/
theorem settle_backed {thread : RunThread} (backed : Backed (fun _ => False) daemon)
    (found : daemon.threads[index]? = some thread) (others : OthersGoOn daemon index thread.run.id)
    (host : Host) (outcome : RunOutcome) :
    Backed (daemon.position thread.run.id = some ·)
      (daemon.settle host index thread.run.id outcome) := by
  have flight : daemon.inFlight[index]? = some thread.run.id := by simp [inFlight, found]
  intro place held here apart ready waits
  have kept : daemon.jobs[place]? = some held := by
    cases told : daemon.position thread.run.id with
    | none => rwa [settle_of_none told] at here
    | some own =>
      obtain ⟨job, old, -⟩ := found_of_position told
      rw [settle_of_found told old] at here
      rcases getElem?_set_cases old here with ⟨rfl, -⟩ | ⟨-, here⟩
      · exact absurd told apart
      · exact here
  have own := backed place held kept not_false ready waits
  rw [inFlight_settle, inFlight, List.eraseIdx_map]
  unfold Job.Backed at *
  by_cases running : held.running = true
  · rw [if_pos running]
    exact others place held kept apart ready waits running
  · rwa [if_neg running] at *

/-- The end of a run spares the job that is told, if that job is free or starts now. -/
theorem finished_backed {thread : RunThread} (backed : Backed (fun _ => False) daemon)
    (found : daemon.threads[index]? = some thread) (others : OthersGoOn daemon index thread.run.id)
    (ends : EndsBacked daemon thread.run.id) (host : Host) (outcome : RunOutcome) :
    Backed (fun _ => False) (daemon.finished host index thread.run.id outcome) := by
  have apart := settle_backed backed found others host outcome
  unfold finished
  cases told : daemon.position thread.run.id with
  | none =>
    have settled := apart.all fun place job here => by simp [told] at here
    unfold startQueued
    split
    · exact settled
    · exact settled.startWaiting _ _
  | some place =>
    obtain ⟨job, held, -⟩ := found_of_position told
    have only : ∀ other, daemon.position thread.run.id = some other → other = place :=
      fun other here => Option.some.inj (here.symm.trans told)
    have settled_eq := settle_of_found told held host index outcome
    have jobs := congrArg Daemon.jobs settled_eq
    have going := congrArg Daemon.stopping settled_eq
    have room : (daemon.settle host index thread.run.id outcome).limit -
        (daemon.settle host index thread.run.id outcome).running =
          daemon.limit - (daemon.running - 1) := by
      rw [settled_eq]
    dsimp only at jobs going
    generalize daemon.settle host index thread.run.id outcome = settled at *
    have own : settled.jobs[place]? = some (job.ended outcome) := by
      rw [jobs]
      exact getElem?_set_of_found held _
    -- All that is left is the job that is told.
    have whole : (job.isReady = true → job.queued = true → job.nextFire.isSome = true) →
        Backed (fun _ => False) settled := by
      intro free
      refine apart.all fun other otherJob here found ready waits => ?_
      obtain rfl := only other here
      obtain rfl := Option.some.inj (own.symm.trans found)
      exact free ready waits
    unfold startQueued
    rw [going, room]
    cases hstop : daemon.stopping with
    | true =>
      refine whole fun ready waits => ?_
      rcases ends place job told held ready waits with planned | ⟨off, -⟩
      · exact planned
      · rw [hstop] at off
        cases off
    | false =>
      rw [if_neg Bool.false_ne_true]
      by_cases free : job.isReady = true → job.queued = true → job.nextFire.isSome = true
      · exact (whole free).startWaiting _ _
      · simp only [Classical.not_imp] at free
        obtain ⟨ready, waits, last⟩ := free
        obtain ⟨-, enough⟩ := (ends place job told held ready waits).resolve_left last
        have may : mayStart (job.ended outcome) = true := by
          have ready' : (job.ended outcome).isReady = true := ready
          have waits' : (job.ended outcome).queued = true := waits
          rw [mayStart, waits', ready']
          rfl
        have starts : (settled.jobs.take place).countP mayStart <
            daemon.limit - (daemon.running - 1) := by
          rw [jobs, List.take_set_of_le (Nat.le_refl place)]
          exact enough
        obtain ⟨after, hafter, taken⟩ := startWaiting_starts host.now own may starts
        refine (apart.startWaiting _ _).all fun other otherJob here found _ waits' => ?_
        obtain rfl := only other here
        obtain rfl := Option.some.inj (hafter.symm.trans found)
        rw [taken] at waits'
        cases waits'

/-- A fire that leaves its job waiting changes nothing else of the job that moved on. -/
theorem Action.on_waiting {action : Action} {fire : Int}
    (waits : (action.on (job.movedOn fire)).queued = true) :
    (action.on job).queued = true ∧
      action.on (job.movedOn fire) = { job.movedOn fire with queued := true } := by
  cases action with
  | start => cases waits
  | queue reason => exact ⟨rfl, rfl⟩
  | skip =>
    have own : job.queued = true := waits
    refine ⟨own, ?_⟩
    rw [on, Job.movedOn, ← own]

variable [CronCrate]

theorem Backed.reload {watched : Watched} (backed : Backed (fun _ => False) daemon)
    (takes : TakesOverBacked host daemon watched) :
    Backed (fun _ => False) (reload host daemon watched) := by
  rw [← reportsWaiting_iff_backed] at *
  intro job hjob
  change job ∈ daemon.jobs.filter (·.manifest ≠ watched.path) ++ _ at hjob
  rcases List.mem_append.mp hjob with hjob | hjob
  · exact backed job (List.mem_of_mem_filter hjob)
  · obtain ⟨_, hplanned, rfl⟩ := List.mem_map.mp hjob
    obtain ⟨fresh, hfresh, rfl⟩ := List.mem_map.mp hplanned
    rw [reportsWaiting_iff]
    intro ready waits
    have carried := carry_eq daemon.jobs fresh
    have hready : fresh.isReady = true := by
      rw [planFresh_eq, carried] at ready
      exact ready
    have hwaits : (carry daemon.jobs fresh).queued = true := by
      rw [planFresh_eq] at waits
      exact waits
    have own := takes fresh hfresh hready hwaits
    have again : (carry daemon.jobs fresh).firesAgain host.now = fresh.firesAgain host.now := by
      rw [carried]
      rfl
    have ready' : (carry daemon.jobs fresh).isReady = true := by
      rw [carried]
      exact hready
    have running : (planFresh (carry daemon.jobs fresh) host.now).1.running =
        (carry daemon.jobs fresh).running := by rw [planFresh_eq]
    unfold Job.Backed at *
    rw [running, planFresh_id, carry_id]
    rw [carry_id, ← again, ← plan_firesAgain ready'] at own
    by_cases going : (carry daemon.jobs fresh).running = true
    · rw [if_pos going] at *
      exact own
    · rw [if_neg going] at *
      unfold planFresh
      split
      · rename_i none
        rw [Option.isNone_iff_eq_none.mp none] at own
        simpa using own
      · rename_i some
        simpa [Option.isSome_iff_ne_none] using some

theorem Backed.fire (backed : Backed (fun _ => False) daemon)
    (found : daemon.jobs[index]? = some job) (ready : job.isReady = true)
    (waits : WaitsBacked host daemon index) :
    Backed (fun _ => False) (Daemon.fire host daemon index) := by
  have fires := fire_of_found found host
  refine backed.set found (congrArg Daemon.jobs fires) ?_ ?_
  · intro id hid
    rcases inFlight_fire found host with ⟨-, same⟩ | ⟨-, same⟩
    · rwa [same]
    · rw [same]
      exact List.mem_append_left _ hid
  · intro _ hwaits
    rw [plan_eq] at hwaits
    obtain ⟨own, moved⟩ := Action.on_waiting hwaits
    have flight : (Daemon.fire host daemon index).inFlight = daemon.inFlight := by
      rcases inFlight_fire found host with ⟨-, same⟩ | ⟨starts, -⟩
      · exact same
      · rw [starts] at own
        cases own
    have backs := waits job found own
    rw [moved, flight]
    have hready : Job.isReady { job.movedOn (job.nextFire.getD host.now) with queued := true } =
        true := ready
    rw [plan_eq, plan_firesAgain hready]
    exact backs

theorem Backed.hold {id : Text} (backed : Backed (fun _ => False) daemon)
    (here : daemon.position id = some index) (paused : Bool)
    (releases : paused = false → ReleasesBacked host daemon id) :
    Backed (fun _ => False)
      (((daemon.holdJob index paused).saveState host index).planJob index host.now false) := by
  obtain ⟨job, found, -⟩ := found_of_position here
  refine backed.set found (congrArg Daemon.jobs (hold_of_found found host paused)) ?_ ?_
  · rw [hold_of_found found]
    exact fun _ hid => hid
  · intro ready waits
    rw [hold_of_found found]
    rw [plan_eq] at ready waits
    have hready : (job.held paused).isReady = true := ready
    cases paused with
    | true => simp [Job.isReady, Job.held] at hready
    | false =>
      have own := releases rfl index job here found waits hready
      rw [← plan_firesAgain hready] at own
      rw [plan_eq]
      exact own

/-! ## Every history -/

theorem fireAll_backed {due : List Nat} (apart : due.Nodup)
    (backed : Backed (fun _ => False) daemon)
    (ready : ∀ index ∈ due, ∃ job, daemon.jobs[index]? = some job ∧ isDue host.now job = true)
    (waits : Along (fire host) (WaitsBacked host) daemon due) :
    Backed (fun _ => False) (runAll (fire host) daemon due) := by
  induction due generalizing daemon with
  | nil => exact backed
  | cons index rest ih =>
    obtain ⟨job, found, due⟩ := ready index (by simp)
    rw [List.nodup_cons] at apart
    have isReady : job.isReady = true := (Bool.and_eq_true_iff.mp due).1
    refine ih apart.2 (backed.fire found isReady waits.1) (fun other hother => ?_) waits.2
    obtain ⟨job', found', due'⟩ := ready other (by simp [hother])
    have ne : index ≠ other := fun h => apart.1 (h ▸ hother)
    refine ⟨job', ?_, due'⟩
    rw [fire_of_found found, List.getElem?_set_ne ne, found']

theorem Backed.reloads (watched : List Watched) (backed : Backed (fun _ => False) daemon)
    (takes : Along (Daemon.reload host) (TakesOverBacked host) daemon watched) :
    Backed (fun _ => False) (runAll (Daemon.reload host) daemon watched) :=
  runAll_invariant (fun _ _ backed takes => Backed.reload backed takes) backed takes

theorem hold_backed (backed : Backed (fun _ => False) daemon) (id : Text) (paused : Bool)
    (releases : paused = false → ReleasesBacked host daemon id) :
    Backed (fun _ => False) (daemon.hold host id paused).2 := by
  unfold hold
  cases here : daemon.position id with
  | none => exact backed
  | some index => exact backed.hold here paused releases

theorem command_backed {request : Request} (backed : Backed (fun _ => False) daemon)
    (backs : BacksWaiting daemon (.command host request)) :
    Backed (fun _ => False) (daemon.command host request).2 := by
  cases request with
  | status => exact backed
  | add manifest workingDirectory =>
    let watched : Watched := ⟨manifest, workingDirectory⟩
    change Backed _ (daemon.add host watched).2
    rcases @add_leaves daemon host _ watched with same | same | ⟨⟨names, admitted⟩, writes, same⟩
    · rwa [same]
    · rw [same]
      exact backed
    · rw [same]
      have listed : Backed (fun _ => False) { daemon with
          registry := (daemon.registry.add watched).2
          files := { daemon.files with registry := .ok (daemon.registry.add watched).2 } } :=
        backed
      exact listed.reload (backs names admitted writes)
  | remove manifest =>
    change Backed _ (daemon.remove host manifest).2
    rcases @remove_leaves daemon host manifest with same | same | same
    · rwa [same]
    · rw [same]
      exact backed
    · rw [same]
      exact backed.of_jobs rfl fun job hjob => List.mem_of_mem_filter hjob
  | pause job => exact hold_backed backed job true fun h => by cases h
  | resume job => exact hold_backed backed job false fun _ => backs
  | trigger id =>
    change Backed _ (daemon.trigger host id).2
    rcases trigger_cases daemon host id with ⟨error, same, -⟩ | ⟨_, _, -, found, -, -, -, starts⟩
    · rw [same]
      exact backed
    · rw [starts]
      exact backed.start found host.now
  | reload =>
    refine Backed.reloads _ ?_ backs
    exact backed.of_jobs rfl fun job hjob => List.mem_of_mem_filter hjob
  | stop => exact backed

theorem take_backed {input : Input} (backed : Backed (fun _ => False) daemon)
    (backs : BacksWaiting daemon input) : Backed (fun _ => False) (daemon.take input) := by
  cases input with
  | pass host =>
    have read : Backed (fun _ => False) (daemon.rescan host) := Backed.reloads _ backed backs.1
    change Backed _ ((daemon.rescan host).fireDue host)
    unfold fireDue
    split
    · exact read
    · rename_i going
      exact fireAll_backed (List.Nodup.filter _ List.nodup_range) read (fun index h => mem_due h)
        (backs.2 (by simpa using going))
  | timeout => exact backed
  | command host request => exact command_backed backed backs
  | finished host index outcome =>
    change Backed _ (daemon.handleFinished host index outcome)
    rcases handleFinished_cases daemon host index outcome with
      ⟨-, same⟩ | ⟨thread, found, loaded, ends⟩
    · rwa [same]
    · rw [ends]
      obtain ⟨others, told⟩ := backs thread found loaded
      exact finished_backed backed found others told host _
  | signal =>
    unfold take signal
    dsimp only
    split
    · exact backed
    · exact backed
  | loads thread content =>
    exact backed.of_jobs (inFlight_load thread content) fun job hjob => hjob
  | edited registry => exact backed

/-- In every history whose events leave no last fire of a schedule waiting beside no run, the
words that report the jobs are right about their waiting fires. -/
theorem reports_waiting {root : Path} {limit : Nat} {files : Files} {inputs : List Input}
    (opened : openDaemon host root limit files = some daemon)
    (backs : Along step (fun daemon input => daemon.takes input = true →
      BacksWaiting daemon input) daemon inputs) :
    ReportsWaiting (runAll step daemon inputs) := by
  have start : Backed (fun _ => False) daemon := by
    rw [← reportsWaiting_iff_backed]
    intro job hjob
    obtain ⟨registry, states, -, -, -, hjobs⟩ := openDaemon_built opened
    rw [hjobs] at hjob
    obtain ⟨built, hbuilt, rfl⟩ := List.mem_map.mp hjob
    obtain ⟨watched, -, hjob⟩ := List.mem_flatMap.mp hbuilt
    rw [reportsWaiting_iff]
    intro _ waits
    rw [plan_eq] at waits
    rw [show built.queued = false from (jobsOf_idle hjob).2] at waits
    cases waits
  rw [reportsWaiting_iff_backed]
  refine runAll_invariant (fun before input backed backs => ?_) start backs
  unfold step
  split
  · rename_i taken
    exact take_backed backed (backs taken)
  · exact backed

end

/-! ## The last fire of a schedule waits for a place -/

instance (job : Job) (runs : List Text) (planned : Prop) [Decidable planned] :
    Decidable (job.Backed runs planned) :=
  inferInstanceAs (Decidable (if job.running = true then job.id ∈ runs else planned))

instance (job : Job) (runs : List Text) : Decidable (job.ReportsWaiting runs) :=
  decidable_of_iff _ (reportsWaiting_iff job runs).symm

instance (daemon : Daemon) : Decidable (ReportsWaiting daemon) :=
  inferInstanceAs (Decidable (∀ job ∈ daemon.jobs, job.ReportsWaiting daemon.inFlight))

/-- Two schedules that fire once, with room for one run. -/
def oneAtATime : Daemon :=
  (@openDaemon .unused early ["root"] 1 ⟨.ok twoNightly, ⟨[]⟩⟩).get (by decide +kernel)

theorem oneAtATime_opened :
    @openDaemon .unused early ["root"] 1 ⟨.ok twoNightly, ⟨[]⟩⟩ = some oneAtATime :=
  (Option.some_get _).symm

/-- Both fall due in one pass. -/
theorem waiting_reported_done :
    @openDaemon .unused early ["root"] 1 ⟨.ok twoNightly, ⟨[]⟩⟩ = some oneAtATime ∧
      ¬ ReportsWaiting (@runAll _ _ (@step .unused) oneAtATime
        [.pass (hostAt 100 0 (oneNamed "early".toList))]) :=
  ⟨oneAtATime_opened, by decide +kernel⟩

/-- The fire of a job may wait for the run of it that goes on. -/
theorem waiting_reported_running :
    ReportsWaiting (@runAll _ _ (@step .unused) tightDaemon (dueWhileRunning.take 3)) := by
  let _ : CronCrate := .unused
  have early : tightDaemon.changed (lateHost 0 0) = [] := by decide +kernel
  have idle : (tightDaemon.rescan (lateHost 0 0)).due 0 = [] := by decide +kernel
  have later : (runAll step tightDaemon (dueWhileRunning.take 2)).changed (lateHost 60000000000 0) =
      [] := by decide +kernel
  have due : fullDaemon.due 60000000000 = [0] := by decide +kernel
  refine reports_waiting tightDaemon_opened ⟨fun _ => ⟨?_, fun _ => ?_⟩, fun _ => trivial,
    fun _ => ⟨?_, fun _ => ?_⟩, trivial⟩
  · rw [early]
    trivial
  · change Along _ _ _ ((tightDaemon.rescan (lateHost 0 0)).due 0)
    rw [idle]
    trivial
  · change Along _ _ (runAll step tightDaemon (dueWhileRunning.take 2))
      ((runAll step tightDaemon (dueWhileRunning.take 2)).changed (lateHost 60000000000 0))
    rw [later]
    trivial
  · change Along _ _ fullDaemon (fullDaemon.due 60000000000)
    rw [due]
    refine ⟨?_, trivial⟩
    intro job found _
    have runs : (fullDaemon.jobs[0]?.all fun job =>
        job.running && decide (job.id ∈ fullDaemon.inFlight)) = true := by decide +kernel
    rw [show fullDaemon.jobs[0]? = some job from found] at runs
    simp only [Option.all_some, Bool.and_eq_true, decide_eq_true_eq] at runs
    unfold Job.Backed
    rw [if_pos runs.1]
    exact runs.2

end Beez.Daemon
