import Beez.Daemon.Sandboxed

/-! # One fire for one instant -/

open Beez.Core Beez.Lib

namespace Beez.Daemon

/-! ## Fires and the instants they answer -/

/-- A fire, with the job as it was before. -/
structure Fire where
  job : Job
  time : Int

def Happening.fire? : Happening → Option Fire
  | .fired job time _ => some ⟨job, time⟩
  | _ => none

/-- The fires that the daemon took, the first one first. -/
def fires (trace : List Happening) : List Fire := trace.filterMap Happening.fire?

theorem fires_append (before after : List Happening) :
    fires (before ++ after) = fires before ++ fires after :=
  List.filterMap_append

theorem fires_planLines (planned : List (Job × Option Plan)) : fires (planLines planned) = [] := by
  refine List.filterMap_eq_nil_iff.mpr fun happening h => ?_
  obtain ⟨job, found, rfl⟩ := mem_planLines h
  rfl

theorem fires_lines (action : Action) (job : Job) (run : JobRun) (inFlight : List Text) :
    fires (action.lines job run inFlight) = [] := by
  cases action <;> rfl

section

variable [CronCrate]

/-- A fire of `job` at `time` is for the scheduled `instant`: one that came after the last fire,
and not after this one. -/
def Job.Answers (job : Job) (time instant : Int) : Prop :=
  ∃ schedule, job.schedule = some schedule ∧ schedule.schedule.Hits instant ∧
    (∀ last, job.state.lastFire = some last → last < instant) ∧ instant ≤ time

/-- Two fires that are not for the same instant of one job. -/
def Fire.Apart (fire other : Fire) : Prop :=
  fire.job.id = other.job.id → ∀ instant, fire.job.Answers fire.time instant →
    ¬ other.job.Answers other.time instant

/-- The schedule of the job is the one instant. -/
def Job.IsOnce (job : Job) (instant : Int) : Prop :=
  ∃ schedule, job.schedule = some schedule ∧ schedule.schedule = .once instant

/-- Every fire is for an instant of its schedule, no instant of a job leads to two fires, and so
a job that runs once fires at most once. -/
structure OneFireEach (fires : List Fire) : Prop where
  timely : ∀ fire ∈ fires, ∃ instant, fire.job.Answers fire.time instant
  apart : fires.Pairwise Fire.Apart
  once : fires.Pairwise fun fire other => fire.job.id = other.job.id →
    ∀ instant, fire.job.IsOnce instant → ¬ other.job.IsOnce instant

theorem Job.IsOnce.answers {job : Job} {instant time : Int} (h : job.IsOnce instant)
    (timely : ∃ instant, job.Answers time instant) : job.Answers time instant := by
  obtain ⟨schedule, hschedule, honce⟩ := h
  obtain ⟨other, schedule', hschedule', hits, rest⟩ := timely
  rw [hschedule, Option.some.injEq] at hschedule'
  subst hschedule'
  have := Schedule.Hits.of_once (honce ▸ hits)
  subst this
  exact ⟨schedule, hschedule, hits, rest⟩

theorem OneFireEach.of_apart {fires : List Fire}
    (timely : ∀ fire ∈ fires, ∃ instant, fire.job.Answers fire.time instant)
    (apart : fires.Pairwise Fire.Apart) : OneFireEach fires := by
  refine ⟨timely, apart, apart.imp_of_mem ?_⟩
  intro fire other hfire hother apart same instant once again
  exact apart same instant (once.answers (timely fire hfire)) (again.answers (timely other hother))

end

/-! ## What is known of the fires so far -/

/-- The state of a job knows of every fire, up to the second. -/
def Recorded (states : States) (fires : List Fire) : Prop :=
  ∀ fire ∈ fires, ∃ last, (states.get fire.job.id).lastFire = some last ∧ second fire.time ≤ last

/-- The one-time job with `id` fired at `instant`, and its state lost the fraction of it. -/
def Lost (states : States) (fires : List Fire) (id : Text) (instant : Int) : Prop :=
  (∃ fire ∈ fires, fire.job.id = id ∧ fire.job.IsOnce instant) ∧
    ∃ last, (states.get id).lastFire = some last ∧ last < instant

theorem no_whole_between {time last instant : Int} (recorded : second time ≤ last)
    (later : last < instant) (passed : instant ≤ time) (whole : instant % 1000000000 = 0) :
    False := by
  unfold second nanosPerSecond at recorded
  omega

/-- The state of the job still knows the instant of a one-time fire to the nanosecond. -/
def Fire.isKept (states : States) (fire : Fire) : Bool :=
  match fire.job.schedule.map JobSchedule.schedule, (states.get fire.job.id).lastFire with
  | some (.once instant), some last => instant ≤ last
  | _, _ => true

theorem not_lost {states : States} {fires : List Fire}
    (kept : fires.all (·.isKept states) = true) (id : Text) (instant : Int) :
    ¬ Lost states fires id instant := by
  rintro ⟨⟨fire, hfire, rfl, schedule, hschedule, once⟩, last, hlast, later⟩
  have := List.all_eq_true.mp kept fire hfire
  simp only [Fire.isKept, hschedule, Option.map_some, once, hlast, decide_eq_true_eq] at this
  omega

section

variable [CronCrate] {states : States} {past : List Fire} {job : Job} {now : Int}
  {allowCatchUp : Bool}

/-- The fire that is planned for the job is for an instant that no fire was for. -/
def Fresh (fires : List Fire) (job : Job) : Prop :=
  ∀ next, job.nextFire = some next → (∃ instant, job.Answers next instant) ∧
    ∀ fire ∈ fires, fire.Apart ⟨job, next⟩

theorem plan_next {next : Int} (h : (plan job now allowCatchUp).1.nextFire = some next) :
    ∃ schedule base first, job.schedule = some schedule ∧
      base = job.state.lastFire.getD (if schedule.schedule.isRecurring then now else 0) ∧
      schedule.schedule.nextAfter base = some first ∧
      (now < first ∧ next = first ∨
        first ≤ now ∧ allowCatchUp = true ∧ schedule.catchUp = true ∧ next = now ∨
        first ≤ now ∧ schedule.schedule.nextAfter now = some next) := by
  unfold plan at h
  dsimp only at h
  split at h
  · cases h
  · cases hschedule : job.schedule with
    | none => simp [hschedule] at h
    | some schedule =>
      simp only [hschedule] at h
      split at h
      · cases h
      · rename_i first hfirst
        refine ⟨schedule, _, first, rfl, rfl, hfirst, ?_⟩
        split at h
        · rename_i later
          exact .inl ⟨later, (Option.some.inj h).symm⟩
        · rename_i passed
          split at h
          · rename_i late
            simp only [Bool.and_eq_true] at late
            exact .inr (.inl ⟨by omega, late.1, late.2, (Option.some.inj h).symm⟩)
          · exact .inr (.inr ⟨by omega, h⟩)

/-- An instant that a fire was for, and that comes after the last fire that is recorded, is the
one instant of a one-time schedule. -/
theorem once_of_hits [CronCrate.Lawful ‹CronCrate›] {schedule : Schedule} {time last instant : Int}
    (hits : schedule.Hits instant) (recorded : second time ≤ last) (later : last < instant)
    (passed : instant ≤ time) : schedule = .once instant := by
  cases schedule with
  | cron cron => exact (no_whole_between recorded later passed hits.whole).elim
  | once at' => rw [hits.of_once]

theorem plan_answers [CronCrate.Lawful ‹CronCrate›] {next : Int}
    (h : (plan job now allowCatchUp).1.nextFire = some next) :
    ∃ instant, (plan job now allowCatchUp).1.Answers next instant := by
  obtain ⟨schedule, base, first, hschedule, hbase, hfirst, hcase⟩ := plan_next h
  have later : base < first := Schedule.lt_of_nextAfter hfirst
  have hlast : ∀ last, job.state.lastFire = some last → base = last := by
    intro last hlast
    rw [hbase, hlast]
    rfl
  rw [plan_eq]
  rcases hcase with ⟨_, rfl⟩ | ⟨passed, _, _, rfl⟩ | ⟨passed, hnext⟩
  · exact ⟨_, schedule, hschedule, ⟨base, hfirst⟩, fun last h => hlast last h ▸ later, le_refl _⟩
  · exact ⟨first, schedule, hschedule, ⟨base, hfirst⟩, fun last h => hlast last h ▸ later, passed⟩
  · have := Schedule.lt_of_nextAfter hnext
    refine ⟨next, schedule, hschedule, ⟨now, hnext⟩, fun last h => ?_, le_refl _⟩
    have := hlast last h
    omega

/-- A plan is for an instant that no fire was for, when no lost instant can come again. -/
theorem plan_fresh [CronCrate.Lawful ‹CronCrate›] (synced : states.get job.id = job.state)
    (recorded : Recorded states past)
    (behind : ∀ instant, Lost states past job.id instant → instant ≤ now)
    (spared : allowCatchUp = true → ∀ instant schedule, Lost states past job.id instant →
      job.schedule = some schedule → schedule.schedule = .once instant → schedule.catchUp = false) :
    Fresh past (plan job now allowCatchUp).1 := by
  intro next hnext
  refine ⟨plan_answers hnext, fun fire hfire same instant before again => ?_⟩
  obtain ⟨schedule, base, first, hschedule, hbase, hfirst, hcase⟩ := plan_next hnext
  rw [plan_eq] at same again
  obtain ⟨last, hrecorded, hsecond⟩ := recorded fire hfire
  have same : fire.job.id = job.id := same
  rw [same, synced] at hrecorded
  obtain ⟨schedule', hschedule', hits, after, -⟩ := again
  obtain rfl : schedule = schedule' := Option.some.inj (hschedule.symm.trans hschedule')
  obtain ⟨earlier, hearlier, hits', -, passed⟩ := before
  have later' := after last hrecorded
  have once := once_of_hits hits hsecond later' passed
  have lost : Lost states past job.id instant :=
    ⟨⟨fire, hfire, same, earlier, hearlier, once_of_hits hits' hsecond later' passed⟩,
      last, synced ▸ hrecorded, later'⟩
  have hnow := behind instant lost
  rw [once, hbase, hrecorded, Option.getD_some, Schedule.nextAfter, if_pos later'] at hfirst
  obtain rfl := Option.some.inj hfirst
  rcases hcase with ⟨ahead, _⟩ | ⟨_, late, catchUp, _⟩ | ⟨_, hnext⟩
  · omega
  · rw [spared late instant schedule lost hschedule once] at catchUp
    cases catchUp
  · rw [once, Schedule.nextAfter, if_neg (by omega)] at hnext
    cases hnext

end

/-! ## What holds of the jobs, their states and the fires -/

section

variable {states states' : States} {past : List Fire} {job other : Job} {now : Int}

/-- The clock is not behind an instant that was lost. -/
def Behind (states : States) (past : List Fire) (now : Int) : Prop :=
  ∀ id instant, Lost states past id instant → instant ≤ now

/-- Two states of the jobs that know of the same last fires. -/
def SameFires (states other : States) : Prop :=
  ∀ id, (other.get id).lastFire = (states.get id).lastFire

theorem Recorded.congr (recorded : Recorded states past) (same : SameFires states states') :
    Recorded states' past := by
  intro fire hfire
  rw [same]
  exact recorded fire hfire

theorem Behind.congr (behind : Behind states past now) (same : SameFires states states') :
    Behind states' past now := by
  intro id instant lost
  refine behind id instant ⟨lost.1, ?_⟩
  rw [← same]
  exact lost.2

theorem sameFires_set (held : states.get job.id = job.state)
    (same : other.state.lastFire = job.state.lastFire) :
    SameFires states (states.set job.id other.state) := by
  intro id
  rw [States.get_set]
  split
  · rename_i hid
    rw [hid, held, same]
  · rfl

theorem Recorded.reread (recorded : Recorded states past) (read : states.reread = some states') :
    Recorded states' past := by
  intro fire hfire
  obtain ⟨last, hlast, hsecond⟩ := recorded fire hfire
  have := JobState.reread_lastFire (States.get_reread read fire.job.id) hlast
  exact ⟨second last, this, second_le_second hsecond⟩

end

section

variable [CronCrate]

/-- The jobs are told apart, the saved states are theirs, and every fire so far and every fire
that is planned is for an instant of its own. -/
structure OnSchedule (held : List Job) (states : States) (past : List Fire) : Prop where
  distinct : (ids held).Nodup
  synced : ∀ job ∈ held, states.get job.id = job.state
  recorded : Recorded states past
  fresh : ∀ job ∈ held, Fresh past job
  timely : ∀ fire ∈ past, ∃ instant, fire.job.Answers fire.time instant
  apart : past.Pairwise Fire.Apart

variable {daemon after : Daemon} {host : Host} {job other : Job} {index : Nat}
  {states states' : States} {past : List Fire} {held : List Job} {now : Int}

theorem OnSchedule.replace (on : OnSchedule daemon.jobs states past)
    (found : daemon.jobs[index]? = some job) (same : other.id = job.id)
    (sameFire : other.state.lastFire = job.state.lastFire) (fresh : Fresh past other) :
    OnSchedule (daemon.jobs.set index other) (states.set job.id other.state) past := by
  have hjob := List.mem_of_getElem? found
  refine ⟨ids_set found same ▸ on.distinct, fun c hc => ?_,
    on.recorded.congr (sameFires_set (on.synced job hjob) sameFire), fun c hc => ?_,
    on.timely, on.apart⟩
  · rcases mem_set_of_found on.distinct found hc with rfl | ⟨hmem, hne⟩
    · rw [same, States.get_set_self]
    · rw [States.get_set_of_ne hne, on.synced c hmem]
  · rcases mem_set_of_found on.distinct found hc with rfl | ⟨hmem, -⟩
    · exact fresh
    · exact on.fresh c hmem

theorem OnSchedule.restyle (on : OnSchedule daemon.jobs states past)
    (found : daemon.jobs[index]? = some job) (same : other.id = job.id)
    (sameState : other.state = job.state) (fresh : Fresh past other) :
    OnSchedule (daemon.jobs.set index other) states past := by
  refine ⟨ids_set found same ▸ on.distinct, fun c hc => ?_, on.recorded, fun c hc => ?_,
    on.timely, on.apart⟩
  · rcases mem_set_of_found on.distinct found hc with rfl | ⟨hmem, -⟩
    · rw [same, sameState, on.synced job (List.mem_of_getElem? found)]
    · exact on.synced c hmem
  · rcases mem_set_of_found on.distinct found hc with rfl | ⟨hmem, -⟩
    · exact fresh
    · exact on.fresh c hmem

theorem Fresh.congr (fresh : Fresh past job) (sameId : other.id = job.id)
    (sameSchedule : other.schedule = job.schedule)
    (sameFire : other.state.lastFire = job.state.lastFire)
    (sameNext : other.nextFire = job.nextFire) : Fresh past other := by
  have answers : ∀ time instant, other.Answers time instant ↔ job.Answers time instant := by
    intro time instant
    unfold Job.Answers
    rw [sameSchedule, sameFire]
  intro next hnext
  obtain ⟨⟨instant, timely⟩, apart⟩ := fresh next (sameNext ▸ hnext)
  refine ⟨⟨instant, (answers next instant).mpr timely⟩, fun fire hfire same instant before again => ?_⟩
  exact apart fire hfire (same.trans sameId) instant before ((answers next instant).mp again)

/-! ## A fire -/

/-- The fire that is due moves the record on. -/
theorem Fresh.later {next last : Int} (fresh : Fresh past job) (due : job.nextFire = some next)
    (hlast : job.state.lastFire = some last) : last < next := by
  obtain ⟨⟨instant, schedule, -, -, after, le⟩, -⟩ := fresh next due
  have := after last hlast
  omega

theorem Recorded.fire {next : Int} (recorded : Recorded states past)
    (synced : states.get job.id = job.state) (fresh : Fresh past job)
    (due : job.nextFire = some next) :
    Recorded (states.set job.id (job.movedOn next).state) (past ++ [⟨job, next⟩]) := by
  intro fire hfire
  rcases List.mem_append.mp hfire with hold | hnew
  · by_cases same : fire.job.id = job.id
    · obtain ⟨last, hlast, hsecond⟩ := recorded fire hold
      rw [same, synced] at hlast
      have := fresh.later due hlast
      rw [same, States.get_set_self]
      exact ⟨next, rfl, by omega⟩
    · rw [States.get_set_of_ne same]
      exact recorded fire hold
  · obtain rfl := List.mem_singleton.mp hnew
    rw [States.get_set_self]
    exact ⟨next, rfl, second_le next⟩

theorem Behind.fire {next : Int} (behind : Behind states past now)
    (synced : states.get job.id = job.state) (recorded : Recorded states past)
    (fresh : Fresh past job) (due : job.nextFire = some next) :
    Behind (states.set job.id (job.movedOn next).state) (past ++ [⟨job, next⟩]) now := by
  rintro id instant ⟨⟨fire, hfire, hid, once⟩, last, hlast, later⟩
  by_cases same : id = job.id
  · rw [same, States.get_set_self] at hlast
    obtain rfl : next = last := Option.some.inj hlast
    rcases List.mem_append.mp hfire with hold | hnew
    · obtain ⟨before, hbefore, -⟩ := recorded fire hold
      refine behind id instant ⟨⟨fire, hold, hid, once⟩, before, hid ▸ hbefore, ?_⟩
      rw [hid, same, synced] at hbefore
      have := fresh.later due hbefore
      omega
    · obtain rfl := List.mem_singleton.mp hnew
      obtain ⟨-, -, -, -, le⟩ := once.answers (fresh next due).1
      omega
  · rw [States.get_set_of_ne same] at hlast
    rcases List.mem_append.mp hfire with hold | hnew
    · exact behind id instant ⟨⟨fire, hold, hid, once⟩, last, hlast, later⟩
    · obtain rfl := List.mem_singleton.mp hnew
      exact absurd hid.symm same

/-! ## Moves that plan nothing -/

/-- A manifest that is read brings no ID of another manifest, and a command that removes one
forgets no job that fired. -/
def keepsFired : Guard where
  read := ownIds.read
  added := fun _ _ _ => True
  removed := fun daemon manifest => ∀ fire ∈ fires daemon.trace,
    fire.job.id ∈ ids (daemon.retainManifests (· ≠ manifest)).jobs
  ended := fun _ _ => True
  loads := fun _ _ => True

/-- What every history keeps. -/
def Scheduled (daemon : Daemon) : Prop :=
  OnSchedule daemon.jobs daemon.states (fires daemon.trace)

def Steady (now : Int) (daemon : Daemon) : Prop :=
  Scheduled daemon ∧ Behind daemon.states (fires daemon.trace) now

theorem Steady.start (steady : Steady now daemon) (found : daemon.jobs[index]? = some job)
    (time : Int) : Steady now (daemon.start index time) := by
  have fresh := steady.1.fresh job (List.mem_of_getElem? found)
  unfold Steady Scheduled
  rw [start_of_found found]
  dsimp only
  rw [fires_append]
  have silent : ∀ run, fires [.started job run daemon.inFlight] = [] := fun _ => rfl
  rw [silent, List.append_nil]
  exact ⟨steady.1.restyle found rfl rfl (fresh.congr rfl rfl rfl rfl), steady.2⟩

theorem Steady.settle (steady : Steady now daemon) (thread : Nat) (id : Text)
    (outcome : RunOutcome) : Steady now (daemon.settle host thread id outcome) := by
  unfold Steady Scheduled
  cases position : daemon.position id with
  | none =>
    rw [settle_of_none position]
    exact steady
  | some position =>
    obtain ⟨job, found, -⟩ := found_of_position position
    have hjob := List.mem_of_getElem? found
    rw [settle_of_found position found]
    have fresh : Fresh (fires daemon.trace) (job.ended outcome) :=
      (steady.1.fresh job hjob).congr rfl rfl rfl rfl
    exact ⟨steady.1.replace found rfl rfl fresh,
      steady.2.congr (sameFires_set (steady.1.synced job hjob) rfl)⟩

theorem Steady.retain (steady : Steady now daemon) (keep : Path → Bool) :
    Steady now (daemon.retainManifests keep) := by
  obtain ⟨on, behind⟩ := steady
  exact ⟨⟨on.distinct.sublist (List.filter_sublist.map _),
    fun job hjob => on.synced job (List.mem_of_mem_filter hjob), on.recorded,
    fun job hjob => on.fresh job (List.mem_of_mem_filter hjob), on.timely, on.apart⟩, behind⟩

theorem Steady.prune (steady : Steady now daemon)
    (held : ∀ fire ∈ fires daemon.trace, fire.job.id ∈ ids daemon.jobs) :
    Steady now (daemon.pruneStates host) := by
  obtain ⟨on, behind⟩ := steady
  refine ⟨⟨on.distinct, fun job hjob => ?_, fun fire hfire => ?_, on.fresh, on.timely, on.apart⟩, ?_⟩
  · exact (States.get_keepOnly (List.mem_map_of_mem hjob) _).trans (on.synced job hjob)
  · obtain ⟨last, hlast, hsecond⟩ := on.recorded fire hfire
    refine ⟨last, ?_, hsecond⟩
    rw [← hlast]
    exact congrArg JobState.lastFire (States.get_keepOnly (held fire hfire) _)
  · rintro id instant ⟨⟨fire, hfire, rfl, once⟩, last, hlast, later⟩
    refine behind _ instant ⟨⟨fire, hfire, rfl, once⟩, last, ?_, later⟩
    rw [← hlast]
    exact congrArg JobState.lastFire (States.get_keepOnly (held fire hfire) _).symm

/-! ## Moves that plan -/

variable [CronCrate.Lawful ‹CronCrate›]

/-- A new plan, unless it catches up. -/
theorem replan_fresh (synced : states.get job.id = job.state) (recorded : Recorded states past)
    (behind : Behind states past now) : Fresh past (plan job now false).1 :=
  plan_fresh synced recorded (behind job.id) nofun

theorem Steady.fire (steady : Steady host.now daemon) (found : daemon.jobs[index]? = some job)
    (due : isDue host.now job = true) : Steady host.now (fire host daemon index) := by
  obtain ⟨on, behind⟩ := steady
  have hjob := List.mem_of_getElem? found
  obtain ⟨next, hnext⟩ : ∃ next, job.nextFire = some next := by
    simp only [isDue, Bool.and_eq_true] at due
    cases h : job.nextFire with
    | none => simp [h] at due
    | some next => exact ⟨next, rfl⟩
  have synced := on.synced job hjob
  have fresh := on.fresh job hjob
  have distinct : (ids (Daemon.fire host daemon index).jobs).Nodup := by
    rw [fire_ids found]
    exact on.distinct
  unfold Steady Scheduled
  rw [fire_of_found found, hnext] at distinct ⊢
  dsimp only [Option.getD_some]
  rw [fires_append, fires_append, fires_append, fires_planLines, fires_lines, List.append_nil,
    List.append_nil]
  have recorded' := on.recorded.fire synced fresh hnext
  have behind' := behind.fire synced on.recorded fresh hnext
  refine ⟨⟨distinct, fun c hc => ?_, recorded', fun c hc => ?_, fun f hf => ?_, ?_⟩, behind'⟩
  · rcases mem_set_of_found on.distinct found hc with rfl | ⟨hmem, hne⟩
    · rw [plan_eq]
      simp
    · rw [States.get_set_of_ne hne, on.synced c hmem]
  · rcases mem_set_of_found on.distinct found hc with rfl | ⟨hmem, hne⟩
    · refine replan_fresh ?_ recorded' behind'
      rw [Action.on_id, Action.on_state, Job.movedOn_id, States.get_set_self]
    · intro time htime
      obtain ⟨timely, apart⟩ := on.fresh c hmem time htime
      refine ⟨timely, fun f hf => ?_⟩
      rcases List.mem_append.mp hf with hold | hnew
      · exact apart f hold
      · obtain rfl := List.mem_singleton.mp hnew
        exact fun same => absurd same.symm hne
  · rcases List.mem_append.mp hf with hold | hnew
    · exact on.timely f hold
    · obtain rfl := List.mem_singleton.mp hnew
      exact (fresh next hnext).1
  · refine List.pairwise_append.mpr ⟨on.apart, List.pairwise_singleton _ _, fun f hf g hg => ?_⟩
    obtain rfl := List.mem_singleton.mp hg
    exact (fresh next hnext).2 f hf

theorem Steady.install {watched : Watched} (steady : Steady host.now daemon)
    (distinct : (ids (reload host daemon watched).jobs).Nodup) :
    Steady host.now (reload host daemon watched) := by
  obtain ⟨on, behind⟩ := steady
  have trace : fires (reload host daemon watched).trace = fires daemon.trace := by
    unfold reload Daemon.install
    exact (fires_append _ _).trans (by rw [fires_planLines, List.append_nil])
  have hmem : ∀ c ∈ (reload host daemon watched).jobs, c ∈ daemon.jobs ∨
      ∃ job ∈ jobsOf host.load watched daemon.states,
        c = (planFresh (carry daemon.jobs job) host.now).1 := fun c hc => mem_install hc
  unfold Steady Scheduled
  rw [trace]
  refine ⟨⟨distinct, fun c hc => ?_, on.recorded, fun c hc => ?_, on.timely, on.apart⟩, behind⟩
  · rcases hmem c hc with hold | ⟨job, hjob, rfl⟩
    · exact on.synced c hold
    · rw [planFresh_eq, carry_eq]
      exact (jobsOf_new hjob).1.symm
  · rcases hmem c hc with hold | ⟨job, hjob, rfl⟩
    · exact on.fresh c hold
    · obtain ⟨hstate, hnone⟩ := jobsOf_new hjob
      have synced : daemon.states.get (carry daemon.jobs job).id = (carry daemon.jobs job).state := by
        rw [carry_eq]
        exact hstate.symm
      unfold planFresh
      split
      · exact replan_fresh synced on.recorded behind
      · rename_i planned
        cases hnext : (carry daemon.jobs job).nextFire with
        | none => simp [hnext] at planned
        | some next =>
          obtain ⟨old, hold, hid, hschedule, hsame⟩ := carry_nextFire hnone hnext
          refine (on.fresh old hold).congr ?_ ?_ ?_ (hnext.trans hsame.symm)
          · rw [carry_id, hid]
          · rw [carry_eq, hschedule]
          · rw [← synced, carry_id, ← on.synced old hold, hid]

theorem Steady.hold (steady : Steady host.now daemon) (found : daemon.jobs[index]? = some job)
    (paused : Bool) :
    Steady host.now
      (((daemon.holdJob index paused).saveState host index).planJob index host.now false) := by
  have hjob := List.mem_of_getElem? found
  have same : SameFires daemon.states (daemon.states.set job.id (job.held paused).state) :=
    sameFires_set (steady.1.synced job hjob) rfl
  have fresh : Fresh (fires daemon.trace) (plan (job.held paused) host.now false).1 := by
    refine replan_fresh ?_ (steady.1.recorded.congr same) (steady.2.congr same)
    exact States.get_set_self _ _ _
  have state : (plan (job.held paused) host.now false).1.state = (job.held paused).state := by
    rw [plan_eq]
  unfold Steady Scheduled
  rw [hold_of_found found]
  dsimp only
  rw [fires_append, fires_planLines, List.append_nil, ← state]
  refine ⟨steady.1.replace found (by simp [Job.held]) (by rw [state]; rfl) fresh, ?_⟩
  rw [state]
  exact steady.2.congr same

theorem move_steady (move : Move keepsFired host daemon after) (steady : Steady host.now daemon) :
    Steady host.now after := by
  have own : (ids after.jobs).Nodup :=
    move_distinct move (fun _ allowed => allowed) steady.1.distinct
  cases move with
  | reload watched _ => exact steady.install own
  | add watched _ _ => exact steady.install own
  | retain keep => exact steady.retain keep
  | remove manifest held => exact (steady.retain _).prune held
  | fire _ found due => exact steady.fire found due
  | startWaiting _ _ found _ => exact steady.start found _
  | trigger _ found _ _ => exact steady.start found _
  | settle _ _ outcome => exact steady.settle _ _ outcome
  | hold here paused =>
    obtain ⟨job, found, -⟩ := found_of_position here
    exact steady.hold found paused
  | load _ _ _ => exact steady
  | rest => exact steady

theorem take_scheduled {input : Input} (allowed : keepsFired.allows daemon input)
    (on : Scheduled daemon) (behind : ∀ host, input.host = some host →
      Behind daemon.states (fires daemon.trace) host.now) : Scheduled (daemon.take input) := by
  cases hhost : input.host with
  | some host =>
    have moves : Moves keepsFired host daemon (daemon.take input) :=
      take_moves allowed fun other h => Option.some.inj (h.symm.trans hhost)
    have steady : Steady host.now daemon := ⟨on, behind host hhost⟩
    have kept : Steady host.now (daemon.take input) :=
      moves.keeps (fun _ _ => move_steady) steady
    exact kept.1
  | none =>
    cases input with
    | pass _ | command _ _ | finished _ _ _ => cases hhost
    | timeout => exact on
    | signal =>
      unfold take signal
      dsimp only
      split
      · exact on
      · exact on
    | loads thread content => exact on
    | edited registry => exact on

end

/-! ## Restarts -/

/-- What can happen to a daemon that may be started again. -/
inductive LifeInput where
  | step (input : Input)
  | restart (host : Host)

/-- What a start reads leads to no instant again: the manifests give every job an ID of its own,
the clock is not behind a lost instant, and no schedule catches a lost instant up. -/
def SparesStart (host : Host) (files : Files) (past : List Fire) : Prop :=
  ∀ registry states, files.registry = .ok registry → files.states.reread = some states →
    (listedIds host.load registry).Nodup ∧ Behind states past host.now ∧
      ∀ job ∈ (build host.load host.modified registry states).2, ∀ instant schedule,
        Lost states past job.id instant → job.schedule = some schedule →
          schedule.schedule = .once instant → schedule.catchUp = false

theorem sparesStart_nil {host : Host} {files : Files} {registry : Registry}
    (listed : files.registry = .ok registry)
    (distinct : (listedIds host.load registry).Nodup) : SparesStart host files [] := by
  intro registry' states listed' _
  obtain rfl : registry = registry' := Except.ok.inj (listed.symm.trans listed')
  have never : ∀ id instant, ¬ Lost states [] id instant := not_lost rfl
  exact ⟨distinct, fun id instant lost => absurd lost (never id instant),
    fun job _ instant _ lost => absurd lost (never job.id instant)⟩

section

variable [CronCrate]

/-- The daemon ends, in whatever state it is, and a new one reads its files. Nothing runs when
one of them cannot be read. -/
def restart (daemon : Daemon) (host : Host) : Daemon :=
  match openDaemon host daemon.root daemon.limit daemon.files with
  | some fresh => { fresh with trace := daemon.trace ++ fresh.trace }
  | none => { daemon with exiting := true, waiting := false, threads := [] }

def lifeStep (daemon : Daemon) : LifeInput → Daemon
  | .step input => daemon.step input
  | .restart host => daemon.restart host

/-- The files of a restart hold what was recorded. -/
def SparesRestart (daemon : Daemon) (host : Host) : Prop :=
  daemon.files.states.reread = daemon.states.reread ∧
    SparesStart host daemon.files (fires daemon.trace)

/-- What each input of a life must meet. -/
def Spares (daemon : Daemon) : LifeInput → Prop
  | .step input => daemon.takes input = true → keepsFired.allows daemon input ∧
      ∀ host, input.host = some host → Behind daemon.states (fires daemon.trace) host.now
  | .restart host => SparesRestart daemon host

variable {daemon after : Daemon} {host : Host} {states states' : States} {past : List Fire}

theorem fires_opened {root : Path} {limit : Nat} {files : Files}
    (opened : openDaemon host root limit files = some after) : fires after.trace = [] := by
  obtain ⟨-, planned, silent⟩ := openDaemon_fresh opened
  rw [silent, fires_planLines]

variable [CronCrate.Lawful ‹CronCrate›]

theorem openDaemon_onSchedule {root : Path} {limit : Nat} {files : Files}
    (opened : openDaemon host root limit files = some after)
    (recorded : ∀ states, files.states.reread = some states → Recorded states past)
    (timely : ∀ fire ∈ past, ∃ instant, fire.job.Answers fire.time instant)
    (apart : past.Pairwise Fire.Apart) (spared : SparesStart host files past) :
    OnSchedule after.jobs after.states past := by
  obtain ⟨registry, states, hregistry, hread, hstates, hjobs⟩ := openDaemon_built opened
  obtain ⟨distinct, behind, noCatchUp⟩ := spared registry states hregistry hread
  rw [hstates]
  have planned : ∀ job ∈ after.jobs, ∃ fresh ∈ (build host.load host.modified registry states).2,
      job = (plan fresh host.now true).1 ∧ fresh.state = states.get fresh.id := by
    intro job hjob
    obtain ⟨fresh, hfresh, rfl⟩ := List.mem_map.mp (hjobs ▸ hjob)
    obtain ⟨watched, -, hread⟩ := List.mem_flatMap.mp hfresh
    exact ⟨fresh, hfresh, rfl, (jobsOf_new hread).1⟩
  refine ⟨openDaemon_ids opened hregistry ▸ distinct, fun job hjob => ?_, recorded states hread,
    fun job hjob => ?_, timely, apart⟩
  · obtain ⟨fresh, -, rfl, hstate⟩ := planned job hjob
    rw [plan_eq]
    exact hstate.symm
  · obtain ⟨fresh, hfresh, rfl, hstate⟩ := planned job hjob
    exact plan_fresh hstate.symm (recorded states hread) (behind fresh.id)
      fun _ instant schedule => noCatchUp fresh hfresh instant schedule

theorem restart_scheduled (on : Scheduled daemon) (spared : SparesRestart daemon host) :
    Scheduled (daemon.restart host) := by
  unfold restart
  split
  · rename_i fresh opened
    have kept : OnSchedule fresh.jobs fresh.states (fires daemon.trace) :=
      openDaemon_onSchedule opened (fun states read => on.recorded.reread (spared.1 ▸ read))
        on.timely on.apart spared.2
    unfold Scheduled
    rw [fires_append, fires_opened opened, List.append_nil]
    exact kept
  · exact on

theorem lifeStep_scheduled {input : LifeInput} (on : Scheduled daemon)
    (spared : Spares daemon input) : Scheduled (daemon.lifeStep input) := by
  cases input with
  | step input =>
    unfold lifeStep step
    dsimp only
    split
    · rename_i taken
      obtain ⟨allowed, behind⟩ := spared taken
      exact take_scheduled allowed on behind
    · exact on
  | restart host => exact restart_scheduled on spared

/-- As long as the clock is not set back behind a one-time instant whose fraction was lost, and no
restart catches such an instant up, one instant of a job leads to one fire. -/
theorem one_fire_each {root : Path} {limit : Nat} {files : Files} {registry : Registry}
    {inputs : List LifeInput} (opened : openDaemon host root limit files = some daemon)
    (listed : files.registry = .ok registry) (distinct : (listedIds host.load registry).Nodup)
    (spared : Along lifeStep Spares daemon inputs) :
    OneFireEach (fires (runAll lifeStep daemon inputs).trace) := by
  have start : Scheduled daemon := by
    unfold Scheduled
    rw [fires_opened opened]
    exact openDaemon_onSchedule opened (fun _ _ => List.forall_mem_nil _) (List.forall_mem_nil _)
      .nil (sparesStart_nil listed distinct)
  have kept : Scheduled (runAll lifeStep daemon inputs) :=
    runAll_invariant (fun _ _ on spared => lifeStep_scheduled on spared) start spared
  exact .of_apart kept.timely kept.apart

end

/-! ## An instant with a fraction, and a restart -/

/-- One second and a half. -/
def fraction : Int := 1500000000

/-- A manifest that runs once, at `instant`, and late if it has to. -/
def catchUpAt (instant : Int) (_ : Path) : Except Text Manifest :=
  oneTask { oneTime none instant with catchUp := true }

def onceHost (instant seconds : Int) : Host := hostAt (seconds * nanosPerSecond) 0 (catchUpAt instant)

def onceDaemon (instant : Int) : Option Daemon :=
  @openDaemon .unused (onceHost instant 0) ["root"] 2 ⟨.ok nightly, ⟨[]⟩⟩

def fractionDaemon : Daemon := (onceDaemon fraction).get (by decide +kernel)

def firedAndRestarted : List LifeInput :=
  [.step (.pass (onceHost fraction 2)), .restart (onceHost fraction 3),
    .step (.pass (onceHost fraction 3))]

/-- What a fire is of: its job, its schedule and its time. -/
def Fire.summary (fire : Fire) : Text × Option Schedule × Int :=
  (fire.job.id, fire.job.schedule.map JobSchedule.schedule, fire.time)

theorem not_oneFireEach [CronCrate] {fires : List Fire} {id : Text} {instant time later : Int}
    (twice : fires.map Fire.summary =
      [(id, some (.once instant), time), (id, some (.once instant), later)]) :
    ¬ OneFireEach fires := by
  intro each
  obtain ⟨first, rest, rfl, hfirst, hrest⟩ := List.map_eq_cons_iff.mp twice
  obtain ⟨second, rest', rfl, hsecond, -⟩ := List.map_eq_cons_iff.mp hrest
  simp only [Fire.summary, Prod.mk.injEq, Option.map_eq_some_iff] at hfirst hsecond
  have apart := (List.pairwise_cons.mp each.once).1 second (by simp)
  exact apart (hfirst.1.trans hsecond.1.symm) instant hfirst.2.1 hsecond.2.1

theorem fires_twice :
    onceDaemon fraction = some fractionDaemon ∧
      (listedIds (onceHost fraction 0).load nightly).Nodup ∧
      ¬ @OneFireEach .unused
        (fires (@runAll _ _ (@lifeStep .unused) fractionDaemon firedAndRestarted).trace) := by
  refine ⟨(Option.some_get _).symm, by decide +kernel, ?_⟩
  exact @not_oneFireEach .unused _ "nightly".toList fraction fraction (3 * nanosPerSecond)
    (by decide +kernel)

/-- A schedule of a whole second fires once, restart or not. -/
def wholeDaemon : Daemon := (onceDaemon nanosPerSecond).get (by decide +kernel)

def firedThenRestarted : List LifeInput :=
  [.step (.pass (onceHost nanosPerSecond 2)), .restart (onceHost nanosPerSecond 3)]

theorem one_fire_each_whole :
    @OneFireEach .unused
      (fires (@runAll _ _ (@lifeStep .unused) wholeDaemon firedThenRestarted).trace) := by
  let _ : CronCrate := .unused
  have opened : onceDaemon nanosPerSecond = some wholeDaemon := (Option.some_get _).symm
  have first : fires wholeDaemon.trace = [] := fires_opened opened
  refine one_fire_each opened rfl (by decide +kernel) ⟨fun _ => ⟨?_, fun _ _ => ?_⟩, ?_, trivial⟩
  · have unchanged : wholeDaemon.changed (onceHost nanosPerSecond 2) = [] := by decide +kernel
    rw [Guard.allows, unchanged]
    trivial
  · rw [first]
    exact fun id instant lost => absurd lost (not_lost rfl id instant)
  · refine ⟨by decide +kernel, fun registry states listed read => ?_⟩
    obtain rfl : nightly = registry := Except.ok.inj listed
    have kept : ((wholeDaemon.step (.pass (onceHost nanosPerSecond 2))).files.states.reread).all
        (fun states => (fires (wholeDaemon.step
          (.pass (onceHost nanosPerSecond 2))).trace).all (·.isKept states)) = true := by
      decide +kernel
    have read' : (wholeDaemon.step (.pass (onceHost nanosPerSecond 2))).files.states.reread =
      some states := read
    rw [read', Option.all_some] at kept
    exact ⟨by decide +kernel, fun id instant lost => absurd lost (not_lost kept id instant),
      fun job _ instant _ lost => absurd lost (not_lost kept job.id instant)⟩

end Beez.Daemon
