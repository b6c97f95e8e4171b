import Beez.Daemon.Restarts

/-! # What one pass does to the jobs that are due -/

open Beez.Lib

namespace Beez.Daemon

def maxSleep : Int := 60 * 1000000000

def waits (daemon : Daemon) (now : Int) : List Int :=
  (daemon.jobs.filter (·.isReady)).filterMap fun job =>
    job.nextFire.bind fun fire => if now ≤ fire then some (fire - now) else none

/-- How long to wait before the next fire, at most one minute. -/
def sleep (daemon : Daemon) (now : Int) : Int :=
  min ((daemon.waits now).min?.getD maxSleep) maxSleep

/-- What a pass at `now` leaves: each due job fired once and no other, every fire that is planned
lies ahead, and the timer wakes up in time for it. -/
structure FiredDue (daemon after : Daemon) (now : Int) : Prop where
  fires : fires after.trace = fires daemon.trace ++
    (daemon.jobs.filter (isDue now)).map fun job => ⟨job, job.nextFire.getD now⟩
  others : ∀ (index : Nat) job, daemon.jobs[index]? = some job → isDue now job = false →
    after.jobs[index]? = some job
  moved : ∀ (index : Nat) job, daemon.jobs[index]? = some job → isDue now job = true →
    ∃ job', after.jobs[index]? = some job' ∧ job'.id = job.id ∧
      job'.state.lastFire = job.nextFire ∧ ∀ next, job'.nextFire = some next →
        now < next ∧ ∀ last, job'.state.lastFire = some last → last < next
  ahead : ∀ job ∈ after.jobs, job.isReady = true → ∀ next, job.nextFire = some next → now < next
  positive : 0 < after.sleep now
  brief : after.sleep now ≤ maxSleep
  early : ∀ job ∈ after.jobs, job.isReady = true → ∀ next, job.nextFire = some next →
    after.sleep now ≤ next - now

variable {daemon : Daemon} {now : Int} {index : Nat} {job : Job}

/-! ## The time to wait -/

theorem mem_waits {wait : Int} : wait ∈ daemon.waits now ↔ ∃ job ∈ daemon.jobs,
    job.isReady = true ∧ ∃ next, job.nextFire = some next ∧ now ≤ next ∧ wait = next - now := by
  unfold waits
  rw [List.mem_filterMap]
  constructor
  · rintro ⟨job, mem, h⟩
    obtain ⟨next, planned, h⟩ := Option.bind_eq_some_iff.mp h
    split at h
    · obtain ⟨mem, ready⟩ := List.mem_filter.mp mem
      exact ⟨job, mem, ready, next, planned, ‹_›, (Option.some.inj h).symm⟩
    · cases h
  · rintro ⟨job, mem, ready, next, planned, later, rfl⟩
    refine ⟨job, List.mem_filter.mpr ⟨mem, ready⟩, ?_⟩
    rw [planned, Option.bind_some, if_pos later]

theorem sleep_brief (daemon : Daemon) (now : Int) : daemon.sleep now ≤ maxSleep := by
  rw [sleep]
  exact min_le_right _ _

theorem sleep_early (mem : job ∈ daemon.jobs) (ready : job.isReady = true) {next : Int}
    (planned : job.nextFire = some next) (later : now < next) : daemon.sleep now ≤ next - now := by
  have wait : next - now ∈ daemon.waits now :=
    mem_waits.mpr ⟨job, mem, ready, next, planned, later.le, rfl⟩
  rw [sleep]
  refine (min_le_left _ _).trans ?_
  cases hmin : (daemon.waits now).min? with
  | none =>
    rw [List.min?_eq_none_iff.mp hmin] at wait
    cases wait
  | some least => exact (List.min?_eq_some_iff.mp hmin).2 _ wait

theorem sleep_positive (ahead : ∀ job ∈ daemon.jobs, job.isReady = true →
    ∀ next, job.nextFire = some next → now < next) : 0 < daemon.sleep now := by
  have minute : 0 < maxSleep := by decide
  rw [sleep]
  refine lt_min ?_ minute
  cases hmin : (daemon.waits now).min? with
  | none => exact minute
  | some least =>
    obtain ⟨job, mem, ready, next, planned, -, rfl⟩ :=
      mem_waits.mp (List.min?_eq_some_iff.mp hmin).1
    have := ahead job mem ready next planned
    rw [Option.getD_some]
    omega

/-! ## The fires of a pass -/

section

variable [CronCrate]

theorem fireAll_other {host : Host} {due : List Nat} (apart : due.Nodup)
    (within : ∀ index ∈ due, index < daemon.jobs.length) (out : index ∉ due) :
    (runAll (fire host) daemon due).jobs[index]? = daemon.jobs[index]? := by
  induction due generalizing daemon with
  | nil => rfl
  | cons first rest ih =>
    obtain ⟨fresh, apart⟩ := List.nodup_cons.mp apart
    rw [List.mem_cons, not_or] at out
    have here := List.getElem?_eq_getElem (within first (by simp))
    obtain ⟨-, within'⟩ := @fire_rest _ _ daemon host first here rest fresh fun other h =>
      within other (List.mem_cons_of_mem _ h)
    rw [runAll_cons, ih apart within' out.2, fire_jobs_of_ne here (Ne.symm out.1)]

theorem fireAll_job {host : Host} {due : List Nat} (apart : due.Nodup)
    (within : ∀ index ∈ due, index < daemon.jobs.length) (mem : index ∈ due)
    (found : daemon.jobs[index]? = some job) : ∃ action : Action,
      (runAll (fire host) daemon due).jobs[index]? =
        some (plan (action.on (job.movedOn (job.nextFire.getD host.now))) host.now false).1 := by
  induction due generalizing daemon with
  | nil => cases mem
  | cons first rest ih =>
    obtain ⟨fresh, apart'⟩ := List.nodup_cons.mp apart
    have here := List.getElem?_eq_getElem (within first (by simp))
    obtain ⟨same, within'⟩ := @fire_rest _ _ daemon host first here rest fresh fun other h =>
      within other (List.mem_cons_of_mem _ h)
    rw [runAll_cons]
    rcases List.mem_cons.mp mem with rfl | hrest
    · refine ⟨daemon.actionFor job, ?_⟩
      rw [fireAll_other apart' within' fresh, fire_of_found found]
      exact getElem?_set_of_found found _
    · exact ih apart' within' hrest ((same index hrest).trans found)

/-- A plan without a catch-up lies ahead of the time and of the last fire. -/
theorem plan_ahead [CronCrate.Lawful ‹CronCrate›] {next : Int}
    (h : (plan job now false).1.nextFire = some next) :
    now < next ∧ ∀ last, job.state.lastFire = some last → last < next := by
  obtain ⟨schedule, base, first, -, hbase, hfirst, hcase⟩ := plan_next h
  have later : base < first := Schedule.lt_of_nextAfter hfirst
  have hlast : ∀ last, job.state.lastFire = some last → base = last := by
    intro last hlast
    rw [hbase, hlast]
    rfl
  rcases hcase with ⟨ahead, rfl⟩ | ⟨-, catchUp, -⟩ | ⟨passed, hnext⟩
  · exact ⟨ahead, fun last h => hlast last h ▸ later⟩
  · cases catchUp
  · have := Schedule.lt_of_nextAfter hnext
    refine ⟨this, fun last h => ?_⟩
    have := hlast last h
    omega

/-! ## One pass -/

theorem fireDue_of_going {host : Host} (going : daemon.stopping = false) :
    daemon.fireDue host = runAll (fire host) daemon (daemon.due host.now) := by
  simp [fireDue, going]

theorem fireDue_other {host : Host} (going : daemon.stopping = false)
    (found : daemon.jobs[index]? = some job) (idle : isDue host.now job = false) :
    (daemon.fireDue host).jobs[index]? = some job := by
  have out : index ∉ daemon.due host.now := by
    rw [mem_due_iff found, idle]
    exact Bool.false_ne_true
  rw [fireDue_of_going going, fireAll_other due_apart due_within out, found]

theorem fireDue_moved [CronCrate.Lawful ‹CronCrate›] {host : Host} (going : daemon.stopping = false)
    (found : daemon.jobs[index]? = some job) (isdue : isDue host.now job = true) :
    ∃ job', (daemon.fireDue host).jobs[index]? = some job' ∧ job'.id = job.id ∧
      job'.state.lastFire = job.nextFire ∧ ∀ next, job'.nextFire = some next →
        host.now < next ∧ ∀ last, job'.state.lastFire = some last → last < next := by
  obtain ⟨action, hjob⟩ :=
    fireAll_job due_apart due_within ((mem_due_iff found).mpr isdue) found
  have planned : ∃ fire, job.nextFire = some fire := by
    rw [isDue, Bool.and_eq_true] at isdue
    exact Option.isSome_iff_exists.mp (Option.isSome_of_any isdue.2)
  obtain ⟨fire, hfire⟩ := planned
  refine ⟨_, (fireDue_of_going going) ▸ hjob, ?_, ?_, fun next hnext => ?_⟩
  · rw [plan_eq]
    exact action.on_id _
  · rw [plan_eq, hfire]
    exact congrArg (·.lastFire) (action.on_state _)
  · obtain ⟨ahead, later⟩ := plan_ahead hnext
    refine ⟨ahead, fun last hlast => later last ?_⟩
    rwa [plan_eq] at hlast

theorem fireDue_ahead [CronCrate.Lawful ‹CronCrate›] {host : Host} (going : daemon.stopping = false)
    (mem : job ∈ (daemon.fireDue host).jobs) (ready : job.isReady = true) {next : Int}
    (planned : job.nextFire = some next) : host.now < next := by
  obtain ⟨index, found⟩ := List.mem_iff_getElem?.mp mem
  cases hold : daemon.jobs[index]? with
  | none =>
    have out : index ∉ daemon.due host.now := fun hdue => by
      have lt := due_within index hdue
      rw [List.getElem?_eq_none_iff] at hold
      omega
    rw [fireDue_of_going going, fireAll_other due_apart due_within out, hold] at found
    cases found
  | some old =>
    cases isdue : isDue host.now old with
    | false =>
      obtain rfl := Option.some.inj ((fireDue_other going hold isdue).symm.trans found)
      simpa [isDue, ready, planned] using isdue
    | true =>
      obtain ⟨job', hjob', -, -, later⟩ := fireDue_moved going hold isdue
      obtain rfl := Option.some.inj (hjob'.symm.trans found)
      exact (later next planned).1

/-- A pass of a daemon that goes on fires what is due, and leaves nothing due. -/
theorem fireDue_fires [CronCrate.Lawful ‹CronCrate›] (daemon : Daemon) (host : Host)
    (going : daemon.stopping = false) : FiredDue daemon (daemon.fireDue host) host.now where
  fires := by
    rw [fireDue_of_going going, fires_fireAll due_apart due_within]
    exact congrArg _ (filterMap_getElem?_filter _ _ daemon.jobs)
  others := fun _ _ => fireDue_other going
  moved := fun _ _ => fireDue_moved going
  ahead := fun _ mem ready _ => fireDue_ahead going mem ready
  positive := sleep_positive fun _ mem ready _ => fireDue_ahead going mem ready
  brief := sleep_brief _ _
  early := fun _ mem ready _ planned =>
    sleep_early mem ready planned (fireDue_ahead going mem ready planned)

end

theorem fireDue_fires_late :
    FiredDue lateDaemon (@fireDue .unused lateDaemon (onceHost minute 60)) minute :=
  @fireDue_fires .unused inferInstance lateDaemon (onceHost minute 60) (by decide +kernel)

example : (fires (@fireDue .unused lateDaemon (onceHost minute 60)).trace).length = 1 ∧
    (@fireDue .unused lateDaemon (onceHost minute 60)).sleep minute = maxSleep := by
  decide +kernel

end Beez.Daemon
