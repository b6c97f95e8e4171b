import Beez.Daemon.Copies
import Beez.Daemon.Fires

/-! # What a start runs late

A start asks `state.json` for the last fire of each job, and counts every instant after it as
missed.
-/

open Beez.Lib

namespace Beez.Daemon

/-- The jobs that a start reads. -/
def Files.gives (files : Files) (host : Host) : List Job :=
  match files.registry, files.states.reread with
  | .ok registry, some states => (build host.load host.modified registry states).2
  | _, _ => []

/-- The instant after which a plan looks for fires. -/
def Job.base (job : Job) (schedule : JobSchedule) (now : Int) : Int :=
  job.state.lastFire.getD (if schedule.schedule.isRecurring then now else 0)

theorem mem_planLines_iff {planned : List (Job × Option Plan)} {job : Job} {found : Plan} :
    .planned job found ∈ planLines planned ↔ (job, some found) ∈ planned := by
  unfold planLines
  rw [List.mem_flatMap]
  constructor
  · rintro ⟨⟨planned, plan⟩, hmem, hline⟩
    obtain ⟨_, hplan, hsame⟩ := List.mem_map.mp hline
    cases hsame
    rwa [Option.mem_toList.mp hplan] at hmem
  · intro hmem
    exact ⟨_, hmem, List.mem_map_of_mem (Option.mem_toList.mpr rfl)⟩

theorem gives_idle {files : Files} {host : Host} {job : Job} (mem : job ∈ files.gives host) :
    job.running = false ∧ job.queued = false := by
  unfold Files.gives at mem
  split at mem
  · obtain ⟨watched, -, hjob⟩ := List.mem_flatMap.mp mem
    exact jobsOf_idle hjob
  · cases mem

/-! ## What is due -/

section

variable {daemon : Daemon} {now : Int}

theorem due_within : ∀ index ∈ daemon.due now, index < daemon.jobs.length := by
  intro index hindex
  obtain ⟨job, found, -⟩ := mem_due hindex
  exact lt_of_found found

theorem due_apart : (daemon.due now).Nodup := List.Nodup.filter _ List.nodup_range

theorem mem_due_iff {index : Nat} {job : Job} (found : daemon.jobs[index]? = some job) :
    index ∈ daemon.due now ↔ isDue now job = true := by
  unfold due
  rw [List.mem_filter, List.mem_range, found]
  simpa using fun _ => lt_of_found found

end

section

variable [CronCrate] {job : Job} {schedule : JobSchedule} {now missed : Int}

/-- The job asks to run late, and `missed` is the first instant after its last fire. -/
def Job.Misses (job : Job) (now missed : Int) : Prop :=
  job.isReady = true ∧ ∃ schedule, job.schedule = some schedule ∧ schedule.catchUp = true ∧
    schedule.schedule.nextAfter (job.base schedule now) = some missed ∧ missed ≤ now

theorem plan_of_ready (ready : job.isReady = true) (hschedule : job.schedule = some schedule) :
    plan job now true =
      match schedule.schedule.nextAfter (job.base schedule now) with
      | none => ({ job with nextFire := none }, none)
      | some next =>
        if now < next then ({ job with nextFire := some next }, none)
        else if schedule.catchUp then ({ job with nextFire := some now }, some (.catchUp next))
        else ({ job with nextFire := schedule.schedule.nextAfter now }, some (.missed next)) := by
  have same : Job.isReady { job with nextFire := none } = true := ready
  have base : job.state.lastFire.getD (if schedule.schedule.isRecurring then now else 0) =
      job.base schedule now := rfl
  unfold plan
  dsimp only
  rw [same, hschedule]
  cases hnext : schedule.schedule.nextAfter (job.base schedule now) with
  | none => simp [base, hnext]
  | some next => simp [base, hnext]

theorem plan_of_not_ready (held : job.isReady = false) (allowCatchUp : Bool) :
    plan job now allowCatchUp = ({ job with nextFire := none }, none) := by
  have same : Job.isReady { job with nextFire := none } = false := held
  unfold plan
  simp [same]

theorem plan_of_no_schedule (absent : job.schedule = none) (allowCatchUp : Bool) :
    plan job now allowCatchUp = ({ job with nextFire := none }, none) := by
  unfold plan
  simp [absent]

theorem plan_catchUp_iff :
    (plan job now true).2 = some (.catchUp missed) ↔ job.Misses now missed := by
  unfold Job.Misses
  cases ready : job.isReady with
  | false => simp [plan_of_not_ready ready]
  | true =>
    cases hschedule : job.schedule with
    | none => simp [plan_of_no_schedule hschedule]
    | some schedule =>
      rw [plan_of_ready ready hschedule]
      cases hnext : schedule.schedule.nextAfter (job.base schedule now) with
      | none => simp [hnext]
      | some next =>
        by_cases ahead : now < next
        · have : ∀ h : next = missed, ¬ missed ≤ now := fun h => by omega
          simpa [hnext, ahead] using fun _ => this
        · cases late : schedule.catchUp with
          | false => simp [ahead, late]
          | true =>
            simp only [ahead, if_false, if_true, Option.some.injEq, Plan.catchUp.injEq, true_and]
            constructor
            · rintro rfl
              exact ⟨schedule, rfl, late, hnext, by omega⟩
            · rintro ⟨_, rfl, -, hsame, -⟩
              exact Option.some.inj (hnext.symm.trans hsame)

theorem ready_of_plan {allowCatchUp : Bool} {next : Int}
    (h : (plan job now allowCatchUp).1.nextFire = some next) : job.isReady = true := by
  by_contra held
  rw [plan_of_not_ready (by simpa using held)] at h
  cases h

/-! ## What a start plans -/

variable {daemon after : Daemon} {host : Host} {root : Path} {limit : Nat} {files : Files}

theorem openDaemon_plans (opened : openDaemon host root limit files = some after) :
    after.jobs = (files.gives host).map (fun job => (plan job host.now true).1) ∧
      after.trace = planLines ((files.gives host).map fun job => plan job host.now true) ∧
      after.started = host.now ∧ after.stopping = false ∧ after.exiting = false ∧
      after.waiting = false := by
  unfold openDaemon at opened
  cases hregistry : files.registry with
  | error error => simp [hregistry] at opened
  | ok registry =>
    cases hread : files.states.reread with
    | none => simp [hregistry, hread] at opened
    | some states =>
      have gives : files.gives host = (build host.load host.modified registry states).2 := by
        simp only [Files.gives, hregistry, hread]
      simp only [hregistry, hread, Option.some.injEq] at opened
      rw [gives, ← opened]
      exact ⟨List.map_map, rfl, rfl, rfl, rfl, rfl⟩

/-- A start plans to catch up what it missed, and nothing else. -/
theorem catchUp_opened (opened : openDaemon host root limit files = some after) :
    .planned job (.catchUp missed) ∈ after.trace ↔
      ∃ rebuilt ∈ files.gives host, rebuilt.Misses host.now missed ∧
        job = (plan rebuilt host.now true).1 := by
  rw [(openDaemon_plans opened).2.1, mem_planLines_iff, List.mem_map]
  refine exists_congr fun rebuilt => and_congr_right fun _ => ?_
  rw [Prod.ext_iff, plan_catchUp_iff, and_comm, eq_comm]

/-! ## What the first pass takes -/

variable {index : Nat}

theorem fire_jobs_of_ne (found : daemon.jobs[index]? = some job) {other : Nat} (hne : index ≠ other) :
    (fire host daemon index).jobs[other]? = daemon.jobs[other]? := by
  rw [fire_of_found found]
  exact List.getElem?_set_ne hne

/-- The jobs at other places stay where they are. -/
theorem fire_rest (found : daemon.jobs[index]? = some job) {rest : List Nat} (fresh : index ∉ rest)
    (within : ∀ other ∈ rest, other < daemon.jobs.length) :
    (∀ other ∈ rest, (fire host daemon index).jobs[other]? = daemon.jobs[other]?) ∧
      ∀ other ∈ rest, other < (fire host daemon index).jobs.length := by
  have same : ∀ other ∈ rest, (fire host daemon index).jobs[other]? = daemon.jobs[other]? :=
    fun other hother => fire_jobs_of_ne found fun h => fresh (h ▸ hother)
  refine ⟨same, fun other hother => ?_⟩
  have here := List.getElem?_eq_getElem (within other hother)
  exact lt_of_found ((same other hother).trans here)

theorem fires_fire (found : daemon.jobs[index]? = some job) :
    fires (fire host daemon index).trace =
      fires daemon.trace ++ [⟨job, job.nextFire.getD host.now⟩] := by
  rw [fire_of_found found]
  simp only [fires_append, fires_lines, fires_planLines, List.append_nil]
  rfl

/-- One fire after the other, each job that is due fires once. -/
theorem fires_fireAll {due : List Nat} (apart : due.Nodup)
    (within : ∀ index ∈ due, index < daemon.jobs.length) :
    fires (runAll (fire host) daemon due).trace = fires daemon.trace ++ due.filterMap fun index =>
      daemon.jobs[index]?.map fun job => ⟨job, job.nextFire.getD host.now⟩ := by
  induction due generalizing daemon with
  | nil => simp
  | cons index rest ih =>
    obtain ⟨fresh, apart⟩ := List.nodup_cons.mp apart
    have found := List.getElem?_eq_getElem (within index (by simp))
    obtain ⟨same, within⟩ := @fire_rest _ _ daemon host index found rest fresh fun other h =>
      within other (List.mem_cons_of_mem _ h)
    rw [runAll_cons, ih apart within, fires_fire found, List.append_assoc,
      List.filterMap_cons, found, List.filterMap_congr fun other hother => by rw [same other hother]]
    rfl

end

def minute : Int := 60000000000

/-- A daemon with room for one run, and a job that runs once, in a minute, and late if it has to. -/
def lateDaemon : Daemon :=
  (@openDaemon .unused (onceHost minute 0) ["root"] 1 ⟨.ok nightly, ⟨[]⟩⟩).get (by decide +kernel)

end Beez.Daemon
