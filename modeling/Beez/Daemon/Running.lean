import Beez.Daemon.Overlap

/-! # The running mark and the runs in flight -/

open Beez.Lib

namespace Beez.Daemon

/-- The mark of every job says whether a run with its ID is in flight. -/
def MarksRuns (daemon : Daemon) : Prop :=
  ∀ job ∈ daemon.jobs, job.running = true ↔ job.id ∈ daemon.inFlight

instance (daemon : Daemon) : Decidable (MarksRuns daemon) :=
  inferInstanceAs (Decidable (∀ job ∈ daemon.jobs, job.running = true ↔ job.id ∈ daemon.inFlight))

/-- The daemon holds every job that a manifest gives and that has a run in flight. -/
def HoldsRuns (host : Host) (daemon : Daemon) (watched : Watched) : Prop :=
  ∀ id ∈ ids (jobsOf host.load watched daemon.states), id ∈ daemon.inFlight → id ∈ ids daemon.jobs

/-- A run that ends is the last one in flight of its job, if the daemon holds that job. -/
def EndsLast (daemon : Daemon) (thread : RunThread) : Prop :=
  thread.run.id ∈ ids daemon.jobs → daemon.inFlight.count thread.run.id ≤ 1

def holdsRuns : Guard where
  read := fun host daemon watched => ownIds.read host daemon watched ∧ HoldsRuns host daemon watched
  added := HoldsRuns
  removed := fun _ _ => True
  ended := EndsLast
  loads := fun _ _ => True

section

variable {daemon after : Daemon} {host : Host} {job : Job} {index : Nat}

/-- One job took the place of another, and only runs of that job started or ended. -/
theorem MarksRuns.set_iff {runs : List Text} {other : Job} (marks : MarksRuns daemon)
    (distinct : (ids daemon.jobs).Nodup) (found : daemon.jobs[index]? = some job)
    (same : ∀ id, id ≠ job.id → (id ∈ runs ↔ id ∈ daemon.inFlight)) :
    (∀ held ∈ daemon.jobs.set index other, held.running = true ↔ held.id ∈ runs) ↔
      (other.running = true ↔ other.id ∈ runs) := by
  constructor
  · intro all
    exact all other (List.mem_of_getElem? (getElem?_set_of_found found other))
  · intro mark held mem
    rcases mem_set_of_found distinct found mem with rfl | ⟨old, ne⟩
    · exact mark
    · rw [same held.id ne]
      exact marks held old

theorem MarksRuns.start (marks : MarksRuns daemon) (distinct : (ids daemon.jobs).Nodup)
    (found : daemon.jobs[index]? = some job) (time : Int) : MarksRuns (daemon.start index time) := by
  have hjobs := congrArg Daemon.jobs (start_of_found found time)
  unfold MarksRuns
  rw [hjobs, inFlight_start found, marks.set_iff distinct found]
  · simp
  · intro id ne
    simp [ne]

/-- The end of a run keeps the marks if and only if no other run of its job goes on. -/
theorem MarksRuns.settle_iff {thread : RunThread} (marks : MarksRuns daemon)
    (distinct : (ids daemon.jobs).Nodup) (here : daemon.threads[index]? = some thread)
    (outcome : RunOutcome) :
    MarksRuns (daemon.settle host index thread.run.id outcome) ↔ EndsLast daemon thread := by
  have flight : daemon.inFlight[index]? = some thread.run.id := by simp [inFlight, here]
  have others : ∀ id, id ≠ thread.run.id →
      (id ∈ daemon.inFlight.eraseIdx index ↔ id ∈ daemon.inFlight) :=
    fun id ne => mem_eraseIdx_of_ne flight ne
  unfold MarksRuns EndsLast
  rw [inFlight_settle]
  cases position : daemon.position thread.run.id with
  | none =>
    have absent : thread.run.id ∉ ids daemon.jobs := not_mem_of_position position
    rw [settle_of_none position]
    refine iff_of_true (fun job mem => ?_) (fun hid => absurd hid absent)
    rw [others job.id fun same => absent (same ▸ List.mem_map_of_mem mem)]
    exact marks job mem
  | some position =>
    obtain ⟨job, found, hid⟩ := found_of_position position
    have holds : thread.run.id ∈ ids daemon.jobs :=
      hid ▸ List.mem_map_of_mem (List.mem_of_getElem? found)
    rw [settle_of_found position found, marks.set_iff distinct found (hid ▸ others)]
    have last : (job.ended outcome).id = thread.run.id := hid
    rw [last, mem_eraseIdx_self flight]
    simp [Job.ended, holds]

theorem carry_running (marks : MarksRuns daemon) (idle : job.running = false) :
    (carry daemon.jobs job).running = true ↔ job.id ∈ daemon.inFlight ∧ job.id ∈ ids daemon.jobs := by
  unfold carry
  cases found : daemon.jobs.find? (·.id = job.id) with
  | none =>
    have absent : job.id ∉ ids daemon.jobs := by
      intro hid
      obtain ⟨old, mem, same⟩ := List.mem_map.mp hid
      simpa [same] using List.find?_eq_none.mp found old mem
    simp [idle, absent]
  | some old =>
    have mem := List.mem_of_find?_eq_some found
    have same : old.id = job.id := by simpa using List.find?_some found
    have holds : job.id ∈ ids daemon.jobs := same ▸ List.mem_map_of_mem mem
    simp only [holds, and_true]
    rw [← same]
    exact marks old mem

end

section

variable [CronCrate] {daemon after : Daemon} {host : Host} {job : Job} {index : Nat}

/-- A manifest that is read keeps the marks if and only if its jobs with runs in flight are held. -/
theorem MarksRuns.reload_iff {watched : Watched} (marks : MarksRuns daemon) :
    MarksRuns (reload host daemon watched) ↔ HoldsRuns host daemon watched := by
  constructor
  · intro all id hid going
    obtain ⟨job, mem, rfl⟩ := List.mem_map.mp hid
    have fresh := all (planFresh (carry daemon.jobs job) host.now).1
      (List.mem_append_right _ (List.mem_map_of_mem (List.mem_map_of_mem mem)))
    rw [planFresh_eq, carry_eq] at fresh
    exact ((carry_running marks (jobsOf_idle mem).1).mp (fresh.mpr going)).2
  · intro holds held mem
    rcases List.mem_append.mp mem with kept | fresh
    · exact marks held (List.mem_of_mem_filter kept)
    · obtain ⟨planned, hplanned, rfl⟩ := List.mem_map.mp fresh
      obtain ⟨job, hjob, rfl⟩ := List.mem_map.mp hplanned
      have hid := List.mem_map_of_mem (f := Job.id) hjob
      rw [planFresh_eq, carry_eq]
      refine (carry_running marks (jobsOf_idle hjob).1).trans ?_
      exact ⟨fun going => going.1, fun going => ⟨going, holds job.id hid going⟩⟩

theorem MarksRuns.fire (marks : MarksRuns daemon) (distinct : (ids daemon.jobs).Nodup)
    (found : daemon.jobs[index]? = some job) : MarksRuns (fire host daemon index) := by
  have hjobs := congrArg Daemon.jobs (fire_of_found found host)
  have mark := marks job (List.mem_of_getElem? found)
  unfold MarksRuns
  rw [hjobs]
  rcases inFlight_fire found host with ⟨waits, same⟩ | ⟨starts, more⟩
  · rw [same, marks.set_iff distinct found fun _ _ => Iff.rfl, plan_eq]
    refine (Action.on_running _ _).trans ?_
    simpa [waits, Job.movedOn] using mark
  · rw [more, marks.set_iff distinct found, plan_eq]
    · refine (Action.on_running _ _).trans ?_
      simp [starts]
    · intro id ne
      simp [ne]

theorem move_holdsRuns (move : Move holdsRuns host daemon after)
    (kept : (ids daemon.jobs).Nodup ∧ MarksRuns daemon) :
    (ids after.jobs).Nodup ∧ MarksRuns after := by
  obtain ⟨distinct, marks⟩ := kept
  refine ⟨move_distinct move (fun _ allowed => allowed.left) distinct, ?_⟩
  cases move with
  | reload watched allowed => exact marks.reload_iff.mpr allowed.2
  | add watched allowed _ => exact marks.reload_iff.mpr allowed
  | retain keep => exact fun job mem => marks job (List.mem_of_mem_filter mem)
  | remove manifest _ => exact fun job mem => marks job (List.mem_of_mem_filter mem)
  | fire _ found _ => exact marks.fire distinct found
  | startWaiting _ _ found _ => exact marks.start distinct found _
  | trigger _ found _ _ => exact marks.start distinct found _
  | settle found last outcome => exact (marks.settle_iff distinct found outcome).mpr last
  | hold here paused =>
    obtain ⟨job, found, -⟩ := found_of_position here
    rw [hold_of_found found]
    refine (marks.set_iff distinct found fun _ _ => Iff.rfl).mpr ?_
    rw [plan_eq]
    exact marks job (List.mem_of_getElem? found)
  | load thread content _ =>
    unfold MarksRuns
    rw [inFlight_load]
    exact marks
  | rest => exact marks

/-- As long as every run that ends is the last of its job, and every job that is read while a run
of it goes on is held, the running marks tell the runs in flight. -/
theorem marks_runs {root : Path} {limit : Nat} {files : Files} {registry : Registry}
    {inputs : List Input} (opened : openDaemon host root limit files = some daemon)
    (listed : files.registry = .ok registry) (distinct : (listedIds host.load registry).Nodup)
    (kept : holdsRuns.AllowsAll daemon inputs) : MarksRuns (runAll step daemon inputs) := by
  have idle := (openDaemon_fresh opened).1
  obtain ⟨registry', states, -, -, -, hjobs⟩ := openDaemon_built opened
  have start : MarksRuns daemon := by
    intro job mem
    rw [hjobs, List.mem_map] at mem
    obtain ⟨built, mem, rfl⟩ := mem
    obtain ⟨watched, -, mem⟩ := List.mem_flatMap.mp mem
    rw [plan_eq]
    simp [inFlight, idle, (jobsOf_idle mem).1]
  exact (kept.keeps (fun _ _ _ move => move_holdsRuns move)
    ⟨openDaemon_ids opened listed ▸ distinct, start⟩).2

end

/-! ## Two runs of one job -/

def lateInParallel : Except Text Manifest :=
  oneTask ⟨some "late".toList, .once 60000000000, .parallel, false, true, true⟩

/-- The manifest lets the runs of its job go on beside each other. -/
def parallelHost (now changed : Int) : Host := hostAt now changed fun _ => lateInParallel

def parallelDaemon : Daemon :=
  (@openDaemon .unused (parallelHost 0 0) ["root"] 2 ⟨.ok nightly, ⟨[]⟩⟩).get (by decide +kernel)

theorem parallelDaemon_opened :
    @openDaemon .unused (parallelHost 0 0) ["root"] 2 ⟨.ok nightly, ⟨[]⟩⟩ = some parallelDaemon :=
  (Option.some_get _).symm

/-- The job is triggered, it falls due while that run goes on, and the first run ends. -/
def oneOfTwoEnds : List Input :=
  [.pass (parallelHost 0 0), .command (parallelHost 0 0) (.trigger late),
    .pass (parallelHost 60000000000 0), .loads 0 lateInParallel,
    .finished (parallelHost 60000000001 0) 0 ⟨none, some 0, [], none⟩]

theorem unmarked_oneOfTwoEnds :
    @openDaemon .unused (parallelHost 0 0) ["root"] 2 ⟨.ok nightly, ⟨[]⟩⟩ = some parallelDaemon ∧
      ¬ MarksRuns (@runAll _ _ (@step .unused) parallelDaemon oneOfTwoEnds) :=
  ⟨parallelDaemon_opened, by decide +kernel⟩

/-- The job is triggered, its manifest is written again, and the run ends. -/
def touchedWhileRunning : List Input :=
  [.pass (parallelHost 0 0), .command (parallelHost 0 0) (.trigger late),
    .pass (parallelHost 1 1), .loads 0 lateInParallel,
    .finished (parallelHost 2 1) 0 ⟨none, some 0, [], none⟩]

theorem marks_runs_touched :
    MarksRuns (@runAll _ _ (@step .unused) parallelDaemon touchedWhileRunning) := by
  let _ : CronCrate := .unused
  have early : parallelDaemon.changed (parallelHost 0 0) = [] := by decide +kernel
  have later : (runAll step parallelDaemon (touchedWhileRunning.take 2)).changed (parallelHost 1 1)
      = [nightlyIn "a"] := by decide +kernel
  have alone : (runAll step parallelDaemon (touchedWhileRunning.take 4)).inFlight = [late] := by
    decide +kernel
  refine marks_runs parallelDaemon_opened rfl (by decide +kernel)
    ⟨fun _ => ?_, fun _ => trivial, fun _ => ?_, fun _ _ _ => trivial, fun _ thread _ _ => ?_, trivial⟩
  · rw [Guard.allows, early]
    trivial
  · change Along _ _ _ ((runAll step parallelDaemon (touchedWhileRunning.take 2)).changed
      (parallelHost 1 1))
    rw [later]
    refine ⟨⟨?_, ?_⟩, trivial⟩
    · unfold ownIds
      decide +kernel
    · unfold HoldsRuns
      decide +kernel
  · change (runAll step parallelDaemon (touchedWhileRunning.take 4)).inFlight.count _ ≤ 1
    rw [alone]
    exact List.count_le_length

end Beez.Daemon
