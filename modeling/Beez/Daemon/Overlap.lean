import Beez.Daemon.Identity
import Mathlib.Data.List.InsertIdx

/-! # Runs of one job that do not overlap -/

open Beez.Lib

namespace Beez.Daemon

/-- The schedule of the job does not let its runs overlap. -/
def Job.isSerial (job : Job) : Bool := job.schedule.any (·.onOverlap ≠ .parallel)

/-- A run did not start while another run of its job went on, unless the schedule lets it. -/
def Happening.Apart : Happening → Prop
  | .started job run inFlight => job.isSerial = true → run.id ∉ inFlight
  | _ => True

instance : DecidablePred Happening.Apart
  | .started .. => inferInstanceAs (Decidable (_ → _))
  | .planned .. | .fired .. => .isTrue trivial

def NoOverlap (daemon : Daemon) : Prop := ∀ happening ∈ daemon.trace, happening.Apart

instance (daemon : Daemon) : Decidable (NoOverlap daemon) :=
  inferInstanceAs (Decidable (∀ happening ∈ daemon.trace, happening.Apart))

theorem planLines_apart {planned : List (Job × Option Plan)} :
    ∀ happening ∈ planLines planned, happening.Apart := by
  intro happening h
  obtain ⟨job, found, rfl⟩ := mem_planLines h
  trivial

/-! ## The running mark -/

/-- The mark that a run goes on is on every job whose runs may not overlap. -/
def Marked (daemon : Daemon) : Prop :=
  ∀ job ∈ daemon.jobs, job.isSerial = true → job.id ∈ daemon.inFlight → job.running = true

/-- A manifest that is read keeps the marks of its jobs: one that has a run in flight and may
not overlap is held, with its mark, when the manifest is read. -/
def KeepsMarks (host : Host) (daemon : Daemon) (watched : Watched) : Prop :=
  ∀ job ∈ jobsOf host.load watched daemon.states, job.isSerial = true →
    job.id ∈ daemon.inFlight → ∃ old ∈ daemon.jobs, old.id = job.id ∧ old.running = true

/-- A run that ends is the only one in flight of a job whose runs may not overlap. -/
def EndsAlone (daemon : Daemon) (thread : RunThread) : Prop :=
  ∀ job ∈ daemon.jobs, job.id = thread.run.id → job.isSerial = true →
    daemon.inFlight.count thread.run.id ≤ 1

def keepsMarks : Guard where
  read := fun host daemon watched => ownIds.read host daemon watched ∧ KeepsMarks host daemon watched
  added := KeepsMarks
  removed := fun _ _ => True
  ended := EndsAlone
  loads := fun _ _ => True

section

variable {daemon after : Daemon} {host : Host} {job : Job} {index : Nat}

theorem Marked.idle (marked : Marked daemon) (found : daemon.jobs[index]? = some job)
    (serial : job.isSerial = true) (idle : job.running = false) : job.id ∉ daemon.inFlight := by
  intro hmem
  rw [marked job (List.mem_of_getElem? found) serial hmem] at idle
  cases idle

theorem inFlight_start (found : daemon.jobs[index]? = some job) (fire : Int) :
    (daemon.start index fire).inFlight = daemon.inFlight ++ [job.id] := by
  rw [start_of_found found]
  simp [inFlight, runOf]

theorem inFlight_settle {thread : Nat} {id : Text} {outcome : RunOutcome} :
    (daemon.settle host thread id outcome).inFlight = daemon.inFlight.eraseIdx thread := by
  cases here : daemon.position id with
  | none =>
    rw [settle_of_none here]
    exact (List.eraseIdx_map _ _ _).symm
  | some position =>
    obtain ⟨job, found, -⟩ := found_of_position here
    rw [settle_of_found here found]
    exact (List.eraseIdx_map _ _ _).symm

theorem inFlight_load (thread : Nat) (content : Except Text Manifest) :
    (daemon.load thread content).inFlight = daemon.inFlight := by
  unfold inFlight load
  exact map_modify_of_same fun _ => rfl

theorem Marked.set {fewer : List Text} {other : Job} (marked : Marked daemon)
    (distinct : (ids daemon.jobs).Nodup) (found : daemon.jobs[index]? = some job)
    (fewerRuns : ∀ id ∈ fewer, id ∈ daemon.inFlight ∨ id = job.id)
    (mark : other.isSerial = true → other.id ∈ fewer → other.running = true) :
    ∀ held ∈ daemon.jobs.set index other, held.isSerial = true → held.id ∈ fewer →
      held.running = true := by
  intro held hheld serial going
  rcases mem_set_of_found distinct found hheld with rfl | ⟨hmem, hne⟩
  · exact mark serial going
  · rcases fewerRuns held.id going with hflight | hid
    · exact marked held hmem serial hflight
    · exact absurd hid hne

theorem Marked.start (marked : Marked daemon) (distinct : (ids daemon.jobs).Nodup)
    (found : daemon.jobs[index]? = some job) (time : Int) : Marked (daemon.start index time) := by
  have hjobs := congrArg Daemon.jobs (start_of_found found time)
  unfold Marked
  rw [hjobs, inFlight_start found]
  refine marked.set distinct found (fun id hid => by simpa using hid) fun _ _ => rfl

theorem Marked.settle {thread : RunThread} (marked : Marked daemon)
    (distinct : (ids daemon.jobs).Nodup) (here : daemon.threads[index]? = some thread)
    (alone : EndsAlone daemon thread) (outcome : RunOutcome) :
    Marked (daemon.settle host index thread.run.id outcome) := by
  unfold Marked
  rw [inFlight_settle]
  have fewer : ∀ id ∈ daemon.inFlight.eraseIdx index, id ∈ daemon.inFlight :=
    fun id hid => List.mem_of_mem_eraseIdx hid
  cases position : daemon.position thread.run.id with
  | none =>
    rw [settle_of_none position]
    exact fun job hjob serial going => marked job hjob serial (fewer _ going)
  | some position =>
    obtain ⟨job, found, hid⟩ := found_of_position position
    rw [settle_of_found position found]
    refine marked.set distinct found (fun id hid => .inl (fewer id hid)) fun serial going => ?_
    have once := alone job (List.mem_of_getElem? found) hid serial
    have twice := (mem_eraseIdx_self (by simp [inFlight, here])).mp (hid ▸ going)
    omega

/-- A fire starts a run beside another one only if the schedule lets it. -/
theorem idle_of_actionFor (starts : daemon.actionFor job = .start) (serial : job.isSerial = true) :
    job.running = false := by
  unfold actionFor at starts
  split at starts
  · cases starts
  · split at starts
    · rename_i idle
      simpa using idle
    · unfold Job.isSerial at serial
      cases hschedule : job.schedule with
      | none => simp [hschedule] at serial
      | some schedule =>
        rw [hschedule] at starts serial
        cases hoverlap : schedule.onOverlap <;> simp [hoverlap] at starts serial

theorem NoOverlap.start (fine : NoOverlap daemon) (marked : Marked daemon)
    (found : daemon.jobs[index]? = some job) (idle : job.running = false) (time : Int) :
    NoOverlap (daemon.start index time) := by
  unfold NoOverlap
  rw [start_of_found found]
  refine List.forall_mem_append.mpr ⟨fine, ?_⟩
  rw [List.forall_mem_singleton]
  exact fun serial => marked.idle found serial idle

end

/-! ## What keeps the marks -/

section

variable [CronCrate] {daemon after : Daemon} {host : Host} {job : Job} {index : Nat}

theorem Marked.install {watched : Watched} (marked : Marked daemon)
    (distinct : (ids daemon.jobs).Nodup) (keeps : KeepsMarks host daemon watched) :
    Marked (reload host daemon watched) := by
  intro held hheld serial going
  rcases List.mem_append.mp hheld with hkept | hfresh
  · exact marked held (List.mem_of_mem_filter hkept) serial going
  · obtain ⟨planned, hplanned, rfl⟩ := List.mem_map.mp hfresh
    obtain ⟨job, hjob, rfl⟩ := List.mem_map.mp hplanned
    rw [planFresh_eq, carry_eq] at serial going
    obtain ⟨old, hold, hid, running⟩ := keeps job hjob serial going
    rw [planFresh_eq, carry_of_mem distinct hold hid]
    exact running

theorem inFlight_fire (found : daemon.jobs[index]? = some job) (host : Host) :
    daemon.actionFor job ≠ .start ∧ (fire host daemon index).inFlight = daemon.inFlight ∨
      daemon.actionFor job = .start ∧
        (fire host daemon index).inFlight = daemon.inFlight ++ [job.id] := by
  rw [fire_of_found found]
  cases daemon.actionFor job with
  | start =>
    refine .inr ⟨rfl, ?_⟩
    simp [inFlight, Action.threads, runOf]
  | queue reason => exact .inl ⟨by simp, by simp [inFlight, Action.threads]⟩
  | skip => exact .inl ⟨by simp, by simp [inFlight, Action.threads]⟩

theorem Marked.fire (marked : Marked daemon) (distinct : (ids daemon.jobs).Nodup)
    (found : daemon.jobs[index]? = some job) : Marked (fire host daemon index) := by
  have hjobs := congrArg Daemon.jobs (fire_of_found found host)
  unfold Marked
  rw [hjobs]
  refine marked.set distinct found (fun id hid => ?_) fun serial going => ?_
  · rcases inFlight_fire found host with ⟨-, same⟩ | ⟨-, more⟩
    · exact .inl (same ▸ hid)
    · simpa [more] using hid
  · rw [plan_eq] at serial going ⊢
    refine (Action.on_running _ _).mpr ?_
    rcases inFlight_fire found host with ⟨-, same⟩ | ⟨starts, -⟩
    · refine .inr (marked job (List.mem_of_getElem? found) ?_ ?_)
      · simpa [Job.isSerial, Job.movedOn] using serial
      · simpa [same] using going
    · exact .inl starts

theorem move_marked (move : Move keepsMarks host daemon after) (distinct : (ids daemon.jobs).Nodup)
    (marked : Marked daemon) : Marked after := by
  cases move with
  | reload watched allowed => exact marked.install distinct allowed.2
  | add watched allowed _ => exact marked.install distinct allowed
  | retain keep => exact fun job hjob => marked job (List.mem_of_mem_filter hjob)
  | remove manifest _ => exact fun job hjob => marked job (List.mem_of_mem_filter hjob)
  | fire _ found _ => exact marked.fire distinct found
  | startWaiting _ _ found _ => exact marked.start distinct found _
  | trigger _ found _ _ => exact marked.start distinct found _
  | settle found alone outcome => exact marked.settle distinct found alone outcome
  | hold here paused =>
    obtain ⟨job, found, -⟩ := found_of_position here
    rw [hold_of_found found]
    refine marked.set distinct found (fun id hid => .inl hid) fun serial going => ?_
    rw [plan_eq] at serial going ⊢
    exact marked job (List.mem_of_getElem? found) serial going
  | load thread content _ =>
    unfold Marked
    rw [inFlight_load]
    exact marked
  | rest => exact marked

/-! ## What starts -/

theorem NoOverlap.fire (fine : NoOverlap daemon) (marked : Marked daemon)
    (found : daemon.jobs[index]? = some job) : NoOverlap (fire host daemon index) := by
  unfold NoOverlap
  rw [fire_of_found found]
  refine List.forall_mem_append.mpr ⟨List.forall_mem_append.mpr
    ⟨List.forall_mem_append.mpr ⟨fine, ?_⟩, ?_⟩, planLines_apart⟩
  · rw [List.forall_mem_singleton]
    trivial
  · cases starts : daemon.actionFor job with
    | start =>
      unfold Action.lines
      rw [List.forall_mem_singleton]
      intro (serial : job.isSerial = true)
      have free : job.id ∉ daemon.inFlight :=
        marked.idle found serial (idle_of_actionFor starts serial)
      exact free
    | queue reason => exact List.forall_mem_nil _
    | skip => exact List.forall_mem_nil _

theorem move_noOverlap (move : Move keepsMarks host daemon after) (marked : Marked daemon)
    (fine : NoOverlap daemon) : NoOverlap after := by
  cases move with
  | reload watched _ => exact List.forall_mem_append.mpr ⟨fine, planLines_apart⟩
  | add watched _ _ => exact List.forall_mem_append.mpr ⟨fine, planLines_apart⟩
  | retain keep => exact fine
  | remove manifest _ => exact fine
  | fire _ found _ => exact fine.fire marked found
  | startWaiting _ _ found waits =>
    refine fine.start marked found ?_ _
    simp only [mayStart, Bool.and_eq_true, Bool.not_eq_true'] at waits
    exact waits.2
  | trigger _ found _ idle => exact fine.start marked found idle _
  | @settle index thread _ _ outcome =>
    cases position : daemon.position thread.run.id with
    | none => rwa [settle_of_none position]
    | some position =>
      obtain ⟨job, found, -⟩ := found_of_position position
      rwa [settle_of_found position found]
  | hold here paused =>
    obtain ⟨job, found, -⟩ := found_of_position here
    rw [hold_of_found found]
    exact List.forall_mem_append.mpr ⟨fine, planLines_apart⟩
  | load _ _ _ => exact fine
  | rest => exact fine

/-- What holds of a daemon whose jobs keep their marks. -/
structure Tracked (daemon : Daemon) : Prop where
  distinct : (ids daemon.jobs).Nodup
  marked : Marked daemon
  apart : NoOverlap daemon

theorem move_tracked (move : Move keepsMarks host daemon after) (tracked : Tracked daemon) :
    Tracked after :=
  ⟨move_distinct move (fun _ allowed => allowed.left) tracked.distinct,
    move_marked move tracked.distinct tracked.marked, move_noOverlap move tracked.marked tracked.apart⟩

/-- As long as every job that may not overlap keeps its running mark while it is read again, no
run of it starts beside another one. -/
theorem no_overlap {root : Path} {limit : Nat} {files : Files} {registry : Registry}
    {inputs : List Input} (opened : openDaemon host root limit files = some daemon)
    (listed : files.registry = .ok registry) (distinct : (listedIds host.load registry).Nodup)
    (kept : keepsMarks.AllowsAll daemon inputs) : NoOverlap (runAll step daemon inputs) := by
  obtain ⟨idle, planned, silent⟩ := openDaemon_fresh opened
  have start : Tracked daemon := by
    refine ⟨openDaemon_ids opened listed ▸ distinct, fun job _ _ going => ?_, ?_⟩
    · simp [inFlight, idle] at going
    · unfold NoOverlap
      rw [silent]
      exact planLines_apart
  exact (kept.keeps (fun _ _ _ move => move_tracked move) start).apart

end

/-! ## A manifest that breaks while its job runs -/

def nightly : Registry := ⟨[nightlyIn "a"]⟩

def late : Text := "nightly:late".toList

/-- The manifest names its schedule, which fires in a minute. -/
def lateHost (now changed : Int) : Host :=
  hostAt now changed fun _ => oneTask (oneTime (some "late".toList) 60000000000)

def nightlyDaemon : Daemon :=
  (@openDaemon .unused (lateHost 0 0) ["root"] 2 ⟨.ok nightly, ⟨[]⟩⟩).get (by decide +kernel)

theorem nightlyDaemon_opened :
    @openDaemon .unused (lateHost 0 0) ["root"] 2 ⟨.ok nightly, ⟨[]⟩⟩ = some nightlyDaemon :=
  (Option.some_get _).symm

/-- The job is triggered, its manifest breaks, the manifest is mended, and the job is triggered
again. -/
def brokenAndMended : List Input :=
  [.pass (lateHost 0 0), .command (lateHost 0 0) (.trigger late),
    .pass (hostAt 1 1 fun _ => .error "invalid".toList), .timeout,
    .pass (lateHost 2 2), .command (lateHost 2 2) (.trigger late)]

theorem overlap_mended :
    @openDaemon .unused (lateHost 0 0) ["root"] 2 ⟨.ok nightly, ⟨[]⟩⟩ = some nightlyDaemon ∧
      (listedIds (lateHost 0 0).load nightly).Nodup ∧
      ¬ NoOverlap (@runAll _ _ (@step .unused) nightlyDaemon brokenAndMended) :=
  ⟨nightlyDaemon_opened, by decide +kernel, by decide +kernel⟩

/-- The manifest may be written again while its job runs. -/
theorem no_overlap_touched :
    NoOverlap (@runAll _ _ (@step .unused) nightlyDaemon
      [.pass (lateHost 0 0), .command (lateHost 0 0) (.trigger late), .pass (lateHost 1 1)]) := by
  let _ : CronCrate := .unused
  refine no_overlap nightlyDaemon_opened rfl (by decide +kernel)
    ⟨fun _ => ?_, fun _ => trivial, fun _ => ?_, trivial⟩
  · have unchanged : nightlyDaemon.changed (lateHost 0 0) = [] := by decide +kernel
    rw [Guard.allows, unchanged]
    trivial
  · have changed : ((nightlyDaemon.step (.pass (lateHost 0 0))).step
        (.command (lateHost 0 0) (.trigger late))).changed (lateHost 1 1) = [nightlyIn "a"] := by
      decide +kernel
    rw [Guard.allows, changed]
    refine ⟨⟨?_, ?_⟩, trivial⟩
    · unfold ownIds
      decide +kernel
    · unfold KeepsMarks
      decide +kernel

end Beez.Daemon
