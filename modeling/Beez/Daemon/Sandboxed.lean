import Beez.Daemon.Overlap

/-! # What a run may execute -/

open Beez.Core Beez.Lib

namespace Beez.Daemon

/-- The schedule of the job with `id` allows tasks without a sandbox. -/
def AllowsUnsandboxed (manifest : Manifest) (path : Path) (id : Text) : Prop :=
  ∃ schedule ∈ manifest.schedules, idOf (stem path) schedule = id ∧
    schedule.allowUnsandboxed = true

/-- A manifest lets the job with `id` run. -/
def Permits (manifest : Manifest) (path : Path) (id : Text) : Prop :=
  everyTaskSandboxed manifest = true ∨ AllowsUnsandboxed manifest path id

instance (manifest : Manifest) (path : Path) (id : Text) : Decidable (Permits manifest path id) :=
  inferInstanceAs (Decidable (_ ∨ ∃ schedule ∈ manifest.schedules, _ ∧ _))

/-- Every run that loaded its manifest loaded one that lets it run. -/
def RunsPermitted (daemon : Daemon) : Prop :=
  ∀ thread ∈ daemon.threads, ∀ manifest, thread.loaded = some (.ok manifest) →
    Permits manifest thread.run.manifest thread.run.id

/-- What a run loads takes away no sandbox and no permission that its job was built with. -/
def keepsSandboxes : Guard where
  read := fun _ _ _ => True
  added := fun _ _ _ => True
  removed := fun _ _ => True
  ended := fun _ _ => True
  loads := fun thread content => ∀ source manifest,
    thread.source = some source → content = .ok manifest →
      (everyTaskSandboxed source = true → everyTaskSandboxed manifest = true) ∧
        (AllowsUnsandboxed source thread.run.manifest thread.run.id →
          AllowsUnsandboxed manifest thread.run.manifest thread.run.id)

/-! ## What the check covers -/

/-- A job that may run was built from a manifest that lets it. -/
def Job.Checked (job : Job) : Prop :=
  job.error = none → ∃ manifest, job.source = some manifest ∧ Permits manifest job.manifest job.id

/-- A run came from a job that was built from a manifest that lets it. -/
def RunThread.Checked (thread : RunThread) : Prop :=
  ∃ manifest, thread.source = some manifest ∧ Permits manifest thread.run.manifest thread.run.id

theorem jobOf_checked {watched : Watched} {states : States} {manifest : Manifest}
    {schedule : JobSchedule} (hmem : schedule ∈ manifest.schedules) :
    (jobOf watched states manifest schedule).Checked := by
  intro whole
  refine ⟨manifest, rfl, ?_⟩
  simp only [jobOf, Job.new, ite_eq_right_iff, reduceCtorEq, imp_false, Bool.and_eq_true,
    Bool.not_eq_true', not_and, Bool.not_eq_false] at whole
  cases sandboxed : everyTaskSandboxed manifest with
  | true => exact .inl sandboxed
  | false => exact .inr ⟨schedule, hmem, rfl, whole sandboxed⟩

theorem jobsOf_checked (load : Path → Except Text Manifest) (watched : Watched) (states : States) :
    ∀ job ∈ jobsOf load watched states, job.Checked := by
  intro job hjob
  unfold jobsOf at hjob
  split at hjob
  · rw [List.mem_singleton] at hjob
    subst hjob
    exact nofun
  · split at hjob
    · rw [List.mem_singleton] at hjob
      subst hjob
      exact nofun
    · obtain ⟨schedule, hmem, rfl⟩ := List.mem_map.mp hjob
      exact jobOf_checked hmem

/-- What holds of a daemon whose runs load no less than their jobs were built with. -/
structure AllChecked (held : List Job) (going : List RunThread) : Prop where
  jobs : ∀ job ∈ held, job.Checked
  threads : ∀ thread ∈ going, thread.Checked
  permitted : ∀ thread ∈ going, ∀ manifest, thread.loaded = some (.ok manifest) →
    Permits manifest thread.run.manifest thread.run.id

section

variable {daemon after : Daemon} {host : Host} {job : Job} {index : Nat}

theorem AllChecked.set {other : Job} {jobs : List Job} {threads : List RunThread}
    (all : AllChecked jobs threads) (new : other.Checked) :
    AllChecked (jobs.set index other) threads := by
  refine ⟨fun job hjob => ?_, all.threads, all.permitted⟩
  rcases List.mem_or_eq_of_mem_set hjob with hold | rfl
  · exact all.jobs job hold
  · exact new

theorem AllChecked.append {jobs : List Job} {threads started : List RunThread}
    (all : AllChecked jobs threads)
    (fresh : ∀ thread ∈ started, thread.Checked ∧ thread.loaded = none) :
    AllChecked jobs (threads ++ started) := by
  refine ⟨all.jobs, List.forall_mem_append.mpr ⟨all.threads, fun thread h => (fresh thread h).1⟩,
    List.forall_mem_append.mpr ⟨all.permitted, fun thread h manifest loaded => ?_⟩⟩
  rw [(fresh thread h).2] at loaded
  cases loaded

theorem threads_checked (checked : job.Checked) (whole : job.error = none) (fire : Int)
    (action : Action) : ∀ thread ∈ action.threads (daemon.runOf job fire) job.source,
      thread.Checked ∧ thread.loaded = none := by
  cases action with
  | start => exact List.forall_mem_singleton.mpr ⟨checked whole, rfl⟩
  | queue reason => exact List.forall_mem_nil _
  | skip => exact List.forall_mem_nil _

theorem on_checked (checked : job.Checked) (action : Action) : (action.on job).Checked := by
  cases action <;> exact checked

theorem AllChecked.start (all : AllChecked daemon.jobs daemon.threads)
    (found : daemon.jobs[index]? = some job) (whole : job.error = none) (time : Int) :
    AllChecked (daemon.start index time).jobs (daemon.start index time).threads := by
  have checked := all.jobs job (List.mem_of_getElem? found)
  rw [start_of_found found]
  have started : Job.Checked { job with running := true, queued := false } := checked
  exact (all.set started).append (threads_checked checked whole time .start)

theorem AllChecked.settle (all : AllChecked daemon.jobs daemon.threads) (thread : Nat) (id : Text)
    (outcome : RunOutcome) : AllChecked (daemon.settle host thread id outcome).jobs
      (daemon.settle host thread id outcome).threads := by
  have left : AllChecked daemon.jobs (daemon.threads.eraseIdx thread) :=
    ⟨all.jobs, fun t h => all.threads t (List.mem_of_mem_eraseIdx h),
      fun t h => all.permitted t (List.mem_of_mem_eraseIdx h)⟩
  cases position : daemon.position id with
  | none =>
    rw [settle_of_none position]
    exact left
  | some position =>
    obtain ⟨job, found, -⟩ := found_of_position position
    rw [settle_of_found position found]
    have ended : (job.ended outcome).Checked := all.jobs job (List.mem_of_getElem? found)
    exact left.set ended

theorem AllChecked.load (all : AllChecked daemon.jobs daemon.threads) {content : Except Text Manifest}
    (kept : ∀ thread, daemon.threads[index]? = some thread → keepsSandboxes.loads thread content) :
    AllChecked (daemon.load index content).jobs (daemon.load index content).threads := by
  refine ⟨all.jobs, fun thread hthread => ?_, fun thread hthread manifest loaded => ?_⟩
  · rcases mem_modify hthread with hold | ⟨before, found, rfl⟩
    · exact all.threads thread hold
    · exact all.threads before (List.mem_of_getElem? found)
  · rcases mem_modify hthread with hold | ⟨before, found, rfl⟩
    · exact all.permitted thread hold manifest loaded
    · have hbefore := List.mem_of_getElem? found
      cases earlier : before.loaded with
      | some content =>
        simp only [earlier, Option.getD_some, Option.some.injEq] at loaded
        exact all.permitted before hbefore manifest (loaded ▸ earlier)
      | none =>
        simp only [earlier, Option.getD_none, Option.some.injEq] at loaded
        obtain ⟨source, hsource, permits⟩ := all.threads before hbefore
        obtain ⟨sandboxed, allowed⟩ := kept before found source manifest hsource loaded
        exact permits.imp sandboxed allowed

end

/-! ## What keeps the check -/

section

variable [CronCrate] {daemon after : Daemon} {host : Host} {job : Job} {index : Nat}

theorem plan_checked (checked : job.Checked) (now : Int) (allowCatchUp : Bool) :
    (plan job now allowCatchUp).1.Checked := by
  rw [plan_eq]
  exact checked

theorem AllChecked.install (all : AllChecked daemon.jobs daemon.threads) (watched : Watched) :
    AllChecked (reload host daemon watched).jobs (reload host daemon watched).threads := by
  refine ⟨fun held hheld => ?_, all.threads, all.permitted⟩
  rcases List.mem_append.mp hheld with hkept | hfresh
  · exact all.jobs held (List.mem_of_mem_filter hkept)
  · obtain ⟨planned, hplanned, rfl⟩ := List.mem_map.mp hfresh
    obtain ⟨job, hjob, rfl⟩ := List.mem_map.mp hplanned
    rw [planFresh_eq, carry_eq]
    exact jobsOf_checked host.load watched daemon.states job hjob

theorem AllChecked.fire (all : AllChecked daemon.jobs daemon.threads)
    (found : daemon.jobs[index]? = some job) (due : isDue host.now job = true) :
    AllChecked (fire host daemon index).jobs (fire host daemon index).threads := by
  have whole : job.error = none := by
    simp only [isDue, Job.isReady, Bool.and_eq_true, Option.isNone_iff_eq_none] at due
    exact due.1.1.1
  have moved : (job.movedOn (job.nextFire.getD host.now)).Checked :=
    all.jobs job (List.mem_of_getElem? found)
  rw [fire_of_found found]
  have planned := plan_checked (on_checked moved (daemon.actionFor job)) host.now false
  exact (all.set planned).append (threads_checked moved whole _ _)

theorem move_checked (move : Move keepsSandboxes host daemon after)
    (all : AllChecked daemon.jobs daemon.threads) : AllChecked after.jobs after.threads := by
  cases move with
  | reload watched _ => exact all.install watched
  | add watched _ _ => exact all.install watched
  | retain keep =>
    exact ⟨fun job hjob => all.jobs job (List.mem_of_mem_filter hjob), all.threads, all.permitted⟩
  | remove manifest _ =>
    exact ⟨fun job hjob => all.jobs job (List.mem_of_mem_filter hjob), all.threads, all.permitted⟩
  | fire _ found due => exact all.fire found due
  | startWaiting _ _ found waits =>
    refine all.start found ?_ _
    simp only [mayStart, Job.isReady, Bool.and_eq_true, Option.isNone_iff_eq_none] at waits
    exact waits.1.2.1.1
  | trigger _ found whole _ => exact all.start found whole _
  | settle _ _ outcome => exact all.settle _ _ outcome
  | hold here paused =>
    obtain ⟨job, found, -⟩ := found_of_position here
    rw [hold_of_found found]
    have held : (job.held paused).Checked := all.jobs job (List.mem_of_getElem? found)
    exact all.set (plan_checked held host.now false)
  | load index content kept => exact all.load kept
  | rest => exact all

/-- As long as no edit between the check and the run takes a sandbox or a permission away, no run
executes a task without a sandbox that its schedule does not allow. -/
theorem runs_permitted {root : Path} {limit : Nat} {files : Files} {inputs : List Input}
    (opened : openDaemon host root limit files = some daemon)
    (kept : keepsSandboxes.AllowsAll daemon inputs) : RunsPermitted (runAll step daemon inputs) := by
  have start : AllChecked daemon.jobs daemon.threads := by
    obtain ⟨idle, -⟩ := openDaemon_fresh opened
    obtain ⟨registry, states, -, -, -, hjobs⟩ := openDaemon_built opened
    refine ⟨fun job hjob => ?_, by simp [idle], by simp [idle]⟩
    obtain ⟨fresh, hfresh, rfl⟩ := List.mem_map.mp (hjobs ▸ hjob)
    obtain ⟨watched, -, hfresh⟩ := List.mem_flatMap.mp hfresh
    exact plan_checked (jobsOf_checked host.load watched states fresh hfresh) host.now true
  exact (kept.keeps (fun _ _ _ move => move_checked move) start).permitted

end

/-! ## A manifest that is edited between the check and the run -/

def plainSandbox : SandboxPolicy :=
  ⟨⟨⟨none, [], []⟩, [], none⟩, ⟨none, [], [], []⟩, none⟩

def strictSchedule : JobSchedule := { oneTime none 60000000000 with allowUnsandboxed := false }

def strictManifest (sandbox : Option SandboxPolicy) : Except Text Manifest :=
  Manifest.ofDocument ⟨[.ok strictSchedule], .ok [{ backupTask with sandbox := sandbox }]⟩

def strictHost : Host := hostAt 0 0 fun _ => strictManifest (some plainSandbox)

def strictDaemon : Daemon :=
  (@openDaemon .unused strictHost ["root"] 2 ⟨.ok nightly, ⟨[]⟩⟩).get (by decide +kernel)

theorem strictDaemon_opened :
    @openDaemon .unused strictHost ["root"] 2 ⟨.ok nightly, ⟨[]⟩⟩ = some strictDaemon :=
  (Option.some_get _).symm

/-- The job is triggered, and its run reads `content`. -/
def triggeredThenRead (content : Except Text Manifest) : List Input :=
  [.pass strictHost, .command strictHost (.trigger "nightly".toList), .loads 0 content]

/-- The content that the first run loaded, unless it may run. -/
def refused (daemon : Daemon) : Bool :=
  daemon.threads.any fun thread => match thread.loaded with
    | some (.ok manifest) => !decide (Permits manifest thread.run.manifest thread.run.id)
    | _ => false

theorem not_runsPermitted {daemon : Daemon} (h : refused daemon = true) : ¬ RunsPermitted daemon := by
  intro permitted
  obtain ⟨thread, hthread, h⟩ := List.any_eq_true.mp h
  split at h
  · rename_i manifest loaded
    simp [permitted thread hthread manifest loaded] at h
  · cases h

theorem runs_unsandboxed :
    @openDaemon .unused strictHost ["root"] 2 ⟨.ok nightly, ⟨[]⟩⟩ = some strictDaemon ∧
      ¬ RunsPermitted (@runAll _ _ (@step .unused) strictDaemon
        (triggeredThenRead (strictManifest none))) :=
  ⟨strictDaemon_opened, not_runsPermitted (by decide +kernel)⟩

theorem runs_permitted_unedited :
    RunsPermitted (@runAll _ _ (@step .unused) strictDaemon
      (triggeredThenRead (strictManifest (some plainSandbox)))) := by
  let _ : CronCrate := .unused
  refine runs_permitted strictDaemon_opened ⟨fun _ => ?_, fun _ => trivial, fun _ => ?_, trivial⟩
  · have unchanged : strictDaemon.changed strictHost = [] := by decide +kernel
    rw [Guard.allows, unchanged]
    trivial
  · have built : (((strictDaemon.step (.pass strictHost)).step
        (.command strictHost (.trigger "nightly".toList))).threads[0]?).map (·.source) =
          some (strictManifest (some plainSandbox)).toOption := by decide +kernel
    intro thread found source manifest hsource loaded
    rw [found, loaded] at built
    have same : source = manifest := by simpa [Except.toOption, hsource] using built
    subst same
    exact ⟨id, id⟩

end Beez.Daemon
