import Beez.Daemon.Sandboxed

/-! # Fires that come late -/

open Beez.Core Beez.Lib

namespace Beez.Daemon

/-- No fire is planned for a job that may not fire. -/
def Unplanned (daemon : Daemon) : Prop :=
  ∀ job ∈ daemon.jobs, job.isReady = false → job.nextFire = none

/-- No job with the ID and the manifest of `job` could fire before. -/
def Slept (before : Daemon) (job : Job) : Prop :=
  ∀ old ∈ before.jobs, old.id = job.id → old.manifest = job.manifest → old.isReady = false

/-- A job that could not fire before has its next fire after `now`. -/
def WakesLater (now : Int) (before after : Daemon) : Prop :=
  ∀ job ∈ after.jobs, Slept before job → ∀ next, job.nextFire = some next → now < next

/-- A manifest that is read hands a planned fire over to a job that may fire only. The fire of a
job of another manifest is still to come. -/
def HandsOver (host : Host) (daemon : Daemon) (watched : Watched) : Prop :=
  ∀ job ∈ jobsOf host.load watched daemon.states, ∀ old, daemon.jobs.find? (·.id = job.id) = some old →
    old.schedule = job.schedule → ∀ fire, old.nextFire = some fire →
      job.isReady = true ∧ (old.manifest = watched.path ∨ host.now < fire)

def handsOver : Guard where
  read := HandsOver
  added := HandsOver
  removed := fun _ _ => True
  ended := fun _ _ => True
  loads := fun _ _ => True

/-! ## Planning -/

section

variable [CronCrate] {job : Job} {now : Int}

theorem plan_of_unready (unready : job.isReady = false) (allowCatchUp : Bool) :
    (plan job now allowCatchUp).1.nextFire = none := by
  have same : Job.isReady { job with nextFire := none } = false := unready
  unfold plan
  simp [same]

theorem plan_later [CronCrate.Lawful ‹CronCrate›] {next : Int}
    (h : (plan job now false).1.nextFire = some next) : now < next := by
  unfold plan at h
  dsimp only at h
  split at h
  · cases h
  · split at h
    · cases h
    · split at h
      · cases h
      · split at h
        · rename_i later
          simp only [Option.some.injEq] at h
          omega
        · simp only [Bool.false_and, Bool.false_eq_true, if_false] at h
          exact Schedule.lt_of_nextAfter h

@[simp] theorem plan_isReady (allowCatchUp : Bool) :
    (plan job now allowCatchUp).1.isReady = job.isReady := by
  rw [plan_eq]
  rfl

end

/-! ## What one move keeps -/

/-- No fire is planned for a job that may not fire, and the jobs that could not fire before have
their next fires after `now`. -/
structure Planned (now : Int) (before daemon : Daemon) : Prop where
  unplanned : Unplanned daemon
  wakes : WakesLater now before daemon

section

variable {before daemon after : Daemon} {host : Host} {job : Job} {index : Nat} {now : Int}

theorem Planned.refl (unplanned : Unplanned daemon) : Planned now daemon daemon := by
  refine ⟨unplanned, fun job hjob slept next due => ?_⟩
  rw [unplanned job hjob (slept job hjob rfl rfl)] at due
  cases due

theorem Planned.set (planned : Planned now before daemon) (found : daemon.jobs[index]? = some job)
    {other : Job} (sameId : other.id = job.id) (sameManifest : other.manifest = job.manifest)
    (unready : other.isReady = false → other.nextFire = none)
    (later : ∀ next, other.nextFire = some next → other.nextFire = job.nextFire ∨ now < next) :
    Planned now before { daemon with jobs := daemon.jobs.set index other } := by
  refine ⟨fun held hheld => ?_, fun held hheld slept next due => ?_⟩
  · rcases List.mem_or_eq_of_mem_set hheld with hmem | rfl
    · exact planned.unplanned held hmem
    · exact unready
  · rcases List.mem_or_eq_of_mem_set hheld with hmem | rfl
    · exact planned.wakes held hmem slept next due
    · rcases later next due with same | later
      · apply planned.wakes job (List.mem_of_getElem? found) _ next (same ▸ due)
        intro old hold hid hmanifest
        exact slept old hold (hid.trans sameId.symm) (hmanifest.trans sameManifest.symm)
      · exact later

theorem Planned.filter (planned : Planned now before daemon) (keep : Job → Bool) :
    Planned now before { daemon with jobs := daemon.jobs.filter keep } :=
  ⟨fun job hjob => planned.unplanned job (List.mem_of_mem_filter hjob),
    fun job hjob => planned.wakes job (List.mem_of_mem_filter hjob)⟩

theorem Planned.start (planned : Planned now before daemon)
    (found : daemon.jobs[index]? = some job) (fire : Int) :
    Planned now before (daemon.start index fire) := by
  have started : Planned now before { daemon with
      jobs := daemon.jobs.set index { job with running := true, queued := false } } :=
    planned.set found rfl rfl (planned.unplanned job (List.mem_of_getElem? found))
      fun _ _ => .inl rfl
  rw [start_of_found found]
  exact ⟨started.unplanned, started.wakes⟩

theorem Planned.settle (planned : Planned now before daemon) (thread : Nat) (id : Text)
    (outcome : RunOutcome) : Planned now before (daemon.settle host thread id outcome) := by
  cases here : daemon.position id with
  | none =>
    rw [settle_of_none here]
    exact ⟨planned.unplanned, planned.wakes⟩
  | some position =>
    obtain ⟨job, found, -⟩ := found_of_position here
    have ended : Planned now before { daemon with
        jobs := daemon.jobs.set position (job.ended outcome) } :=
      planned.set found rfl rfl (planned.unplanned job (List.mem_of_getElem? found))
        fun _ _ => .inl rfl
    rw [settle_of_found here found]
    exact ⟨ended.unplanned, ended.wakes⟩

theorem carry_handed {watched : Watched} (planned : Planned host.now before daemon)
    (hands : HandsOver host daemon watched)
    (hjob : job ∈ jobsOf host.load watched daemon.states) {next : Int}
    (due : (carry daemon.jobs job).nextFire = some next) :
    job.isReady = true ∧ (Slept before job → host.now < next) := by
  have fresh := (jobsOf_new hjob).2
  unfold carry at due
  split at due
  · rw [fresh] at due
    cases due
  · rename_i old hold
    dsimp only at due
    split at due
    · rename_i same
      obtain ⟨ready, handed⟩ := hands job hjob old hold same next due
      have hid : old.id = job.id := by simpa using List.find?_some hold
      refine ⟨ready, fun slept => ?_⟩
      rcases handed with own | later
      · apply planned.wakes old (List.mem_of_find?_eq_some hold) _ next due
        intro other hother sameId sameManifest
        apply slept other hother (sameId.trans hid)
        rw [sameManifest, own, jobsOf_manifest hjob]
      · exact later
    · rw [fresh] at due
      cases due

theorem carry_isReady (jobs : List Job) (job : Job) : (carry jobs job).isReady = job.isReady := by
  rw [carry_eq]
  rfl

variable [CronCrate]

theorem openDaemon_unplanned {root : Path} {limit : Nat} {files : Files}
    (opened : openDaemon host root limit files = some daemon) : Unplanned daemon := by
  obtain ⟨registry, states, -, -, -, hjobs⟩ := openDaemon_built opened
  intro job hjob unready
  rw [hjobs] at hjob
  obtain ⟨built, -, rfl⟩ := List.mem_map.mp hjob
  rw [plan_isReady] at unready
  exact plan_of_unready unready true

variable [CronCrate.Lawful ‹CronCrate›]

theorem Planned.replan (planned : Planned now before daemon)
    (found : daemon.jobs[index]? = some job) (other : Job) (sameId : other.id = job.id)
    (sameManifest : other.manifest = job.manifest) :
    Planned now before { daemon with jobs := daemon.jobs.set index (plan other now false).1 } := by
  apply planned.set found
  · simpa using sameId
  · simpa using sameManifest
  · intro unready
    rw [plan_isReady] at unready
    exact plan_of_unready unready false
  · exact fun next due => .inr (plan_later due)

theorem Planned.fire (planned : Planned host.now before daemon)
    (found : daemon.jobs[index]? = some job) :
    Planned host.now before (fire host daemon index) := by
  have moved : ∀ action : Action, (action.on (job.movedOn (job.nextFire.getD host.now))).manifest
      = job.manifest := by
    intro action
    cases action <;> rfl
  have again := planned.replan found ((daemon.actionFor job).on
    (job.movedOn (job.nextFire.getD host.now))) (by simp) (moved _)
  rw [fire_of_found found]
  exact ⟨again.unplanned, again.wakes⟩

theorem Planned.hold (planned : Planned host.now before daemon)
    (found : daemon.jobs[index]? = some job) (paused : Bool) :
    Planned host.now before
      (((daemon.holdJob index paused).saveState host index).planJob index host.now false) := by
  have again := planned.replan found (job.held paused) rfl rfl
  rw [hold_of_found found]
  exact ⟨again.unplanned, again.wakes⟩

theorem fresh_planned {watched : Watched} (planned : Planned host.now before daemon)
    (hands : HandsOver host daemon watched)
    (hjob : job ∈ jobsOf host.load watched daemon.states) :
    ((planFresh (carry daemon.jobs job) host.now).1.isReady = false →
        (planFresh (carry daemon.jobs job) host.now).1.nextFire = none) ∧
      (Slept before job → ∀ next,
        (planFresh (carry daemon.jobs job) host.now).1.nextFire = some next → host.now < next) := by
  unfold planFresh
  split
  · refine ⟨fun unready => ?_, fun _ next due => plan_later due⟩
    rw [plan_isReady] at unready
    exact plan_of_unready unready false
  · rename_i handed
    obtain ⟨fire, hfire⟩ := Option.ne_none_iff_exists'.mp (by simpa using handed)
    obtain ⟨ready, -⟩ := carry_handed planned hands hjob hfire
    refine ⟨fun unready => ?_, fun slept next due => (carry_handed planned hands hjob due).2 slept⟩
    rw [carry_isReady, ready] at unready
    cases unready

theorem Planned.install {watched : Watched} (planned : Planned host.now before daemon)
    (hands : HandsOver host daemon watched) :
    Planned host.now before (reload host daemon watched) := by
  have fresh : ∀ held ∈ ((jobsOf host.load watched daemon.states).map fun job =>
      planFresh (carry daemon.jobs job) host.now).map Prod.fst, ∃ job ∈
        jobsOf host.load watched daemon.states,
          held = (planFresh (carry daemon.jobs job) host.now).1 := by
    intro held hheld
    simp only [List.map_map, List.mem_map, Function.comp_apply] at hheld
    obtain ⟨job, hjob, rfl⟩ := hheld
    exact ⟨job, hjob, rfl⟩
  refine ⟨fun held hheld => ?_, fun held hheld slept => ?_⟩
  · rcases List.mem_append.mp hheld with hkept | hfresh
    · exact planned.unplanned held (List.mem_of_mem_filter hkept)
    · obtain ⟨job, hjob, rfl⟩ := fresh held hfresh
      exact (fresh_planned planned hands hjob).1
  · rcases List.mem_append.mp hheld with hkept | hfresh
    · exact planned.wakes held (List.mem_of_mem_filter hkept) slept
    · obtain ⟨job, hjob, rfl⟩ := fresh held hfresh
      apply (fresh_planned planned hands hjob).2
      rw [planFresh_eq, carry_eq] at slept
      exact slept

theorem move_planned (move : Move handsOver host daemon after)
    (planned : Planned host.now before daemon) : Planned host.now before after := by
  cases move with
  | reload watched allowed => exact planned.install allowed
  | add watched allowed _ => exact planned.install allowed
  | retain keep =>
    have kept := planned.filter fun job => keep job.manifest
    exact ⟨kept.unplanned, kept.wakes⟩
  | remove manifest _ =>
    have kept := planned.filter fun job => job.manifest ≠ manifest
    exact ⟨kept.unplanned, kept.wakes⟩
  | fire _ found _ => exact planned.fire found
  | startWaiting _ _ found _ => exact planned.start found _
  | trigger _ found _ _ => exact planned.start found _
  | settle _ _ outcome => exact planned.settle _ _ outcome
  | hold here paused =>
    obtain ⟨job, found, -⟩ := found_of_position here
    exact planned.hold found paused
  | load _ _ _ => exact ⟨planned.unplanned, planned.wakes⟩
  | rest => exact ⟨planned.unplanned, planned.wakes⟩

/-! ## Every history -/

theorem step_planned {input : Input} (unplanned : Unplanned daemon)
    (allowed : daemon.takes input = true → handsOver.allows daemon input) :
    Planned (input.host.getD default).now daemon (daemon.step input) := by
  have moves : Moves handsOver (input.host.getD default) daemon (daemon.step input) :=
    step_moves allowed fun other h => by rw [h]; rfl
  exact moves.keeps (fun _ _ move => move_planned move) (.refl unplanned)

/-- As long as a manifest that is read hands a planned fire over only to a job that may fire, and
none that passed from another manifest, no fire is planned for a job that may not, and a job that
may fire again has its next fire still to come. -/
theorem no_late_fire {root : Path} {limit : Nat} {files : Files} {inputs : List Input}
    (opened : openDaemon host root limit files = some daemon)
    (kept : handsOver.AllowsAll daemon inputs) :
    Unplanned (runAll step daemon inputs) ∧
      Along step (fun before input => ∀ host, input.host = some host →
        WakesLater host.now before (before.step input)) daemon inputs := by
  have keep : ∀ before input, Unplanned before →
      (before.takes input = true → handsOver.allows before input) →
      Unplanned (before.step input) :=
    fun _ _ unplanned allowed => (step_planned unplanned allowed).unplanned
  have start := openDaemon_unplanned opened
  refine ⟨runAll_invariant keep start kept, (kept.strengthen keep start).mono ?_⟩
  rintro before input ⟨unplanned, allowed⟩ own hown
  have planned := step_planned unplanned allowed
  rw [hown] at planned
  exact planned.wakes

end

/-! ## A manifest that loses its sandbox for a while -/

def sandboxedAt (now : Int) (sandbox : Option SandboxPolicy) : Host :=
  hostAt now now fun _ => strictManifest sandbox

/-- The task loses its sandbox before the job is due. -/
def lost : List Input := [.pass strictHost, .timeout, .pass (sandboxedAt 1 none), .timeout]

/-- It gets the sandbox back after the job was due. -/
def regained : Input := .pass (sandboxedAt 90000000000 (some plainSandbox))

theorem fires_late :
    @openDaemon .unused strictHost ["root"] 2 ⟨.ok nightly, ⟨[]⟩⟩ = some strictDaemon ∧
      ¬ Unplanned (@runAll _ _ (@step .unused) strictDaemon lost) ∧
      (@runAll _ _ (@step .unused) strictDaemon (lost ++ [regained])).threads.map
        (fun thread => (thread.run.id, thread.run.fire)) = [("nightly".toList, 60000000000)] := by
  refine ⟨strictDaemon_opened, fun unplanned => ?_, by decide +kernel⟩
  have planned : (@runAll _ _ (@step .unused) strictDaemon lost).jobs.any (fun job =>
      !job.isReady && job.nextFire.isSome) = true := by decide +kernel
  obtain ⟨job, hjob, h⟩ := List.any_eq_true.mp planned
  simp only [Bool.and_eq_true, Bool.not_eq_true'] at h
  rw [unplanned job hjob h.1] at h
  cases h.2

/-- The job is paused and let go again. -/
def heldBack : List Input :=
  [.pass strictHost, .command strictHost (.pause "nightly".toList), .pass strictHost,
    .command strictHost (.resume "nightly".toList)]

theorem no_late_fire_held :
    Unplanned (@runAll _ _ (@step .unused) strictDaemon heldBack) := by
  let _ : CronCrate := .unused
  have kept : handsOver.AllowsAll strictDaemon heldBack := by
    refine ⟨fun _ => ?_, fun _ => trivial, fun _ => ?_, fun _ => trivial, trivial⟩
    · have unchanged : strictDaemon.changed strictHost = [] := by decide +kernel
      rw [Guard.allows, unchanged]
      trivial
    · have unchanged : ((strictDaemon.step (.pass strictHost)).step
          (.command strictHost (.pause "nightly".toList))).changed strictHost = [] := by
        decide +kernel
      rw [Guard.allows, unchanged]
      trivial
  exact (no_late_fire strictDaemon_opened kept).1

end Beez.Daemon
