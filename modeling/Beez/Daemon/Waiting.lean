import Beez.Daemon.Dropped
import Beez.Daemon.Stopping
import Beez.Daemon.Watching

/-! # Fires that wait

A fire that cannot start waits. The daemon starts it when a run ends.
-/

open Beez.Lib

namespace Beez.Daemon

/-- A daemon that does not stop and has room leaves no fire waiting that it could start. -/
def NoneWaits (daemon : Daemon) : Prop :=
  daemon.stopping = false → daemon.threads.length < daemon.limit →
    ∀ job ∈ daemon.jobs, job.isReady = true → job.id ∉ daemon.inFlight → job.queued = false

instance (daemon : Daemon) : Decidable daemon.NoneWaits :=
  inferInstanceAs (Decidable (_ → _ → ∀ job ∈ daemon.jobs, _))

/-! ## What each event must leave alone -/

/-- The job has a run in flight, or there is no room for one. -/
def Occupied (daemon : Daemon) (job : Job) : Prop :=
  job.id ∈ daemon.inFlight ∨ daemon.limit ≤ daemon.threads.length

/-- No job that takes over a waiting fire from a read could start it, other than those `spared`. -/
def WakesNone (spared : Job → Prop) (host : Host) (daemon : Daemon) (watched : Watched) : Prop :=
  ∀ job ∈ jobsOf host.load watched daemon.states, job.isReady = true →
    (carry daemon.jobs job).queued = true →
      Occupied daemon job ∨ spared (carry daemon.jobs job)

/-- A fire that leaves its job waiting for the run whose mark it bears finds that run going on. -/
def WaitsForRun (daemon : Daemon) (index : Nat) : Prop :=
  ∀ job, daemon.jobs[index]? = some job → job.running = true →
    ((daemon.actionFor job).on job).queued = true → Occupied daemon job

/-- A job that the end of the run at `thread` is not told to, and whose fire waits for a run, has
another one. -/
def OthersGoOn (daemon : Daemon) (thread : Nat) (id : Text) : Prop :=
  ∀ index job, daemon.jobs[index]? = some job → daemon.position id ≠ some index →
    job.isReady = true → job.queued = true → job.running = true →
      job.id ∈ (daemon.threads.eraseIdx thread).map (·.run.id)

/-- The fire of a job whose hold ends does not wait, or could not start. -/
def ReleasesNone (daemon : Daemon) (id : Text) : Prop :=
  ∀ index job, daemon.position id = some index → daemon.jobs[index]? = some job →
    job.queued = true → (job.held false).isReady = true → Occupied daemon job

section

variable [CronCrate]

/-- The event makes no job ready whose fire waits and could start. -/
def Drains (daemon : Daemon) : Input → Prop
  | .pass host =>
    Along (reload host) (WakesNone (fun job => job.nextFire.any (· ≤ host.now) = true) host) daemon
        (daemon.changed host) ∧
      Along (fire host) WaitsForRun (daemon.rescan host) ((daemon.rescan host).due host.now)
  | .command host (.add manifest workingDirectory) =>
    let watched : Watched := ⟨manifest, workingDirectory⟩
    ∀ names, admitJobs (jobsOf host.load watched daemon.states) (daemon.othersIds watched) =
      .ok names → host.registryWrite = .ok () → WakesNone (fun _ => False) host daemon watched
  | .command host .reload =>
    Along (reload host) (WakesNone (fun _ => False) host) daemon.reloadRegistry
      daemon.reloadRegistry.registry.manifests
  | .command _ (.resume id) => ReleasesNone daemon id
  | .finished _ index _ =>
    ∀ thread, daemon.threads[index]? = some thread → thread.loaded.isSome = true →
      OthersGoOn daemon index thread.run.id
  | _ => True

end

/-! ## What each operation leaves waiting -/

/-- With room, a ready job whose fire waits has a run in flight or is `spared`. -/
def Drained (spared : Job → Prop) (daemon : Daemon) : Prop :=
  daemon.threads.length < daemon.limit →
    ∀ job ∈ daemon.jobs, job.isReady = true → job.queued = true →
      job.id ∈ daemon.inFlight ∨ spared job

theorem noneWaits_iff {daemon : Daemon} :
    NoneWaits daemon ↔ (daemon.stopping = false → Drained (fun _ => False) daemon) := by
  unfold NoneWaits Drained
  refine forall_congr' fun going => forall_congr' fun room => ?_
  refine forall_congr' fun job => forall_congr' fun mem => forall_congr' fun ready => ?_
  rw [or_false, ← not_imp_not, Bool.not_eq_false, not_not]

section

variable {daemon after : Daemon} {host : Host} {spared : Job → Prop} {job : Job} {index limit : Nat}

theorem Drained.of_same (drained : Drained spared daemon)
    (threads : after.inFlight = daemon.inFlight) (same : after.limit = daemon.limit)
    (jobs : ∀ job ∈ after.jobs, job ∈ daemon.jobs) : Drained spared after := by
  have length : after.threads.length = daemon.threads.length := by
    simpa [inFlight] using congrArg List.length threads
  intro room job hjob ready waits
  rw [threads]
  exact drained (by omega) job (jobs job hjob) ready waits

theorem Drained.start (drained : Drained spared daemon) (found : daemon.jobs[index]? = some job)
    (fire : Int) : Drained spared (daemon.start index fire) := by
  have flight := inFlight_start found fire
  rw [start_of_found found] at flight ⊢
  intro room other hother ready waits
  rw [flight]
  simp only [List.length_append, List.length_singleton] at room
  rcases List.mem_or_eq_of_mem_set hother with hmem | rfl
  · rcases drained (by omega) other hmem ready waits with hid | hspared
    · exact .inl (List.mem_append_left _ hid)
    · exact .inr hspared
  · cases waits

theorem trigger_drained (drained : Drained (fun _ => False) daemon) (id : Text) :
    Drained (fun _ => False) (daemon.trigger host id).2 := by
  rcases trigger_cases daemon host id with ⟨error, same, -⟩ | ⟨_, _, -, found, -, -, -, starts⟩
  · rw [same]
    exact drained
  · rw [starts]
    exact drained.start found host.now

/-- With room, a fire that does not start meets the mark of a run. -/
theorem running_of_actionFor (h : daemon.actionFor job ≠ .start)
    (room : daemon.running < daemon.limit) : job.running = true := by
  unfold actionFor at h
  rw [if_neg (by omega)] at h
  cases running : job.running with
  | true => rfl
  | false => simp [running] at h

/-! ### Starting what waits -/

/-- What starting one waiting fire after the other leaves as it was. -/
theorem startWaiting_rest (room : Nat) (now : Int) :
    (daemon.startWaiting now room).limit = daemon.limit ∧
      (∀ job ∈ (daemon.startWaiting now room).jobs, job.queued = true → job ∈ daemon.jobs) ∧
      ∀ id ∈ daemon.inFlight, id ∈ (daemon.startWaiting now room).inFlight := by
  induction room generalizing daemon with
  | zero => exact ⟨rfl, fun _ hjob _ => hjob, fun _ hid => hid⟩
  | succ room ih =>
    rw [startWaiting]
    split
    · exact ⟨rfl, fun _ hjob _ => hjob, fun _ hid => hid⟩
    · next position here =>
      obtain ⟨job, found, -⟩ := found_of_findIdx? here
      simp only [found, Option.bind_some]
      obtain ⟨hlimit, hjobs, hflight⟩ := @ih (daemon.start position (job.state.lastFire.getD now))
      refine ⟨?_, fun other hother waits => ?_, fun id hid => hflight id ?_⟩
      · rw [hlimit, start_of_found found]
      · have hmem := hjobs other hother waits
        rw [start_of_found found] at hmem
        rcases List.mem_or_eq_of_mem_set hmem with hmem | rfl
        · exact hmem
        · cases waits
      · rw [inFlight_start found]
        exact List.mem_append_left _ hid

/-- Room that is left was not needed. -/
theorem startWaiting_drains {room : Nat} (counted : Counted limit daemon)
    (enough : daemon.running + room = daemon.limit) (now : Int)
    (left : (daemon.startWaiting now room).threads.length < daemon.limit) :
    ∀ job ∈ (daemon.startWaiting now room).jobs, mayStart job = false := by
  induction room generalizing daemon with
  | zero =>
    have := counted.exact
    simp only [startWaiting] at left
    omega
  | succ room ih =>
    rw [startWaiting] at left ⊢
    split
    · next hnone =>
      intro job hjob
      simpa using List.findIdx?_eq_none_iff.mp hnone job hjob
    · next position here =>
      obtain ⟨job, found, -⟩ := found_of_findIdx? here
      simp only [here, found, Option.bind_some] at left ⊢
      have started := counted.start found (by omega) (job.state.lastFire.getD now)
      have hlimit : (daemon.start position (job.state.lastFire.getD now)).limit = daemon.limit := by
        rw [start_of_found found]
      have hrunning : (daemon.start position (job.state.lastFire.getD now)).running =
          daemon.running + 1 := by
        rw [start_of_found found]
      exact ih started (by omega) (by omega)

/-- A job that still waits after the free places are taken waits for a run that goes on. -/
theorem startQueued_drained (counted : Counted limit daemon) (going : daemon.stopping = false)
    (others : ∀ job ∈ daemon.jobs, job.isReady = true → job.queued = true → job.running = true →
      job.id ∈ daemon.inFlight) (now : Int) :
    Drained (fun _ => False) (daemon.startQueued now) := by
  unfold startQueued
  rw [if_neg (by simp [going])]
  intro left job hjob ready waits
  obtain ⟨hlimit, hjobs, hflight⟩ := @startWaiting_rest daemon (daemon.limit - daemon.running) now
  have within := counted.within
  rw [hlimit] at left
  have idle := startWaiting_drains counted (by omega) now left job hjob
  have running : job.running = true := by simpa [mayStart, ready, waits] using idle
  exact .inl (hflight _ (others job (hjobs job hjob waits) ready waits running))

theorem finished_drained {thread : RunThread} (counted : Counted limit daemon)
    (going : daemon.stopping = false) (found : daemon.threads[index]? = some thread)
    (others : OthersGoOn daemon index thread.run.id) (host : Host) (outcome : RunOutcome) :
    Drained (fun _ => False) (daemon.finished host index thread.run.id outcome) := by
  have settled : Counted limit (daemon.settle host index thread.run.id outcome) := by
    obtain ⟨hrunning, hlimit, -, hlength⟩ := settle_counts host thread.run.id found outcome
    obtain ⟨hexact, hwithin, hsame⟩ := counted
    constructor <;> omega
  unfold finished
  cases here : daemon.position thread.run.id with
  | none =>
    rw [settle_of_none here] at settled ⊢
    refine startQueued_drained settled going ?_ host.now
    intro job hjob ready waits running
    obtain ⟨position, hposition⟩ := List.mem_iff_getElem?.mp hjob
    exact others position job hposition (by simp [here]) ready waits running
  | some told =>
    obtain ⟨job, held, -⟩ := found_of_position here
    rw [settle_of_found here held] at settled ⊢
    refine startQueued_drained settled going ?_ host.now
    intro other hother ready waits running
    obtain ⟨position, hposition⟩ := List.mem_iff_getElem?.mp hother
    rcases getElem?_set_cases held hposition with ⟨rfl, rfl⟩ | ⟨hne, hposition⟩
    · cases running
    · exact others position other hposition (by simp [here, Ne.symm hne]) ready waits running

variable [CronCrate]

/-! ### Reading manifests, firing and holding -/

theorem Drained.reload {watched : Watched} (drained : Drained spared daemon)
    (planned : ∀ job, spared job → spared (planFresh job host.now).1)
    (wakes : WakesNone spared host daemon watched) : Drained spared (reload host daemon watched) := by
  intro room job hjob ready waits
  change job ∈ daemon.jobs.filter (·.manifest ≠ watched.path) ++ _ at hjob
  rcases List.mem_append.mp hjob with hjob | hjob
  · exact drained room job (List.mem_of_mem_filter hjob) ready waits
  · obtain ⟨_, hplanned, rfl⟩ := List.mem_map.mp hjob
    obtain ⟨fresh, hfresh, rfl⟩ := List.mem_map.mp hplanned
    have hready : fresh.isReady = true := by
      rw [planFresh_eq, carry_eq] at ready
      exact ready
    have hwaits : (carry daemon.jobs fresh).queued = true := by
      rw [planFresh_eq] at waits
      exact waits
    rw [planFresh_id, carry_id]
    rcases wakes fresh hfresh hready hwaits with (hid | hfull) | hspared
    · exact .inl hid
    · exact absurd room (Nat.not_lt.mpr hfull)
    · exact .inr (planned _ hspared)

theorem Drained.reloads (planned : ∀ job, spared job → spared (planFresh job host.now).1)
    (watched : List Watched) (drained : Drained spared daemon)
    (wakes : Along (Daemon.reload host) (WakesNone spared host) daemon watched) :
    Drained spared (runAll (Daemon.reload host) daemon watched) :=
  runAll_invariant (fun _ _ drained wakes => Drained.reload drained planned wakes) drained wakes

theorem Drained.hold {id : Text} (drained : Drained (fun _ => False) daemon)
    (here : daemon.position id = some index) (paused : Bool)
    (releases : paused = false → ReleasesNone daemon id) :
    Drained (fun _ => False)
      (((daemon.holdJob index paused).saveState host index).planJob index host.now false) := by
  obtain ⟨job, found, -⟩ := found_of_position here
  rw [hold_of_found found]
  intro room other hother ready waits
  rcases List.mem_or_eq_of_mem_set hother with hmem | rfl
  · exact drained room other hmem ready waits
  · rw [plan_eq] at ready waits ⊢
    left
    cases paused with
    | true => simp [Job.isReady, Job.held] at ready
    | false =>
      rcases releases rfl index job here found waits ready with hid | hfull
      · exact hid
      · exact absurd room (Nat.not_lt.mpr hfull)

/-- With room, a ready job whose fire waits has a run in flight or its own fire to come. -/
def DrainedAfter (due : List Nat) (daemon : Daemon) : Prop :=
  daemon.threads.length < daemon.limit →
    ∀ index job, daemon.jobs[index]? = some job → job.isReady = true → job.queued = true →
      job.id ∈ daemon.inFlight ∨ index ∈ due

theorem DrainedAfter.fire {due : List Nat} (counted : Counted limit daemon)
    (drained : DrainedAfter (index :: due) daemon) (found : daemon.jobs[index]? = some job)
    (waitsFor : WaitsForRun daemon index) : DrainedAfter due (Daemon.fire host daemon index) := by
  rw [fire_of_found found]
  intro room other otherJob hother ready waits
  have hroom : daemon.threads.length < daemon.limit := by
    simp only [List.length_append] at room
    omega
  have more : ∀ id ∈ daemon.inFlight, id ∈ (Daemon.fire host daemon index).inFlight := by
    intro id hid
    rcases inFlight_fire found host with ⟨-, same⟩ | ⟨-, same⟩
    · rwa [same]
    · rw [same]
      exact List.mem_append_left _ hid
  rw [fire_of_found found] at more
  rcases getElem?_set_cases found hother with ⟨rfl, rfl⟩ | ⟨hne, hother⟩
  · left
    rw [plan_eq] at waits ⊢
    have same : ∀ action : Action, (action.on (job.movedOn (job.nextFire.getD host.now))).queued =
        (action.on job).queued := by
      intro action
      cases action <;> rfl
    have hqueued : ((daemon.actionFor job).on job).queued = true := (same _).symm.trans waits
    have hnot : daemon.actionFor job ≠ .start := by
      intro hstart
      rw [hstart] at hqueued
      cases hqueued
    have hrunning := running_of_actionFor hnot (by have := counted.exact; omega)
    rcases waitsFor job found hrunning hqueued with hid | hfull
    · apply more
      simpa using hid
    · omega
  · rcases drained hroom other otherJob hother ready waits with hid | hmem
    · exact .inl (more _ hid)
    · exact .inr (List.mem_of_ne_of_mem hne hmem)

/-- A pass that fires what is due leaves nothing waiting that it could have started. -/
theorem fireAll_drained {due : List Nat} (counted : Counted limit daemon)
    (drained : DrainedAfter due daemon) (ready : ∀ index ∈ due, index < daemon.jobs.length)
    (waits : Along (fire host) WaitsForRun daemon due) :
    DrainedAfter [] (runAll (fire host) daemon due) := by
  induction due generalizing daemon with
  | nil => exact drained
  | cons index rest ih =>
    have hlt := ready index (by simp)
    have found : daemon.jobs[index]? = some daemon.jobs[index] := List.getElem?_eq_getElem hlt
    refine ih (counted.fire found) (drained.fire counted found waits.1) ?_ waits.2
    intro other hmem
    rw [fire_of_found found, List.length_set]
    exact ready other (by simp [hmem])

theorem fireDue_drained (counted : Counted limit daemon) (going : daemon.stopping = false)
    (drained : Drained (fun job => job.nextFire.any (· ≤ host.now) = true) daemon)
    (waits : Along (fire host) WaitsForRun daemon (daemon.due host.now)) :
    Drained (fun _ => False) (daemon.fireDue host) := by
  have before : DrainedAfter (daemon.due host.now) daemon := by
    intro room index job found ready hqueued
    rcases drained room job (List.mem_of_getElem? found) ready hqueued with hid | hdue
    · exact .inl hid
    · right
      unfold due
      rw [List.mem_filter, List.mem_range]
      exact ⟨lt_of_found found, by simp [found, isDue, ready, hdue]⟩
  have length : ∀ index ∈ daemon.due host.now, index < daemon.jobs.length := by
    intro index hmem
    obtain ⟨job, found, -⟩ := mem_due hmem
    exact lt_of_found found
  unfold fireDue
  rw [if_neg (by simp [going])]
  intro room job hjob ready hqueued
  obtain ⟨index, found⟩ := List.mem_iff_getElem?.mp hjob
  have done := fireAll_drained counted before length waits room index job found ready hqueued
  rcases done with hid | hmem
  · exact .inl hid
  · cases hmem

/-! ## Every history -/

theorem hold_drained (drained : Drained (fun _ => False) daemon) (id : Text) (paused : Bool)
    (releases : paused = false → ReleasesNone daemon id) :
    Drained (fun _ => False) (daemon.hold host id paused).2 := by
  unfold hold
  cases here : daemon.position id with
  | none => exact drained
  | some index => exact drained.hold here paused releases

theorem command_drained {request : Request} (drained : Drained (fun _ => False) daemon)
    (drains : Drains daemon (.command host request)) :
    Drained (fun _ => False) (daemon.command host request).2 := by
  cases request with
  | status => exact drained
  | add manifest workingDirectory =>
    let watched : Watched := ⟨manifest, workingDirectory⟩
    change Drained _ (daemon.add host watched).2
    rcases @add_leaves daemon host _ watched with same | same | ⟨⟨names, admitted⟩, writes, same⟩
    · rwa [same]
    · rw [same]
      exact drained
    · rw [same]
      have listed : Drained (fun _ => False) { daemon with
          registry := (daemon.registry.add watched).2
          files := { daemon.files with registry := .ok (daemon.registry.add watched).2 } } :=
        drained
      exact listed.reload (fun _ h => h) (drains names admitted writes)
  | remove manifest =>
    change Drained _ (daemon.remove host manifest).2
    rcases @remove_leaves daemon host manifest with same | same | same
    · rwa [same]
    · rw [same]
      exact drained
    · rw [same]
      exact drained.of_same rfl rfl fun job hjob => List.mem_of_mem_filter hjob
  | pause job => exact hold_drained drained job true fun h => by cases h
  | resume job => exact hold_drained drained job false fun _ => drains
  | trigger job => exact trigger_drained drained job
  | reload =>
    refine Drained.reloads (fun _ h => h) _ ?_ drains
    exact drained.of_same rfl rfl fun job hjob => List.mem_of_mem_filter hjob
  | stop => exact drained

theorem take_drained {input : Input} (counted : Counted limit daemon)
    (going : daemon.stopping = false) (drained : Drained (fun _ => False) daemon)
    (drains : Drains daemon input) : Drained (fun _ => False) (daemon.take input) := by
  cases input with
  | pass host =>
    have planned : ∀ job : Job, job.nextFire.any (· ≤ host.now) = true →
        (planFresh job host.now).1.nextFire.any (· ≤ host.now) = true := by
      intro job h
      cases hnext : job.nextFire with
      | none => simp [hnext] at h
      | some next => simpa [planFresh, hnext] using h
    have read : Drained (fun job => job.nextFire.any (· ≤ host.now) = true) (daemon.rescan host) :=
      Drained.reloads planned _ (fun room job hjob ready waits =>
        (drained room job hjob ready waits).imp_right False.elim) drains.1
    have same : Counted limit (daemon.rescan host) ∧ (daemon.rescan host).stopping = false :=
      @runAll_invariant _ _ (reload host) _
        (fun read : Daemon => Counted limit read ∧ read.stopping = false)
        (fun _ _ same _ => ⟨⟨same.1.exact, same.1.within, same.1.same⟩, same.2⟩) _ _
        ⟨counted, going⟩ drains.1
    exact fireDue_drained same.1 same.2 read drains.2
  | timeout => exact drained
  | command host request => exact command_drained drained drains
  | finished host index outcome =>
    change Drained _ (daemon.handleFinished host index outcome)
    rcases handleFinished_cases daemon host index outcome with
      ⟨-, same⟩ | ⟨thread, found, loaded, ends⟩
    · rwa [same]
    · rw [ends]
      exact finished_drained counted going found (drains thread found loaded) host _
  | signal =>
    unfold take signal
    dsimp only
    split
    · exact drained
    · exact drained
  | loads thread content =>
    exact drained.of_same (inFlight_load thread content) rfl fun job hjob => hjob
  | edited registry => exact drained

theorem step_noneWaits {input : Input} (counted : Counted limit daemon)
    (none : NoneWaits daemon)
    (drains : daemon.takes input = true → daemon.stopping = false → Drains daemon input) :
    NoneWaits (daemon.step input) := by
  rw [noneWaits_iff] at *
  intro on
  have going : daemon.stopping = false := by
    by_contra h
    rw [step_stopping (by simpa using h) input] at on
    cases on
  unfold step at on ⊢
  by_cases taken : daemon.takes input = true
  · rw [if_pos taken] at on ⊢
    exact take_drained counted going (none going) (drains taken going)
  · rw [if_neg taken]
    exact none going

theorem openDaemon_noneWaits {root : Path} {files : Files}
    (opened : openDaemon host root limit files = some daemon) : NoneWaits daemon := by
  intro _ _ job hjob _ _
  obtain ⟨registry, states, -, -, -, hjobs⟩ := openDaemon_built opened
  rw [hjobs] at hjob
  obtain ⟨built, hbuilt, rfl⟩ := List.mem_map.mp hjob
  obtain ⟨watched, -, hjob⟩ := List.mem_flatMap.mp hbuilt
  rw [plan_eq]
  exact (jobsOf_idle hjob).2

/-- In every history whose events make no job ready whose fire waits, no fire waits that could
start. -/
theorem none_waits {root : Path} {files : Files} {inputs : List Input}
    (opened : openDaemon host root limit files = some daemon)
    (drains : Along step (fun daemon input => daemon.takes input = true →
      daemon.stopping = false → Drains daemon input) daemon inputs) :
    NoneWaits (runAll step daemon inputs) := by
  have both := @runAll_invariant _ _ _ _
    (fun reached : Daemon => Counted (max limit 1) reached ∧ NoneWaits reached)
    (fun _ input told drains => ⟨keeps_always (fun _ _ _ move => move_counted move) told.1 [input],
      step_noneWaits told.1 told.2 drains⟩) _ _
    ⟨(openDaemon_counted opened).1, openDaemon_noneWaits opened⟩ drains
  exact both.2

end

/-- A fire may fall due at the limit. -/
theorem none_waits_full :
    NoneWaits (@runAll _ _ (@step .unused) tightDaemon (dueWhileRunning.take 3)) := by
  let _ : CronCrate := .unused
  have early : tightDaemon.changed (lateHost 0 0) = [] := by decide +kernel
  have idle : (tightDaemon.rescan (lateHost 0 0)).due 0 = [] := by decide +kernel
  have later : (runAll step tightDaemon (dueWhileRunning.take 2)).changed (lateHost 60000000000 0) =
      [] := by decide +kernel
  have due : fullDaemon.due 60000000000 = [0] := by decide +kernel
  have full : fullDaemon.limit ≤ fullDaemon.threads.length := by decide +kernel
  refine none_waits tightDaemon_opened ⟨fun _ _ => ⟨?_, ?_⟩, fun _ _ => trivial,
    fun _ _ => ⟨?_, ?_⟩, trivial⟩
  · rw [early]
    trivial
  · change Along _ _ _ ((tightDaemon.rescan (lateHost 0 0)).due 0)
    rw [idle]
    trivial
  · change Along _ _ (runAll step tightDaemon (dueWhileRunning.take 2))
      ((runAll step tightDaemon (dueWhileRunning.take 2)).changed (lateHost 60000000000 0))
    rw [later]
    trivial
  · change Along _ _ fullDaemon (fullDaemon.due 60000000000)
    rw [due]
    exact ⟨fun _ _ _ _ => .inr full, trivial⟩

/-! ## A fire that waits while its job is held -/

/-- The job falls due while its triggered run goes on, is held, the run ends, and the hold ends. -/
def heldWhileWaiting : List Input :=
  [.pass (lateHost 0 0), .command (lateHost 0 0) (.trigger late), .pass (lateHost 60000000000 0),
    .command (lateHost 60000000001 0) (.pause late), .pass (lateHost 60000000002 0),
    .loads 0 (oneTask (oneTime (some "late".toList) 60000000000)),
    .finished (lateHost 60000000002 0) 0 ⟨none, some 0, [], none⟩, .pass (lateHost 60000000003 0),
    .command (lateHost 60000000003 0) (.resume late)]

theorem resumed_waits :
    @openDaemon .unused (lateHost 0 0) ["root"] 1 ⟨.ok nightly, ⟨[]⟩⟩ = some tightDaemon ∧
      ¬ NoneWaits (@runAll _ _ (@step .unused) tightDaemon heldWhileWaiting) :=
  ⟨tightDaemon_opened, by decide +kernel⟩

end Beez.Daemon
