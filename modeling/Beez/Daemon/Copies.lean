import Beez.Daemon.Watching
import Beez.Daemon.Counting

/-! # The three copies of what happened to a job

A job holds its state, the daemon keeps it by ID, and `state.json` keeps it to the second.
-/

open Beez.Lib

namespace Beez.Daemon

/-! ## What the file gives back -/

/-- The state with its last fire to the second. -/
def JobState.toSecond (state : JobState) : JobState :=
  { state with lastFire := state.lastFire.map second }

theorem JobState.reread_eq {state read : JobState} (h : state.reread = some read) :
    read = state.toSecond := by
  unfold reread at h
  unfold toSecond
  cases hfire : state.lastFire with
  | none =>
    rw [hfire] at h
    obtain rfl : state = read := Option.some.inj h
    exact congrArg (fun fire => { state with lastFire := fire }) hfire
  | some fire =>
    rw [hfire] at h
    obtain ⟨kept, hstored, rfl⟩ := Option.map_eq_some_iff.mp h
    rw [stored_eq hstored]
    rfl

@[simp] theorem JobState.toSecond_toSecond (state : JobState) :
    state.toSecond.toSecond = state.toSecond := by
  unfold toSecond
  cases state.lastFire with
  | none => rfl
  | some fire => simp [second_second]

/-! ## What a job holds is what the daemon keeps -/

/-- Every job has the state that the daemon keeps for it. -/
def Held (daemon : Daemon) : Prop := ∀ job ∈ daemon.jobs, daemon.states.get job.id = job.state

section

variable {daemon after : Daemon} {host : Host} {index : Nat} {job job' : Job}

/-- What a step leaves of the states, and of the state of each job. -/
theorem Held.of_same (held : Held daemon) (states : after.states = daemon.states)
    (jobs : ∀ job ∈ after.jobs, ∃ old ∈ daemon.jobs, old.id = job.id ∧ old.state = job.state) :
    Held after := by
  intro job hjob
  obtain ⟨old, hold, hid, hstate⟩ := jobs job hjob
  rw [states, ← hid, held old hold, hstate]

/-- A job that changes its state has it kept. -/
theorem Held.of_set (held : Held daemon) (distinct : (ids daemon.jobs).Nodup)
    (found : daemon.jobs[index]? = some job) (same : job'.id = job.id)
    (jobs : after.jobs = daemon.jobs.set index job')
    (states : after.states = daemon.states.set job.id job'.state) : Held after := by
  intro other hother
  rw [jobs] at hother
  rw [states, States.get_set]
  rcases mem_set_of_found distinct found hother with rfl | ⟨hmem, hne⟩
  · rw [if_pos same]
  · rw [if_neg hne]
    exact held other hmem

theorem Held.retain (held : Held daemon) (keep : Path → Bool) :
    Held (daemon.retainManifests keep) :=
  fun job hjob => held job (List.mem_of_mem_filter hjob)

theorem Held.pruned (held : Held daemon) : Held (daemon.pruneStates host) := by
  intro job hjob
  change (daemon.states.keepOnly (ids daemon.jobs)).get job.id = job.state
  have hid : job.id ∈ ids daemon.jobs := List.mem_map_of_mem hjob
  rw [States.get_keepOnly hid]
  exact held job hjob

theorem Held.start (held : Held daemon) (found : daemon.jobs[index]? = some job)
    (fire : Int) : Held (daemon.start index fire) := by
  rw [start_of_found found]
  refine held.of_same rfl fun other hother => ?_
  rcases List.mem_or_eq_of_mem_set hother with hmem | rfl
  · exact ⟨other, hmem, rfl, rfl⟩
  · exact ⟨job, List.mem_of_getElem? found, rfl, rfl⟩

theorem Held.settle (held : Held daemon) (distinct : (ids daemon.jobs).Nodup) (thread : Nat)
    (id : Text) (outcome : RunOutcome) : Held (daemon.settle host thread id outcome) := by
  cases here : daemon.position id with
  | none =>
    rw [settle_of_none here]
    exact held
  | some index =>
    obtain ⟨job, found, -⟩ := found_of_position here
    rw [settle_of_found here found]
    exact @Held.of_set daemon _ index job (job.ended outcome) held distinct found rfl rfl rfl

variable [CronCrate]

theorem Held.fire (held : Held daemon) (distinct : (ids daemon.jobs).Nodup)
    (found : daemon.jobs[index]? = some job) : Held (fire host daemon index) := by
  rw [fire_of_found found]
  refine held.of_set distinct found ?_ rfl ?_
  · simp
  · rw [plan_eq]
    simp

theorem Held.hold (held : Held daemon) (distinct : (ids daemon.jobs).Nodup) {id : Text}
    (here : daemon.position id = some index) (paused : Bool) :
    Held (((daemon.holdJob index paused).saveState host index).planJob index host.now false) := by
  obtain ⟨job, found, -⟩ := found_of_position here
  rw [hold_of_found found]
  refine held.of_set distinct found ?_ rfl ?_
  · rw [plan_eq]
    rfl
  · rw [plan_eq]

/-- A manifest that is read takes the states that the daemon keeps for its jobs. -/
theorem Held.install (held : Held daemon) (watched : Watched) (load : Path → Except Text Manifest) :
    Held (daemon.install host watched (jobsOf load watched daemon.states)) := by
  intro job hjob
  change job ∈ daemon.jobs.filter (·.manifest ≠ watched.path) ++ _ at hjob
  rcases List.mem_append.mp hjob with hjob | hjob
  · exact held job (List.mem_of_mem_filter hjob)
  · obtain ⟨planned, hplanned, rfl⟩ := List.mem_map.mp hjob
    obtain ⟨fresh, hfresh, rfl⟩ := List.mem_map.mp hplanned
    rw [planFresh_eq, carry_eq]
    exact (jobsOf_new hfresh).1.symm

theorem Held.reloads (held : Held daemon) (watched : List Watched) :
    Held (runAll (reload host) daemon watched) := by
  induction watched generalizing daemon with
  | nil => exact held
  | cons first rest ih => exact ih (held.install first host.load)

/-! ## What one step leaves of them -/

theorem move_held {guard : Guard} (move : Move guard host daemon after) (held : Held daemon)
    (distinct : (ids daemon.jobs).Nodup) : Held after := by
  cases move with
  | reload watched _ => exact held.install watched host.load
  | add watched _ _ => exact held.install watched host.load
  | retain keep => exact held.retain keep
  | remove manifest _ => exact (held.retain _).pruned
  | fire _ found _ => exact held.fire distinct found
  | startWaiting _ _ found _ => exact held.start found _
  | trigger _ found _ _ => exact held.start found _
  | settle _ _ _ => exact held.settle distinct _ _ _
  | hold here paused => exact held.hold distinct here paused
  | load _ _ _ => exact held
  | rest => exact held

/-- Moves that read no manifest and drop none. -/
def Guard.unread : Guard where
  read := fun _ _ _ => False
  added := fun _ _ _ => False
  removed := fun _ _ => False
  ended := fun _ _ => True
  loads := fun _ _ => True

theorem Move.held (move : Move .unread host daemon after)
    (held : Held daemon ∧ (ids daemon.jobs).Nodup) : Held after ∧ (ids after.jobs).Nodup :=
  ⟨move_held move held.1 held.2, move_distinct move (fun _ refused => refused.elim) held.2⟩

theorem Moves.held (moves : Moves .unread host daemon after) (held : Held daemon)
    (distinct : (ids daemon.jobs).Nodup) : Held after :=
  (Moves.keeps (fun _ _ move => move.held) moves ⟨held, distinct⟩).1

theorem fireDue_ids : ids (daemon.fireDue host).jobs = ids daemon.jobs := by
  unfold fireDue
  split
  · rfl
  · refine @runAll_invariant _ _ _ (fun _ _ => True)
      (fun reached : Daemon => ids reached.jobs = ids daemon.jobs) ?_ _ _ rfl
      (.of_forall (fun _ _ => trivial) _ _)
    · intro reached index same _
      cases found : reached.jobs[index]? with
      | none =>
        unfold Daemon.fire
        simpa only [found] using same
      | some job => rwa [fire_ids found]

theorem Held.command (held : Held daemon) (distinct : (ids daemon.jobs).Nodup)
    (request : Request) : Held (daemon.command host request).2 := by
  cases request with
  | status => exact held
  | add manifest workingDirectory =>
    let watched : Watched := ⟨manifest, workingDirectory⟩
    change Held (daemon.add host watched).2
    rcases @add_leaves daemon host _ watched with same | same | ⟨-, -, same⟩
    · rwa [same]
    · rw [same]
      exact held
    · rw [same]
      have listed : Held { daemon with
          registry := (daemon.registry.add watched).2
          files := { daemon.files with registry := .ok (daemon.registry.add watched).2 } } := held
      exact listed.install watched host.load
  | remove manifest =>
    change Held (daemon.remove host manifest).2
    rcases @remove_leaves daemon host manifest with same | same | same
    · rwa [same]
    · rw [same]
      exact held
    · rw [same]
      have left : Held { daemon with
          jobs := daemon.jobs.filter fun job => decide (job.manifest ≠ manifest) } :=
        held.retain (· ≠ manifest)
      exact @Held.pruned _ host left
  | pause job => exact (hold_moves job true).held held distinct
  | resume job => exact (hold_moves job false).held held distinct
  | trigger job => exact (trigger_moves job).held held distinct
  | reload =>
    have left : Held daemon.reloadRegistry := fun job hjob => held job (List.mem_of_mem_filter hjob)
    exact left.reloads _
  | stop => exact held

theorem Held.step {input : Input} (held : Held daemon) (distinct : (ids daemon.jobs).Nodup)
    (apart : (ids (daemon.step input).jobs).Nodup) : Held (daemon.step input) := by
  unfold Daemon.step at apart ⊢
  by_cases taken : daemon.takes input = true
  · rw [if_pos taken] at apart ⊢
    cases input with
    | pass host =>
      have told : (ids (daemon.rescan host).jobs).Nodup := by
        rw [← fireDue_ids]
        exact apart
      exact fireDue_moves.held (held.reloads (daemon.changed host)) told
    | command host request => exact held.command distinct request
    | finished host thread outcome =>
      have allowed : Guard.unread.allows daemon (.finished host thread outcome) :=
        fun _ _ => trivial
      exact (handleFinished_moves allowed).held held distinct
    | timeout => exact held
    | signal =>
      unfold take signal
      dsimp only
      split
      · exact held
      · exact held
    | loads thread content => exact held
    | edited registry => exact held
  · rw [if_neg taken]
    exact held

theorem Held.opened {root : Path} {limit : Nat} {files : Files}
    (opened : openDaemon host root limit files = some daemon) : Held daemon := by
  obtain ⟨registry, states, -, -, rfl, hjobs⟩ := openDaemon_built opened
  intro job hjob
  rw [hjobs] at hjob
  obtain ⟨built, hbuilt, rfl⟩ := List.mem_map.mp hjob
  obtain ⟨watched, -, hjob⟩ := List.mem_flatMap.mp hbuilt
  rw [plan_eq]
  exact (jobsOf_new hjob).1.symm

/-- As long as the IDs stay distinct, a job has the state that the daemon keeps for it. -/
theorem Held.runAll {inputs : List Input} (held : Held daemon) (distinct : (ids daemon.jobs).Nodup)
    (apart : Along Daemon.step (fun daemon input => (ids (daemon.step input).jobs).Nodup)
      daemon inputs) :
    Held (runAll Daemon.step daemon inputs) ∧ (ids (runAll Daemon.step daemon inputs).jobs).Nodup :=
  @runAll_invariant _ _ _ _
    (fun reached : Daemon => Held reached ∧ (ids reached.jobs).Nodup)
    (fun _ _ told apart => ⟨told.1.step told.2 apart, apart⟩) _ _ ⟨held, distinct⟩ apart

end

/-! ## The copies agree -/

/-- Every job has the state that the daemon keeps for it, and the file has it to the second. -/
structure Copied (daemon : Daemon) : Prop where
  held : ∀ job ∈ daemon.jobs, daemon.states.get job.id = job.state
  saved : ∀ id, (daemon.files.states.get id).toSecond = (daemon.states.get id).toSecond

section

variable {daemon after : Daemon} {host : Host} {guard : Guard}

/-- A step that changes the states saves them. -/
theorem Move.saved [CronCrate] (move : Move guard host daemon after)
    (saves : ∀ states, host.stateWrite states = true)
    (saved : ∀ id, (daemon.files.states.get id).toSecond = (daemon.states.get id).toSecond) :
    ∀ id, (after.files.states.get id).toSecond = (after.states.get id).toSecond := by
  cases move with
  | reload watched allowed => exact saved
  | add watched allowed _ => exact saved
  | retain keep => exact saved
  | remove manifest allowed => simp [pruneStates, writeStates, saves]
  | fire _ found _ =>
    rw [fire_of_found found]
    simp [writeStates, saves]
  | startWaiting _ _ found _ =>
    rw [start_of_found found]
    exact saved
  | trigger _ found _ _ =>
    rw [start_of_found found]
    exact saved
  | settle found allowed outcome =>
    rename_i index thread
    cases here : daemon.position thread.run.id with
    | none =>
      rw [settle_of_none here]
      exact saved
    | some place =>
      obtain ⟨job, found, -⟩ := found_of_position here
      rw [settle_of_found here found]
      simp [writeStates, saves]
  | hold here paused =>
    obtain ⟨job, found, -⟩ := found_of_position here
    rw [hold_of_found found]
    simp [writeStates, saves]
  | load _ _ _ => exact saved
  | rest => exact saved

variable [CronCrate]

/-- The step saves what it changes, and leaves IDs that are told apart. -/
def Saves (daemon : Daemon) (input : Input) : Prop :=
  (ids (daemon.step input).jobs).Nodup ∧
    ∀ host, input.host = some host → ∀ states, host.stateWrite states = true

theorem Copied.step {input : Input} (copied : Copied daemon) (distinct : (ids daemon.jobs).Nodup)
    (saves : Saves daemon input) : Copied (daemon.step input) := by
  have held : Held (daemon.step input) := Held.step copied.held distinct saves.1
  refine ⟨held, ?_⟩
  -- What happens without a host saves nothing.
  let host := input.host.getD { (default : Host) with stateWrite := fun _ => true }
  have writes : ∀ states, host.stateWrite states = true := by
    intro states
    cases hhost : input.host with
    | none => simp [host, hhost]
    | some own =>
      simp only [host, hhost, Option.getD_some]
      exact saves.2 own hhost states
  have moves : Moves (everything True) host daemon (daemon.step input) :=
    step_moves (fun _ => everything_allows (.inl trivial)) fun other h => by simp [host, h]
  exact moves.keeps (fun _ _ move => move.saved writes) copied.saved

theorem Copied.opened {root : Path} {limit : Nat} {files : Files}
    (opened : openDaemon host root limit files = some daemon) : Copied daemon := by
  obtain ⟨registry, states, -, hread, rfl, hjobs⟩ := openDaemon_built opened
  have hfiles : daemon.files = files := (openDaemon_inStep opened).2
  refine ⟨Held.opened opened, fun id => ?_⟩
  rw [hfiles, JobState.reread_eq (States.get_reread hread id), JobState.toSecond_toSecond]

/-! ## What a restart rebuilds -/

theorem Copied.runAll {inputs : List Input} (copied : Copied daemon)
    (distinct : (ids daemon.jobs).Nodup) (saves : Along Daemon.step Saves daemon inputs) :
    Copied (runAll Daemon.step daemon inputs) := by
  have both := @runAll_invariant _ _ _ Saves
    (fun reached : Daemon => Copied reached ∧ (ids reached.jobs).Nodup)
    (fun _ _ told saves => ⟨told.1.step told.2 saves, saves.1⟩) _ _ ⟨copied, distinct⟩ saves
  exact both.1

/-- A restart from the files of a daemon gives every job the state that it had. -/
theorem Copied.restarted {root : Path} {limit : Nat} {restarted : Daemon} (copied : Copied daemon)
    (opened : openDaemon host root limit daemon.files = some restarted) :
    (∀ job ∈ daemon.jobs, restarted.registry.Gives host.load (job.manifest, job.id) →
      ∃ again ∈ restarted.jobs, again.manifest = job.manifest ∧ again.id = job.id) ∧
    ∀ job ∈ daemon.jobs, ∀ again ∈ restarted.jobs, again.id = job.id →
      again.state = job.state.toSecond := by
  constructor
  · intro job _ hgives
    obtain ⟨again, hmem, hplace⟩ :=
      List.mem_map.mp (((listed_of_opened opened).places _).mpr hgives)
    rw [Prod.mk.injEq] at hplace
    exact ⟨again, hmem, hplace⟩
  · intro job hjob again hagain hid
    obtain ⟨registry, states, -, hread, hstates, -⟩ := openDaemon_built opened
    have hget := JobState.reread_eq (States.get_reread hread job.id)
    rw [← (Copied.opened opened).held again hagain, hstates, hid, hget, copied.saved,
      copied.held job hjob]

/-- What a job holds, what the daemon keeps for it and what its file says agree after every event,
so a restart rebuilds what was there. -/
theorem copies_agree {root : Path} {limit : Nat} {files : Files} {inputs : List Input}
    (opened : openDaemon host root limit files = some daemon) (distinct : (ids daemon.jobs).Nodup)
    (saves : Along Daemon.step Saves daemon inputs) :
    let reached := Lib.runAll Daemon.step daemon inputs
    (∀ job ∈ reached.jobs, reached.states.get job.id = job.state ∧
      (reached.files.states.get job.id).toSecond = job.state.toSecond) ∧
    ∀ (again : Host) (root : Path) (limit : Nat) (restarted : Daemon),
      openDaemon again root limit reached.files = some restarted →
      (∀ job ∈ reached.jobs, restarted.registry.Gives again.load (job.manifest, job.id) →
        ∃ rebuilt ∈ restarted.jobs, rebuilt.manifest = job.manifest ∧ rebuilt.id = job.id) ∧
      ∀ job ∈ reached.jobs, ∀ rebuilt ∈ restarted.jobs, rebuilt.id = job.id →
        rebuilt.state = job.state.toSecond := by
  have copied := (Copied.opened opened).runAll distinct saves
  refine ⟨fun job hjob => ⟨copied.held job hjob, ?_⟩, fun _ _ _ _ => copied.restarted⟩
  rw [copied.saved, copied.held job hjob]

end

/-- A pause is in the file when the daemon is started again. -/
theorem copies_agree_held :
    let reached := @Lib.runAll _ _ (@Daemon.step .unused) nightlyAndWeekly
      [.pass early, .command early (.pause "weekly".toList)]
    (∀ job ∈ reached.jobs, reached.states.get job.id = job.state ∧
      (reached.files.states.get job.id).toSecond = job.state.toSecond) ∧
    ∀ (again : Host) (root : Path) (limit : Nat) (restarted : Daemon),
      @openDaemon .unused again root limit reached.files = some restarted →
      (∀ job ∈ reached.jobs, restarted.registry.Gives again.load (job.manifest, job.id) →
        ∃ rebuilt ∈ restarted.jobs, rebuilt.manifest = job.manifest ∧ rebuilt.id = job.id) ∧
      ∀ job ∈ reached.jobs, ∀ rebuilt ∈ restarted.jobs, rebuilt.id = job.id →
        rebuilt.state = job.state.toSecond := by
  let _ : CronCrate := .unused
  refine copies_agree nightlyAndWeekly_opened (by decide +kernel) ⟨⟨?_, ?_⟩, ⟨?_, ?_⟩, trivial⟩
  · decide +kernel
  · rintro host ⟨⟩ states
    rfl
  · decide +kernel
  · rintro host ⟨⟩ states
    rfl

end Beez.Daemon
