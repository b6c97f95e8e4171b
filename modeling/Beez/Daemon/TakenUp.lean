import Beez.Daemon.Owed

/-! # A fire that waited when the daemon ended

A start may plan the run that such a fire still needs. From there on the fire is followed through
the history of the new daemon until its run starts.
-/

open Beez.Lib

namespace Beez.Daemon

/-- The run of the fire that was planned at `next` started, once: what started later is of a later
fire. -/
def Ran (id : Text) (next : Int) (daemon : Daemon) : Prop :=
  ∃ first others, startsOf id daemon.trace = first :: others ∧ next ≤ first ∧
    ∀ other ∈ others, first < other

/-- The run of the fire that was planned at `next` started, once, or it is still to come: no pass
came in time for it, or it waits while every place is taken. -/
inductive Follows (id : Text) (next : Int) (inputs : List Input) (daemon : Daemon) : Prop where
  | planned (comes : Comes id next false daemon)
      (early : ∀ host, .pass host ∈ inputs → host.now < next)
  | waits (comes : Comes id next true daemon) (full : daemon.limit ≤ daemon.threads.length)
  | ran (ran : Ran id next daemon)

/-- The start plans a run of the job at `next`, for an instant that is not later than `fire`. -/
def TakesUp (daemon : Daemon) (id : Text) (fire next : Int) : Prop :=
  ∃ job ∈ daemon.jobs, job.id = id ∧ job.schedule.any (·.catchUp) = true ∧
    job.nextFire = some next ∧
      ∃ instant ≤ fire, .planned job (.catchUp instant) ∈ daemon.trace ∨ next = instant

section

variable [CronCrate]

/-- The start takes the fire up, and the history after it runs it once. -/
def RunsOnce (daemon : Daemon) (inputs : List Input) (id : Text) (fire : Int) : Prop :=
  ∃ next, TakesUp daemon id fire next ∧ Follows id next inputs (runAll step daemon inputs)

/-! ## What the history must leave alone -/

/-- A command on the job finds its fire waiting. -/
def Awaits (id : Text) (daemon : Daemon) (named : Text) : Prop :=
  named = id → ∀ job ∈ daemon.jobs, job.id = id → job.queued = true

/-- The input stops nothing, and leaves the job where and as it is. -/
def Undisturbed (id : Text) (daemon : Daemon) : Input → Prop
  | .pass host => Along (reload host) (KeepsJob id host) daemon (daemon.changed host)
  | .command host (.add manifest workingDirectory) =>
    ∀ names, admitJobs (jobsOf host.load ⟨manifest, workingDirectory⟩ daemon.states)
      (daemon.othersIds ⟨manifest, workingDirectory⟩) = .ok names →
        KeepsJob id host daemon ⟨manifest, workingDirectory⟩
  | .command _ (.remove manifest) => ∀ job ∈ daemon.jobs, job.id = id → job.manifest ≠ manifest
  | .command host .reload =>
    (∀ job ∈ daemon.jobs, job.id = id → job ∈ daemon.reloadRegistry.jobs) ∧
      Along (reload host) (KeepsJob id host) daemon.reloadRegistry
        daemon.reloadRegistry.registry.manifests
  | .command _ (.pause named) => named ≠ id
  | .command _ (.resume named) | .command _ (.trigger named) => Awaits id daemon named
  | .command _ .stop | .signal => False
  | _ => True

/-- The input happens. Until the run starts it leaves the job alone, and from then on the clock is
past the fire and no read brings an ID of another manifest. -/
def Serves (id : Text) (daemon : Daemon) (input : Input) : Prop :=
  daemon.takes input = true ∧
    (startsOf id daemon.trace = [] → Undisturbed id daemon input) ∧
    ∀ first others, startsOf id daemon.trace = first :: others →
      ownIds.allows daemon input ∧ ∀ host, input.host = some host → first < host.now

end

/-! ## How far the run has come -/

section

variable {id : Text} {next first : Int} {waits : Bool} {daemon after : Daemon}

theorem Done.ran (done : Done id first daemon) (due : next ≤ first) : Ran id next daemon := by
  obtain ⟨others, starts, later⟩ := done.starts
  exact ⟨first, others, starts, due, later⟩

/-- The fire waits while every place is taken, or its run started. -/
def Settles (id : Text) (next : Int) (daemon : Daemon) : Prop :=
  Comes id next true daemon ∧ daemon.limit ≤ daemon.threads.length ∨
    ∃ first, next ≤ first ∧ Done id first daemon

theorem Settles.follows {inputs : List Input} (settles : Settles id next daemon) :
    Follows id next inputs daemon := by
  rcases settles with ⟨comes, full⟩ | ⟨first, late, done⟩
  · exact .waits comes full
  · exact .ran (done.ran late)

/-- What one input leaves of a run that is still to come: it comes as before, and no pass came in
time for it, or it is settled. -/
def Leads (id : Text) (next : Int) (waits : Bool) (input : Input) (after : Daemon) : Prop :=
  Comes id next waits after ∧ (waits = true → after.limit ≤ after.threads.length) ∧
      (waits = false → ∀ host, input = .pass host → host.now < next) ∨
    Settles id next after

theorem Comes.leads {input : Input} (comes : Comes id next waits after)
    (full : waits = true → after.limit ≤ after.threads.length)
    (other : ∀ host, input ≠ .pass host) : Leads id next waits input after :=
  .inl ⟨comes, full, fun _ host same => absurd same (other host)⟩

theorem Leads.of_same {input : Input} (leads : Leads id next waits input daemon)
    (jobs : after.jobs = daemon.jobs) (trace : after.trace = daemon.trace)
    (going : after.stopping = daemon.stopping) (limit : after.limit = daemon.limit)
    (threads : after.threads = daemon.threads) : Leads id next waits input after := by
  have same : ∀ waits, Comes id next waits daemon → Comes id next waits after := by
    intro waits comes
    exact ⟨trace ▸ comes.none, going.trans comes.going, jobs ▸ comes.job⟩
  rcases leads with ⟨comes, full, early⟩ | ⟨comes, full⟩ | ⟨first, late, done⟩
  · exact .inl ⟨same _ comes, by rwa [limit, threads], early⟩
  · exact .inr (.inl ⟨same _ comes, by rwa [limit, threads]⟩)
  · exact .inr (.inr ⟨first, late, trace ▸ done.starts, jobs ▸ done.next, jobs ▸ done.waiting⟩)

end

section

variable [CronCrate] {id : Text} {next now fire : Int} {job : Job} {host : Host} {files : Files}
  {root : Path} {limit : Nat} {daemon restarted : Daemon}

/-! ## The start -/

/-- The job is ready and runs late, and its first instant after the last fire that is recorded is
not later than `fire`. -/
def Job.Reaches (job : Job) (now fire : Int) : Prop :=
  job.isReady = true ∧ ∃ schedule, job.schedule = some schedule ∧ schedule.catchUp = true ∧
    ∃ instant ≤ fire, schedule.schedule.nextAfter (job.base schedule now) = some instant

theorem plan_reaches : ((∃ next, (plan job now true).1.nextFire = some next ∧ ∃ instant ≤ fire,
      (plan job now true).2 = some (.catchUp instant) ∨ next = instant) ∧
      job.schedule.any (·.catchUp) = true) ↔ job.Reaches now fire := by
  constructor
  · rintro ⟨⟨next, hnext, instant, hle, found⟩, late⟩
    obtain ⟨schedule, hschedule, hlate⟩ : ∃ schedule, job.schedule = some schedule ∧
        schedule.catchUp = true := by simpa [Option.any_eq_true] using late
    have ready := ready_of_plan hnext
    refine ⟨ready, schedule, hschedule, hlate, ?_⟩
    rw [plan_of_ready ready hschedule] at hnext found
    cases hfirst : schedule.schedule.nextAfter (job.base schedule now) with
    | none => simp [hfirst] at hnext
    | some first =>
      refine ⟨first, ?_, rfl⟩
      by_cases ahead : now < first
      · have planned : first = next := by simpa [hfirst, ahead] using hnext
        have same : next = instant := by simpa [hfirst, ahead] using found
        omega
      · have planned : now = next := by simpa [hfirst, ahead, hlate] using hnext
        have same : first = instant ∨ next = instant := by simpa [hfirst, ahead, hlate] using found
        omega
  · rintro ⟨ready, schedule, hschedule, hlate, instant, hle, hfirst⟩
    refine ⟨?_, by simp [hschedule, hlate]⟩
    rw [plan_of_ready ready hschedule, hfirst]
    by_cases ahead : now < instant
    · exact ⟨instant, by simp [ahead], instant, hle, .inr rfl⟩
    · exact ⟨now, by simp [ahead, hlate], instant, hle, .inl (by simp [ahead, hlate])⟩

theorem takesUp_iff (opened : openDaemon host root limit files = some restarted) :
    (∃ next, TakesUp restarted id fire next) ↔
      ∃ rebuilt ∈ files.gives host, rebuilt.id = id ∧ rebuilt.Reaches host.now fire := by
  obtain ⟨hjobs, -⟩ := openDaemon_plans opened
  have same : ∀ rebuilt : Job, (plan rebuilt host.now true).1.schedule = rebuilt.schedule := by
    intro rebuilt
    rw [plan_eq]
  have line : ∀ rebuilt ∈ files.gives host, ∀ instant,
      .planned (plan rebuilt host.now true).1 (.catchUp instant) ∈ restarted.trace →
        ∃ other ∈ files.gives host, other.id = rebuilt.id ∧ other.schedule = rebuilt.schedule ∧
          (plan other host.now true).1.nextFire = (plan rebuilt host.now true).1.nextFire ∧
          (plan other host.now true).2 = some (.catchUp instant) := by
    intro rebuilt _ instant hline
    obtain ⟨other, hother, misses, heq⟩ := (catchUp_opened opened).mp hline
    refine ⟨other, hother, ?_, ?_, by rw [heq], plan_catchUp_iff.mpr misses⟩
    · rw [← plan_id rebuilt host.now true, heq, plan_id]
    · rw [← same rebuilt, heq, same]
  constructor
  · rintro ⟨next, job, hjob, rfl, late, hnext, instant, hle, found⟩
    obtain ⟨rebuilt, hrebuilt, rfl⟩ := List.mem_map.mp (hjobs ▸ hjob)
    rw [same] at late
    rcases found with hline | hsame
    · obtain ⟨other, hother, hid, hschedule, hplanned, hcatch⟩ := line rebuilt hrebuilt instant hline
      refine ⟨other, hother, by rw [hid, plan_id], plan_reaches.mp ⟨⟨next, hplanned.trans hnext,
        instant, hle, .inl hcatch⟩, hschedule ▸ late⟩⟩
    · exact ⟨rebuilt, hrebuilt, by rw [plan_id], plan_reaches.mp
        ⟨⟨next, hnext, instant, hle, .inr hsame⟩, late⟩⟩
  · rintro ⟨rebuilt, hrebuilt, rfl, reaches⟩
    obtain ⟨⟨next, hnext, instant, hle, found⟩, late⟩ := plan_reaches.mpr reaches
    refine ⟨next, _, hjobs ▸ List.mem_map_of_mem hrebuilt, plan_id _ _ _, by rwa [same], hnext,
      instant, hle, found.imp_left fun hcatch => ?_⟩
    exact (catchUp_opened opened).mpr ⟨rebuilt, hrebuilt, plan_catchUp_iff.mp hcatch, rfl⟩

theorem TakesUp.comes (opened : openDaemon host root limit files = some restarted)
    (takes : TakesUp restarted id fire next) : Comes id next false restarted := by
  obtain ⟨hjobs, htrace, -, going, -⟩ := openDaemon_plans opened
  obtain ⟨job, hjob, own, -, planned, -⟩ := takes
  obtain ⟨rebuilt, hrebuilt, rfl⟩ := List.mem_map.mp (hjobs ▸ hjob)
  have ready := ready_of_plan planned
  obtain ⟨idle, queued⟩ := gives_idle hrebuilt
  refine ⟨by rw [htrace, startsOf_planLines], going, _, hjob, own, ?_, ?_, ?_, planned⟩
  · rw [plan_eq]
    exact ready
  · rw [plan_eq]
    exact idle
  · rw [plan_eq]
    exact queued

theorem Copied.gives (copied : Copied daemon)
    (opened : openDaemon host root limit daemon.files = some restarted) {held rebuilt : Job}
    (mem : held ∈ daemon.jobs) (hrebuilt : rebuilt ∈ daemon.files.gives host)
    (same : rebuilt.id = held.id) : rebuilt.state = held.state.toSecond := by
  have planned : (plan rebuilt host.now true).1 ∈ restarted.jobs := by
    rw [(openDaemon_plans opened).1]
    exact List.mem_map_of_mem hrebuilt
  have state := (copied.restarted opened).2 held mem _ planned (by rw [plan_id, same])
  rwa [plan_eq] at state

end

section

variable [CronCrate] {id : Text} {next first : Int} {waits : Bool} {daemon : Daemon} {host : Host}
  {limit : Nat}

theorem rescan_keeps : (daemon.rescan host).running = daemon.running ∧
    (daemon.rescan host).limit = daemon.limit ∧ (daemon.rescan host).threads = daemon.threads := by
  unfold rescan
  refine @runAll_invariant _ _ (reload host) (fun _ _ => True) (fun reached : Daemon =>
    reached.running = daemon.running ∧ reached.limit = daemon.limit ∧
      reached.threads = daemon.threads) ?_ _ _ ⟨rfl, rfl, rfl⟩ (.of_forall (fun _ _ => trivial) _ _)
  exact fun _ _ same _ => same

theorem hold_counts (named : Text) (paused : Bool) :
    (daemon.hold host named paused).2.limit = daemon.limit ∧
      (daemon.hold host named paused).2.threads = daemon.threads := by
  unfold Daemon.hold
  cases here : daemon.position named with
  | none => exact ⟨rfl, rfl⟩
  | some index =>
    obtain ⟨job, found, -⟩ := found_of_position here
    dsimp only
    rw [hold_of_found found]
    exact ⟨rfl, rfl⟩

theorem Undisturbed.own {input : Input} (alone : Undisturbed id daemon input) :
    ownIds.allows daemon input := by
  cases input with
  | pass host => exact Along.mono (fun _ _ keeps => keeps.1) alone
  | command host request =>
    cases request with
    | reload => exact Along.mono (fun _ _ keeps => keeps.1) alone.2
    | _ => trivial
  | finished host thread outcome => exact fun _ _ => trivial
  | loads thread content => exact fun _ _ => trivial
  | _ => trivial

theorem step_of_takes {input : Input} (takes : daemon.takes input = true) :
    daemon.step input = daemon.take input := by
  unfold step
  rw [if_pos takes]

/-- What the history keeps while the run is followed. -/
structure Sound (limit : Nat) (daemon : Daemon) : Prop where
  distinct : (ids daemon.jobs).Nodup
  held : Held daemon
  counted : Counted limit daemon

theorem Sound.step {input : Input} (sound : Sound limit daemon) (own : ownIds.allows daemon input) :
    Sound limit (daemon.step input) := by
  have allowed : ownIds.AllowsAll daemon [input] := ⟨fun _ => own, trivial⟩
  have apart : (ids (daemon.step input).jobs).Nodup :=
    allowed.keeps (fun _ _ _ move => move_distinct move fun _ allowed => allowed) sound.distinct
  exact ⟨apart, sound.held.step sound.distinct apart,
    keeps_always (fun _ _ _ move => move_counted move) sound.counted [input]⟩

variable [CronCrate.Lawful ‹CronCrate›]

/-! ## One step while the run is still to come -/

theorem Comes.pass (comes : Comes id next waits daemon) (distinct : (ids daemon.jobs).Nodup)
    (held : Held daemon) (counted : Counted limit (daemon.take (.pass host)))
    (full : waits = true → daemon.limit ≤ daemon.running)
    (keeps : Along (Daemon.reload host) (KeepsJob id host) daemon (daemon.changed host)) :
    Leads id next waits (.pass host) (daemon.take (.pass host)) := by
  have exact : ((daemon.rescan host).fireDue host).running =
      ((daemon.rescan host).fireDue host).threads.length := counted.exact
  obtain ⟨running, same, -⟩ := @rescan_keeps _ daemon host
  obtain ⟨read, told⟩ := comes.reloads _ distinct held keeps
  change Comes id next waits (daemon.rescan host) at read
  change (ids (daemon.rescan host).jobs).Nodup at told
  suffices h : Leads id next waits (.pass host) ((daemon.rescan host).fireDue host) from
    h.of_same rfl rfl rfl rfl rfl
  obtain ⟨job, mem, own, ready, -, -, owes⟩ := read.job
  obtain ⟨index, found⟩ := List.mem_iff_getElem?.mp mem
  cases isdue : isDue host.now job with
  | false =>
    have left := @Comes.fireDue_other _ id next waits (daemon.rescan host) host read told
      fun other hother hid => by rw [eq_of_key_eq told hother mem (hid.trans own.symm), isdue]
    refine .inl ⟨left, fun waiting => ?_, fun planned _ same => ?_⟩
    · rw [← exact]
      have before : (daemon.rescan host).limit ≤ (daemon.rescan host).running := by
        rw [running, same]
        exact full waiting
      unfold fireDue
      split
      · exact before
      · exact fireAll_full before
    · obtain rfl := Input.pass.inj same
      subst planned
      have hnext : job.nextFire = some next := owes
      simpa [isDue, ready, hnext] using isdue
  | true =>
    rcases read.fireDue_own told found own isdue with ⟨waiting, taken⟩ | started
    · exact .inr (.inl ⟨waiting, exact ▸ taken⟩)
    · exact .inr (.inr started)

theorem Comes.hold (comes : Comes id next waits daemon)
    (named : Text) (paused : Bool)
    (own : named = id → paused = false ∧ ∀ job ∈ daemon.jobs, job.id = id → job.queued = true) :
    Comes id next waits (daemon.hold host named paused).2 := by
  unfold Daemon.hold
  cases here : daemon.position named with
  | none => exact comes
  | some index =>
    obtain ⟨job, found, same⟩ := found_of_position here
    have starts : startsOf id (((daemon.holdJob index paused).saveState host index).planJob index
        host.now false).trace = startsOf id daemon.trace := by
      rw [hold_of_found found]
      exact startsOf_planned _ _
    dsimp only
    rw [hold_of_found found] at starts ⊢
    by_cases mine : job.id = id
    · obtain ⟨rfl, waiting⟩ := own (same.symm.trans mine)
      refine comes.goesOn starts rfl fun old mem _ => goesOn_set found ?_ old mem
      have shape := plan_eq (job.held false) host.now false
      refine ⟨by rw [shape]; rfl, fun ready => ?_, fun idle => ?_, ?_, ?_,
        .inr ⟨waiting job (List.mem_of_getElem? found) mine, fun last later hlast hlater => ?_⟩⟩
      · rw [shape]
        simp only [Job.isReady, Bool.and_eq_true] at ready
        simp [Job.isReady, Job.held, Job.enabled, ready.1.1, show job.schedule.any (·.enabled) = true
          from ready.1.2]
      · rw [shape]
        exact idle
      · rw [shape]
        rfl
      · rw [shape]
        rfl
      · rw [shape] at hlast
        exact (plan_ahead hlater).2 last hlast
    · exact comes.goesOn starts rfl (goesOn_set_other found mine _)

/-- The fire is coming, and where it waits every place is taken. -/
def Pends (id : Text) (next : Int) (waits : Bool) (daemon : Daemon) : Prop :=
  Comes id next waits daemon ∧ (waits = true → daemon.limit ≤ daemon.threads.length)

theorem Pends.add (pends : Pends id next waits daemon) (distinct : (ids daemon.jobs).Nodup)
    (held : Held daemon) (watched : Watched)
    (alone : ∀ names, admitJobs (jobsOf host.load watched daemon.states)
      (daemon.othersIds watched) = .ok names → KeepsJob id host daemon watched) :
    Pends id next waits (daemon.add host watched).2 := by
  obtain ⟨comes, full⟩ := pends
  rcases @add_leaves daemon host _ watched with same | same | ⟨⟨names, admitted⟩, -, same⟩
  · rw [same]
    exact ⟨comes, full⟩
  · rw [same]
    exact ⟨⟨comes.none, comes.going, comes.job⟩, full⟩
  · rw [same]
    have read := comes.reload distinct held (alone names admitted)
    exact ⟨⟨read.none, read.going, read.job⟩, full⟩

omit [CronCrate] [CronCrate.Lawful ‹CronCrate›] in
theorem Pends.remove (pends : Pends id next waits daemon) (manifest : Path)
    (alone : ∀ job ∈ daemon.jobs, job.id = id → job.manifest ≠ manifest) :
    Pends id next waits (daemon.remove host manifest).2 := by
  obtain ⟨comes, full⟩ := pends
  rcases @remove_leaves daemon host manifest with same | same | same
  · rw [same]
    exact ⟨comes, full⟩
  · rw [same]
    exact ⟨⟨comes.none, comes.going, comes.job⟩, full⟩
  · rw [same]
    obtain ⟨none, going, job, mem, own, rest⟩ := comes
    refine ⟨⟨none, going, job, List.mem_filter.mpr ⟨mem, ?_⟩, own, rest⟩, full⟩
    exact decide_eq_true (alone job mem own)

theorem Pends.hold (pends : Pends id next waits daemon) (named : Text) (paused : Bool)
    (own : named = id → paused = false ∧ ∀ job ∈ daemon.jobs, job.id = id → job.queued = true) :
    Pends id next waits (daemon.hold host named paused).2 := by
  refine ⟨pends.1.hold named paused own, fun waiting => ?_⟩
  obtain ⟨limit, threads⟩ := @hold_counts _ daemon host named paused
  exact limit ▸ threads ▸ pends.2 waiting

omit [CronCrate] [CronCrate.Lawful ‹CronCrate›] in
/-- A trigger of another job leaves the fire, and one of the job finds no room while it waits. -/
theorem Pends.trigger (pends : Pends id next waits daemon) (counted : Counted limit daemon)
    (named : Text) (alone : Awaits id daemon named) :
    Pends id next waits (daemon.trigger host named).2 := by
  obtain ⟨comes, full⟩ := pends
  rcases trigger_cases daemon host named with
    ⟨error, same, -⟩ | ⟨index, job, here, found, -, -, room, same⟩
  · rw [same]
    exact ⟨comes, full⟩
  · have free : ¬ waits = true := fun waiting => by
      have := full waiting
      have := counted.exact
      omega
    obtain ⟨other, found', hid⟩ := found_of_position here
    obtain rfl := Option.some.inj (found.symm.trans found')
    have apart : job.id ≠ id := by
      intro own
      obtain ⟨-, -, mine, mem, hmine, -, -, queued, -⟩ := comes
      exact free (queued.symm.trans (alone (hid.symm.trans own) mine mem hmine))
    rw [same]
    exact ⟨comes.start_other found apart host.now, fun waiting => absurd waiting free⟩

theorem Pends.reloadRegistry (pends : Pends id next waits daemon)
    (distinct : (ids daemon.jobs).Nodup) (held : Held daemon)
    (stays : ∀ job ∈ daemon.jobs, job.id = id → job ∈ daemon.reloadRegistry.jobs)
    (keeps : Along (Daemon.reload host) (KeepsJob id host) daemon.reloadRegistry
      daemon.reloadRegistry.registry.manifests) :
    Pends id next waits (runAll (Daemon.reload host) daemon.reloadRegistry
      daemon.reloadRegistry.registry.manifests) := by
  have left : Comes id next waits daemon.reloadRegistry := by
    obtain ⟨none, going, job, mem, own, rest⟩ := pends.1
    exact ⟨none, going, job, stays job mem own, own, rest⟩
  have told : (ids daemon.reloadRegistry.jobs).Nodup :=
    distinct.sublist (List.filter_sublist.map _)
  have kept : Held daemon.reloadRegistry := fun job hjob => held job (List.mem_of_mem_filter hjob)
  have same := @runAll_invariant _ _ (Daemon.reload host) (fun _ _ => True)
    (fun reached : Daemon => reached.limit = daemon.limit ∧ reached.threads = daemon.threads)
    (fun _ _ same _ => same) daemon.reloadRegistry daemon.reloadRegistry.registry.manifests
    ⟨rfl, rfl⟩ (.of_forall (fun _ _ => trivial) _ _)
  refine ⟨(left.reloads _ told kept keeps).1, fun waiting => ?_⟩
  rw [same.1, same.2]
  exact pends.2 waiting

theorem Pends.command {request : Request} (pends : Pends id next waits daemon)
    (distinct : (ids daemon.jobs).Nodup) (held : Held daemon) (counted : Counted limit daemon)
    (alone : Undisturbed id daemon (.command host request)) :
    Pends id next waits (daemon.command host request).2 := by
  cases request with
  | status => exact pends
  | stop => exact alone.elim
  | add manifest workingDirectory =>
    exact pends.add distinct held ⟨manifest, workingDirectory⟩ alone
  | remove manifest => exact pends.remove manifest alone
  | pause named => exact pends.hold named true fun same => absurd same alone
  | resume named => exact pends.hold named false fun same => ⟨rfl, alone same⟩
  | trigger named => exact pends.trigger counted named alone
  | reload => exact pends.reloadRegistry distinct held alone.1 alone.2

theorem Comes.step {input : Input} (comes : Comes id next waits daemon)
    (distinct : (ids daemon.jobs).Nodup) (held : Held daemon) (counted : Counted limit daemon)
    (full : waits = true → daemon.limit ≤ daemon.threads.length)
    (serves : Serves id daemon input) : Leads id next waits input (daemon.step input) := by
  have counts : Counted limit (daemon.step input) :=
    keeps_always (fun _ _ _ move => move_counted move) counted [input]
  have alone := serves.2.1 comes.none
  rw [step_of_takes serves.1] at counts ⊢
  cases input with
  | pass host =>
    exact comes.pass distinct held counts (fun waiting => counted.exact ▸ full waiting) alone
  | timeout =>
    refine Comes.leads ⟨comes.none, comes.going, comes.job⟩ full ?_
    simp
  | command host request =>
    obtain ⟨left, full⟩ := Pends.command ⟨comes, full⟩ distinct held counted alone
    refine Comes.leads ⟨left.none, left.going, left.job⟩ full ?_
    simp
  | finished host index outcome =>
    rcases handleFinished_cases daemon host index outcome with ⟨-, same⟩ | ⟨thread, found, -, same⟩
    · refine Comes.leads (?_ : Comes id next waits (daemon.handleFinished host index outcome)) ?_ ?_
      · rw [same]
        exact comes
      · change waits = true → (daemon.handleFinished host index outcome).limit ≤ _
        rw [take, same]
        exact full
      · simp
    · change Leads id next waits _ (daemon.handleFinished host index outcome)
      rw [same]
      suffices h : Leads id next waits (.finished host index outcome)
          (daemon.finished host index thread.run.id (thread.outcome outcome)) from
        h.of_same rfl rfl rfl rfl rfl
      rcases comes.finished distinct counted found host (thread.outcome outcome) with
        ⟨left, full⟩ | started
      · refine Comes.leads left full ?_
        simp
      · exact .inr (.inr started)
  | signal => exact alone.elim
  | loads thread content =>
    refine Comes.leads ⟨comes.none, comes.going, comes.job⟩ ?_ ?_
    · simpa [take, load] using full
    · simp
  | edited registry =>
    refine Comes.leads ⟨comes.none, comes.going, comes.job⟩ full ?_
    simp

/-! ## Once the run started -/

section

variable {job : Job} {index : Nat}

theorem Done.read (done : Done id first daemon) (held : Held daemon) (past : first < host.now)
    (watched : Watched) : Done id first
      (daemon.install host watched (jobsOf host.load watched daemon.states)) := by
  refine ⟨?_, fun job hjob own fire hfire => ?_, fun job hjob own waits last hlast => ?_⟩
  · obtain ⟨others, starts, later⟩ := done.starts
    exact ⟨others, (startsOf_planned _ _).trans starts, later⟩
  · rcases mem_install hjob with hold | ⟨fresh, hfresh, rfl⟩
    · exact done.next job hold own fire hfire
    · rw [planFresh_id, carry_id] at own
      unfold planFresh at hfire
      split at hfire
      · exact past.trans (plan_later hfire)
      · obtain ⟨old, hold, same, -, planned⟩ := carry_nextFire (jobsOf_new hfresh).2 hfire
        exact done.next old hold (same.trans own) fire planned
  · rcases mem_install hjob with hold | ⟨fresh, hfresh, rfl⟩
    · exact done.waiting job hold own waits last hlast
    · rw [planFresh_id, carry_id] at own
      rw [planFresh_eq, carry_eq] at waits hlast
      have waits : (carry daemon.jobs fresh).queued = true := waits
      unfold carry at waits
      split at waits
      · rw [(jobsOf_idle hfresh).2] at waits
        cases waits
      · rename_i old hold
        have hid : old.id = fresh.id := by simpa using List.find?_some hold
        have mem := List.mem_of_find?_eq_some hold
        have state : fresh.state = old.state := by
          rw [(jobsOf_new hfresh).1, ← hid, held old mem]
        exact done.waiting old mem (hid.trans own) waits last (state ▸ hlast)

theorem Done.fire (done : Done id first daemon) (distinct : (ids daemon.jobs).Nodup)
    (past : first < host.now) (found : daemon.jobs[index]? = some job)
    (due : isDue host.now job = true) : Done id first (fire host daemon index) := by
  obtain ⟨fire, planned⟩ : ∃ fire, job.nextFire = some fire := by
    rw [isDue, Bool.and_eq_true, Option.any_eq_true] at due
    obtain ⟨-, fire, planned, -⟩ := due
    exact ⟨fire, planned⟩
  have later := fun own => done.next job (List.mem_of_getElem? found) own fire planned
  have starts := @startsOf_fire _ id daemon host index job found
  rw [planned, Option.getD_some] at starts
  rw [fire_of_found found, planned, Option.getD_some] at starts ⊢
  refine done.set found distinct starts ?_ rfl ?_ ?_ ?_
  · intro started h
    split at h
    · rename_i own
      rw [List.mem_singleton.mp h]
      exact later own.1
    · cases h
  · intro own after hafter
    exact past.trans (plan_later hafter)
  · simp
  · intro own _ last hlast
    rw [plan_eq, Action.on_state] at hlast
    obtain rfl : fire = last := Option.some.inj hlast
    exact later own

theorem Done.hold (done : Done id first daemon) (distinct : (ids daemon.jobs).Nodup)
    (past : first < host.now) {named : Text} (here : daemon.position named = some index)
    (paused : Bool) : Done id first
      (((daemon.holdJob index paused).saveState host index).planJob index host.now false) := by
  obtain ⟨job, found, -⟩ := found_of_position here
  have starts : startsOf id (((daemon.holdJob index paused).saveState host index).planJob index
      host.now false).trace = startsOf id daemon.trace ++ [] := by
    rw [hold_of_found found, List.append_nil]
    exact startsOf_planned _ _
  rw [hold_of_found found] at starts ⊢
  refine done.set found distinct starts (by simp) rfl ?_ (by simp [Job.held]) ?_
  · intro own fire hfire
    exact past.trans (plan_later hfire)
  · intro own waits last hlast
    rw [plan_eq] at waits hlast
    exact done.waiting job (List.mem_of_getElem? found) own waits last hlast

/-- Once the clock is past the fire, every run of the job is of a later one. -/
theorem Done.move {after : Daemon} (done : Done id first daemon) (distinct : (ids daemon.jobs).Nodup)
    (held : Held daemon) (past : first < host.now) (move : Move ownIds host daemon after) :
    Done id first after := by
  cases move with
  | reload watched _ => exact done.read held past watched
  | add watched _ _ => exact done.read held past watched
  | retain keep =>
    exact ⟨done.starts, fun job hjob => done.next job (List.mem_of_mem_filter hjob),
      fun job hjob => done.waiting job (List.mem_of_mem_filter hjob)⟩
  | remove manifest _ =>
    exact ⟨done.starts, fun job hjob => done.next job (List.mem_of_mem_filter hjob),
      fun job hjob => done.waiting job (List.mem_of_mem_filter hjob)⟩
  | fire _ found due => exact done.fire distinct past found due
  | @startWaiting index job _ _ found waits =>
    refine done.start distinct found fun own => ?_
    rw [mayStart, Bool.and_eq_true, Bool.and_eq_true] at waits
    cases hlast : job.state.lastFire with
    | none => exact past
    | some last => exact done.waiting job (List.mem_of_getElem? found) own waits.1.1 last hlast
  | trigger _ found _ _ => exact done.start distinct found fun _ => past
  | settle _ _ outcome => exact done.settle distinct _ _ outcome
  | hold here paused => exact done.hold distinct past here paused
  | load _ _ _ => exact ⟨done.starts, done.next, done.waiting⟩
  | rest => exact ⟨done.starts, done.next, done.waiting⟩

end

theorem Done.step {input : Input} (done : Done id first daemon) (distinct : (ids daemon.jobs).Nodup)
    (held : Held daemon) (own : ownIds.allows daemon input)
    (past : ∀ host, input.host = some host → first < host.now) :
    Done id first (daemon.step input) := by
  obtain ⟨host, here, late⟩ : ∃ host : Host,
      (∀ other, input.host = some other → other = host) ∧ first < host.now := by
    cases h : input.host with
    | none => exact ⟨{ (default : Host) with now := first + 1 }, by simp, by simp⟩
    | some host => exact ⟨host, fun other same => (Option.some.inj same).symm, past host h⟩
  have kept := (step_moves (fun _ => own) here).keeps
    (fun before after move (told : Done id first before ∧ (ids before.jobs).Nodup ∧ Held before) =>
      ⟨told.1.move told.2.1 told.2.2 late move,
        move_distinct move (fun _ allowed => allowed) told.2.1, move_held move told.2.2 told.2.1⟩)
    ⟨done, distinct, held⟩
  exact kept.1

/-! ## The history after the start -/

theorem Settles.step {input : Input} (settles : Settles id next daemon) (sound : Sound limit daemon)
    (serves : Serves id daemon input) :
    Settles id next (daemon.step input) ∧ Sound limit (daemon.step input) := by
  rcases settles with ⟨comes, full⟩ | ⟨first, late, done⟩
  · refine ⟨?_, sound.step (serves.2.1 comes.none).own⟩
    rcases comes.step sound.distinct sound.held sound.counted (fun _ => full) serves with
      ⟨left, full, -⟩ | settled
    · exact .inl ⟨left, full rfl⟩
    · exact settled
  · obtain ⟨others, starts, -⟩ := done.starts
    obtain ⟨own, past⟩ := serves.2.2 first others starts
    exact ⟨.inr ⟨first, late, done.step sound.distinct sound.held own past⟩, sound.step own⟩

/-- A fire that is planned is followed by its run. -/
theorem Comes.follows {inputs : List Input} (comes : Comes id next false daemon)
    (sound : Sound limit daemon) (serves : Along Daemon.step (Serves id) daemon inputs) :
    Follows id next inputs (runAll Daemon.step daemon inputs) := by
  induction inputs generalizing daemon with
  | nil => exact .planned comes (by simp)
  | cons input rest ih =>
    have kept := sound.step (serves.1.2.1 comes.none).own
    rw [runAll_cons]
    rcases comes.step sound.distinct sound.held sound.counted (fun never => by cases never)
      serves.1 with ⟨left, -, early⟩ | settled
    · cases ih left kept serves.2 with
      | planned comes earlier =>
        refine .planned comes fun host mem => ?_
        rcases List.mem_cons.mp mem with same | mem
        · exact early rfl host same.symm
        · exact earlier host mem
      | waits comes full => exact .waits comes full
      | ran ran => exact .ran ran
    · have ends := @runAll_invariant _ _ Daemon.step (Serves id)
        (fun reached : Daemon => Settles id next reached ∧ Sound limit reached)
        (fun _ _ told serves => told.1.step told.2 serves) _ _ ⟨settled, kept⟩ serves.2
      exact ends.1.follows

end

section

variable [CronCrate] [CronCrate.Lawful ‹CronCrate›] {files : Files} {root : Path} {limit : Nat}
  {daemon restarted : Daemon} {host : Host} {fire : Int}

/-- After every history and a restart, a fire that waited when the daemon ended runs once, in every
history after the restart that leaves its job alone until then, if and only if `state.json` does not
hold it: the job is read as ready, runs late, and its first instant after the last fire that is
recorded is not later than the one that waited. -/
theorem waiting_runs_iff (daemon : Daemon) (inputs : List Input) :
    let reached := runAll Daemon.step daemon inputs
    ∀ job ∈ reached.jobs, job.queued = true → ∀ fire, job.state.lastFire = some fire →
      ∀ again root limit restarted, openDaemon again root limit reached.files = some restarted →
        (ids restarted.jobs).Nodup → ∀ later, Along Daemon.step (Serves job.id) restarted later →
          (RunsOnce restarted later job.id fire ↔ ∃ rebuilt ∈ reached.files.gives again,
            rebuilt.id = job.id ∧ rebuilt.Reaches again.now fire) := by
  intro reached job _ _ fire _ again root limit restarted opened distinct later serves
  rw [← takesUp_iff opened]
  constructor
  · rintro ⟨next, takes, -⟩
    exact ⟨next, takes⟩
  · rintro ⟨next, takes⟩
    have sound : Sound (max limit 1) restarted :=
      ⟨distinct, .opened opened, (openDaemon_counted opened).1⟩
    exact ⟨next, takes, (takes.comes opened).follows sound serves⟩

/-- Where every step saves what it changes, only a fraction of a second can bring the fire back. -/
theorem waiting_runs_saved_iff {inputs : List Input}
    (opened : openDaemon host root limit files = some daemon) (distinct : (ids daemon.jobs).Nodup)
    (saves : Along Daemon.step Saves daemon inputs) {held : Job}
    (mem : held ∈ (runAll Daemon.step daemon inputs).jobs)
    (accepted : held.state.lastFire = some fire) {again : Host} {limit' : Nat} {root' : Path}
    (reopened : openDaemon again root' limit' (runAll Daemon.step daemon inputs).files =
      some restarted) :
    (∃ next, TakesUp restarted held.id fire next) ↔
      ∃ rebuilt ∈ (runAll Daemon.step daemon inputs).files.gives again, rebuilt.id = held.id ∧
        rebuilt.isReady = true ∧ ∃ schedule, rebuilt.schedule = some schedule ∧
          schedule.catchUp = true ∧ ∃ instant, schedule.schedule = .once instant ∧
            second fire < instant ∧ instant ≤ fire := by
  have copied := (Copied.opened opened).runAll distinct saves
  rw [takesUp_iff reopened]
  refine exists_congr fun rebuilt => and_congr_right fun hrebuilt => and_congr_right fun same => ?_
  refine and_congr_right fun _ => exists_congr fun schedule => and_congr_right fun _ =>
    and_congr_right fun _ => ?_
  have base : rebuilt.base schedule again.now = second fire := by
    rw [Job.base, copied.gives reopened mem hrebuilt same, JobState.toSecond, accepted]
    rfl
  rw [base]
  constructor
  · rintro ⟨instant, hle, hnext⟩
    have later := Schedule.lt_of_nextAfter hnext
    exact ⟨instant, once_of_hits ⟨_, hnext⟩ (le_refl _) later hle, later, hle⟩
  · rintro ⟨instant, honce, later, hle⟩
    refine ⟨instant, hle, ?_⟩
    rw [honce, Schedule.nextAfter, if_pos later]

end

/-! ## A fire that waits when the daemon is told to stop -/

/-- The job is triggered and falls due while that run goes on, the daemon is told to stop, and the
run ends. -/
def stoppedWhileWaiting (instant : Int) : List Input :=
  [.pass (onceHost instant 0), .command (onceHost instant 0) (.trigger "nightly".toList),
    .pass (onceHost instant 60), .command (onceHost instant 60) .stop,
    .pass (onceHost instant 60), .loads 0 (catchUpAt instant []),
    .finished (onceHost instant 61) 0 ⟨none, some 0, [], none⟩]

def endedDaemon : Daemon := @runAll _ _ (@step .unused) lateDaemon (stoppedWhileWaiting minute)

def restartedDaemon : Daemon :=
  (@openDaemon .unused (onceHost minute 120) ["root"] 1 endedDaemon.files).get (by decide +kernel)

theorem waiting_lost :
    @openDaemon .unused (onceHost minute 0) ["root"] 1 ⟨.ok nightly, ⟨[]⟩⟩ = some lateDaemon ∧
      endedDaemon.isOver = true ∧
      (∃ job ∈ endedDaemon.jobs, job.id = "nightly".toList ∧ job.queued = true ∧
        job.schedule.any (·.catchUp) = true ∧ job.state.lastFire = some minute) ∧
      @openDaemon .unused (onceHost minute 120) ["root"] 1 endedDaemon.files =
        some restartedDaemon ∧
      (∀ job ∈ restartedDaemon.jobs, job.nextFire = none ∧ job.queued = false) ∧
      ∀ later, ¬ @RunsOnce .unused restartedDaemon later "nightly".toList minute := by
  have idle : ∀ job ∈ restartedDaemon.jobs, job.nextFire = none ∧ job.queued = false := by
    decide +kernel
  refine ⟨(Option.some_get _).symm, by decide +kernel, by decide +kernel, (Option.some_get _).symm,
    idle, ?_⟩
  rintro later ⟨next, ⟨job, hjob, -, -, planned, -⟩, -⟩
  rw [(idle job hjob).1] at planned
  cases planned

/-- The job runs once at a second and a half, of which `state.json` keeps the second. -/
def fractionEnded : Daemon :=
  @runAll _ _ (@step .unused)
    ((@openDaemon .unused (onceHost fraction 0) ["root"] 1 ⟨.ok nightly, ⟨[]⟩⟩).get
      (by decide +kernel))
    (stoppedWhileWaiting fraction)

def fractionRestarted : Daemon :=
  (@openDaemon .unused (onceHost fraction 120) ["root"] 1 fractionEnded.files).get
    (by decide +kernel)

theorem waiting_runs_iff_fraction :
    @RunsOnce .unused fractionRestarted [.pass (onceHost fraction 121)] "nightly".toList
      fraction := by
  let _ : CronCrate := .unused
  have opened : openDaemon (onceHost fraction 120) ["root"] 1 fractionEnded.files =
    some fractionRestarted := (Option.some_get _).symm
  obtain ⟨job, hjob, own, waits, accepted⟩ : ∃ job ∈ fractionEnded.jobs,
    job.id = "nightly".toList ∧ job.queued = true ∧ job.state.lastFire = some fraction := by
      decide +kernel
  have none : startsOf "nightly".toList fractionRestarted.trace = [] := by decide +kernel
  have unchanged : fractionRestarted.changed (onceHost fraction 121) = [] := by decide +kernel
  have serves : Along step (Serves job.id) fractionRestarted [.pass (onceHost fraction 121)] := by
    refine ⟨⟨by decide +kernel, fun _ => ?_, fun first others starts => ?_⟩, trivial⟩
    · rw [Undisturbed, unchanged]
      trivial
    · rw [own, none] at starts
      cases starts
  obtain ⟨rebuilt, hrebuilt, hid, ⟨planned, late⟩, catchUp⟩ :
      ∃ rebuilt ∈ fractionEnded.files.gives (onceHost fraction 120),
        rebuilt.id = "nightly".toList ∧
          ((plan rebuilt (120 * nanosPerSecond) true).1.nextFire = some (120 * nanosPerSecond) ∧
            (plan rebuilt (120 * nanosPerSecond) true).2 = some (.catchUp fraction)) ∧
          rebuilt.schedule.any (·.catchUp) = true := by
    decide +kernel
  have reaches : rebuilt.Reaches (120 * nanosPerSecond) fraction :=
    plan_reaches.mp ⟨⟨_, planned, fraction, le_refl _, .inl late⟩, catchUp⟩
  rw [← own]
  exact (waiting_runs_iff _ _ job hjob waits fraction accepted _ _ _ _ opened (by decide +kernel) _
    serves).mpr ⟨rebuilt, hrebuilt, hid.trans own.symm, reaches⟩

end Beez.Daemon
