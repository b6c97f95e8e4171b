import Beez.Daemon.Copies

/-! # Reading a manifest that did not change

A read builds the jobs of a manifest from scratch, and carries over or plans again what it does not
build.
-/

open Beez.Lib

namespace Beez

/-! ## Schedules that have ended -/

/-- What the documentation of `after` promises of an iterator that finds nothing: no later start
finds anything. -/
def CronCrate.Ends (crate : CronCrate) : Prop :=
  ∀ expression offset start later, start ≤ later →
    crate.after expression offset start = none → crate.after expression offset later = none

section

variable [crate : CronCrate]

theorem CronSchedule.nextAfter_ends (ends : crate.Ends) {schedule : CronSchedule} {start later : Int}
    (le : start ≤ later) (h : schedule.nextAfter start = none) : schedule.nextAfter later = none := by
  rw [nextAfter] at *
  cases heast : schedule.offset.fixed with
  | none => rfl
  | some east =>
    simp only [heast, Option.bind_eq_bind, Option.bind_some] at *
    cases hprimary : CronCrate.after schedule.primary east start with
    | some next =>
      cases halternate : schedule.alternate.bind fun expression =>
          CronCrate.after expression east start <;> simp [hprimary, halternate] at h
    | none =>
      cases halternate : schedule.alternate.bind fun expression =>
          CronCrate.after expression east start with
      | some next => simp [hprimary, halternate] at h
      | none =>
        have none : (schedule.alternate.bind fun expression =>
            CronCrate.after expression east later) = none := by
          rw [Option.bind_eq_none_iff] at *
          exact fun expression mem => ends _ _ _ _ le (halternate expression mem)
        simp [ends _ _ _ _ le hprimary, none]

theorem Schedule.nextAfter_ends (ends : crate.Ends) {schedule : Schedule} {start later : Int}
    (le : start ≤ later) (h : schedule.nextAfter start = none) : schedule.nextAfter later = none := by
  cases schedule with
  | cron schedule => exact CronSchedule.nextAfter_ends ends le h
  | once instant =>
    have past : ¬ start < instant := by
      intro lt
      rw [nextAfter, if_pos lt] at h
      cases h
    rw [nextAfter, if_neg (by omega)]

theorem JobSchedule.planned_ends (ends : crate.Ends) {schedule : JobSchedule} {lastFire : Option Int}
    {now later : Int} (le : now ≤ later) (h : schedule.planned lastFire now = none) :
    schedule.planned lastFire later = none := by
  unfold planned at *
  rw [Option.bind_eq_none_iff] at *
  -- No fire is found after `now`, whatever it is that the schedule counts from.
  have past : ∀ next, schedule.schedule.nextAfter
      (lastFire.getD (if schedule.schedule.isRecurring then now else 0)) = some next →
        next ≤ now ∧ schedule.schedule.nextAfter now = none := by
    intro next hnext
    have own := h next hnext
    split at own
    · cases own
    · exact ⟨by omega, own⟩
  have last : ∀ next, schedule.schedule.nextAfter
      (lastFire.getD (if schedule.schedule.isRecurring then now else 0)) = some next →
        (if later < next then some next else schedule.schedule.nextAfter later) = none := by
    intro next hnext
    obtain ⟨before, none⟩ := past next hnext
    rw [if_neg (by omega)]
    exact Schedule.nextAfter_ends ends le none
  intro next hnext
  cases lastFire with
  | some fire => exact last next hnext
  | none =>
    cases recurring : schedule.schedule.isRecurring with
    | false => exact last next (by rwa [recurring] at hnext ⊢)
    | true =>
      simp only [recurring, Option.getD_none, if_true] at hnext past
      cases hnow : schedule.schedule.nextAfter now with
      | some next' => exact absurd (past next' hnow).2 (by simp [hnow])
      | none =>
        rw [Schedule.nextAfter_ends ends le hnow] at hnext
        cases hnext

end

namespace Daemon

/-! ## What a read leaves -/

/-- The job, wherever its runs work. -/
def Job.anywhere (job : Job) : Job := { job with workingDirectory := [] }

/-- No job came or went, and nothing else of any job changed than where its runs work. -/
def SameJobs (before after : Daemon) : Prop :=
  (after.jobs.map Job.anywhere).Perm (before.jobs.map Job.anywhere)

/-- What the job was built from. -/
def Job.content (job : Job) : Except Text Manifest :=
  match job.source with
  | some manifest => .ok manifest
  | none => .error (job.error.getD [])

/-- The manifest has been read before, and reads as it did. -/
structure Unchanged (host : Host) (daemon : Daemon) (path : Path) : Prop where
  known : ∃ job ∈ daemon.jobs, job.manifest = path
  same : ∀ job ∈ daemon.jobs, job.manifest = path → host.load path = job.content

theorem Job.anywhere_eq {job other : Job} (h : job.anywhere = other.anywhere) :
    job.manifest = other.manifest ∧ job.nextFire = other.nextFire ∧ job.content = other.content := by
  have manifest : job.anywhere.manifest = other.anywhere.manifest := by rw [h]
  have nextFire : job.anywhere.nextFire = other.anywhere.nextFire := by rw [h]
  have content : job.anywhere.content = other.anywhere.content := by rw [h]
  exact ⟨manifest, nextFire, content⟩

section

variable {before mid after : Daemon} {host : Host}

theorem SameJobs.refl (daemon : Daemon) : SameJobs daemon daemon := List.Perm.refl _

theorem SameJobs.symm (same : SameJobs before after) : SameJobs after before := List.Perm.symm same

theorem SameJobs.trans (first : SameJobs before mid) (second : SameJobs mid after) :
    SameJobs before after := List.Perm.trans second first

theorem SameJobs.map {β : Type} (same : SameJobs before after) {f : Job → β}
    (elsewhere : ∀ job, f job.anywhere = f job) :
    (after.jobs.map f).Perm (before.jobs.map f) := by
  have := List.Perm.map f same
  simpa only [List.map_map, Function.comp_def, elsewhere] using this

theorem SameJobs.ids (same : SameJobs before after) : (ids after.jobs).Perm (ids before.jobs) :=
  same.map fun _ => rfl

theorem SameJobs.find (same : SameJobs before after) {job : Job} (mem : job ∈ after.jobs) :
    ∃ old ∈ before.jobs, old.anywhere = job.anywhere :=
  List.mem_map.mp (same.mem_iff.mp (List.mem_map_of_mem mem))

theorem Unchanged.of_same {path : Path} (unchanged : Unchanged host before path)
    (same : SameJobs before after) : Unchanged host after path := by
  constructor
  · obtain ⟨job, mem, rfl⟩ := unchanged.known
    obtain ⟨again, hagain, alike⟩ := same.symm.find mem
    exact ⟨again, hagain, (Job.anywhere_eq alike).1⟩
  · intro job mem hpath
    obtain ⟨old, hold, alike⟩ := same.find mem
    obtain ⟨manifest, -, content⟩ := Job.anywhere_eq alike
    rw [← content]
    exact unchanged.same old hold (manifest.trans hpath)

end

instance (host : Host) (daemon : Daemon) (path : Path) : Decidable (Unchanged host daemon path) :=
  decidable_of_iff ((∃ job ∈ daemon.jobs, job.manifest = path) ∧
      ∀ job ∈ daemon.jobs, job.manifest = path → host.load path = job.content)
    ⟨fun h => ⟨h.1, h.2⟩, fun h => ⟨h.known, h.same⟩⟩

/-- What the content of a manifest decides. -/
def Job.key (job : Job) : Text × Option JobSchedule × Option Text × Option Manifest :=
  (job.id, job.schedule, job.error, job.source)

/-- The jobs of each manifest are those that one content of it gives. -/
def Built (daemon : Daemon) : Prop :=
  ∀ path, (∃ job ∈ daemon.jobs, job.manifest = path) → ∃ content,
    (daemon.jobs.filter (·.manifest = path)).map Job.key =
      (jobsOf (fun _ => content) ⟨path, []⟩ ⟨[]⟩).map Job.key

section

variable {load : Path → Except Text Manifest} {watched : Watched} {states : States}

theorem jobsOf_key (load : Path → Except Text Manifest) (watched : Watched) (states : States) :
    (jobsOf load watched states).map Job.key =
      (jobsOf (fun _ => load watched.path) ⟨watched.path, []⟩ ⟨[]⟩).map Job.key := by
  unfold jobsOf
  dsimp only
  cases load watched.path with
  | error error => rfl
  | ok manifest =>
    dsimp only
    split
    · rfl
    · simp only [List.map_map]
      rfl

theorem jobsOf_ne_nil : jobsOf load watched states ≠ [] := by
  unfold jobsOf
  split
  · exact List.cons_ne_nil _ _
  · split
    · exact List.cons_ne_nil _ _
    · rename_i some
      simpa using some

/-- Another entry of the list for the same file would give the same IDs again. -/
theorem paths_apart {front back : List Watched}
    (distinct : ((front ++ watched :: back).flatMap fun entry => ids (jobsOf load entry ⟨[]⟩)).Nodup) :
    ∀ entry ∈ front ++ back, entry.path ≠ watched.path := by
  intro entry mem same
  have apart : (ids (jobsOf load entry ⟨[]⟩)).Disjoint (ids (jobsOf load watched ⟨[]⟩)) := by
    rw [List.nodup_flatMap, List.pairwise_append, List.pairwise_cons] at distinct
    obtain ⟨-, -, ⟨after, -⟩, before⟩ := distinct
    rcases List.mem_append.mp mem with mem | mem
    · exact before entry mem watched (by simp)
    · exact (after entry mem).symm
  rw [ids_jobsOf_eq, ids_jobsOf_eq, same] at apart
  have some : idsOf load watched.path ≠ [] := by
    rw [idsOf, ids, ne_eq, List.map_eq_nil_iff]
    exact jobsOf_ne_nil
  obtain ⟨id, mem⟩ := List.exists_mem_of_ne_nil _ some
  exact apart mem mem

theorem filter_of_manifest {jobs : List Job} {path : Path}
    (own : ∀ job ∈ jobs, job.manifest = path) : jobs.filter (·.manifest = path) = jobs := by
  rw [List.filter_eq_self]
  exact fun job mem => by simpa using own job mem

theorem filter_of_apart {jobs : List Job} {path : Path}
    (apart : ∀ job ∈ jobs, job.manifest ≠ path) : jobs.filter (·.manifest = path) = [] := by
  rw [List.filter_eq_nil_iff]
  exact fun job mem => by simpa using apart job mem

theorem jobsOf_content {job : Job} (h : job ∈ jobsOf load watched states) :
    job.content = load watched.path := by
  unfold jobsOf at h
  cases hload : load watched.path with
  | error error =>
    simp only [hload, List.mem_singleton] at h
    rw [h]
    rfl
  | ok manifest =>
    simp only [hload] at h
    split at h
    · rw [List.mem_singleton.mp h]
      rfl
    · obtain ⟨schedule, -, rfl⟩ := List.mem_map.mp h
      rfl

theorem content_of_key {job other : Job} (h : job.key = other.key) : job.content = other.content := by
  simp only [Job.key, Prod.mk.injEq] at h
  unfold Job.content
  rw [h.2.2.1, h.2.2.2]

/-- A manifest that reads as it did gives its jobs again. -/
theorem Built.again {daemon : Daemon} {host : Host} (built : Built daemon)
    (unchanged : Unchanged host daemon watched.path) :
    (daemon.jobs.filter (·.manifest = watched.path)).map Job.key =
      (jobsOf host.load watched states).map Job.key := by
  obtain ⟨content, keys⟩ := built watched.path unchanged.known
  rw [jobsOf_key, keys]
  obtain ⟨job, hjob, hpath⟩ := unchanged.known
  have mem : job.key ∈ (jobsOf (fun _ => content) ⟨watched.path, []⟩ ⟨[]⟩).map Job.key := by
    rw [← keys]
    exact List.mem_map_of_mem (List.mem_filter.mpr ⟨hjob, by simpa using hpath⟩)
  obtain ⟨given, hgiven, hkey⟩ := List.mem_map.mp mem
  have same : host.load watched.path = content := by
    rw [unchanged.same job hjob hpath, ← content_of_key hkey]
    exact jobsOf_content hgiven
  rw [same]

end

/-! ## What a move does to the jobs -/

theorem Action.on_manifest (action : Action) (job : Job) :
    (action.on job).manifest = job.manifest := by
  cases action <;> rfl

theorem Action.on_key (action : Action) (job : Job) : (action.on job).key = job.key := by
  cases action <;> rfl

section

variable {daemon after : Daemon}

/-! ## The jobs of a manifest stay together -/

theorem Built.filter (built : Built daemon) (keep : Path → Bool)
    (jobs : after.jobs = daemon.jobs.filter fun job => keep job.manifest) : Built after := by
  intro path known
  rw [jobs] at known ⊢
  obtain ⟨held, mem, rfl⟩ := known
  obtain ⟨mem, kept⟩ := List.mem_filter.mp mem
  obtain ⟨content, keys⟩ := built _ ⟨held, mem, rfl⟩
  refine ⟨content, ?_⟩
  rw [← keys, List.filter_filter]
  congr 1
  refine List.filter_congr fun job _ => ?_
  by_cases here : job.manifest = held.manifest
  · simp [here, kept]
  · simp [here]

theorem Built.set {index : Nat} {job other : Job} (built : Built daemon)
    (found : daemon.jobs[index]? = some job) (manifest : other.manifest = job.manifest)
    (key : other.key = job.key) (jobs : after.jobs = daemon.jobs.set index other) :
    Built after := by
  intro path known
  rw [jobs] at known ⊢
  have same : ((daemon.jobs.set index other).filter (·.manifest = path)).map Job.key =
      (daemon.jobs.filter (·.manifest = path)).map Job.key :=
    filter_map_set_of_found found (by simp [manifest]) key
  rw [same]
  refine built path ?_
  obtain ⟨held, mem, rfl⟩ := known
  rcases List.mem_or_eq_of_mem_set mem with mem | rfl
  · exact ⟨held, mem, rfl⟩
  · exact ⟨job, List.mem_of_getElem? found, manifest.symm⟩

end

section

variable [crate : CronCrate]

theorem plan_plan (job : Job) (now again : Int) (allowed allowCatchUp : Bool) :
    plan (plan job now allowed).1 again allowCatchUp = plan job again allowCatchUp := by
  rw [plan_eq job now allowed]
  rfl

theorem plan_anywhere (job : Job) (now : Int) :
    (plan job.anywhere now false).1.nextFire = (plan job now false).1.nextFire := by
  rw [plan_nextFire, plan_nextFire]
  rfl

theorem plan_key (job : Job) (now : Int) (allowCatchUp : Bool) :
    (plan job now allowCatchUp).1.key = job.key := by
  rw [plan_eq]
  rfl

theorem planFresh_carry_key (jobs : List Job) (job : Job) (now : Int) :
    (planFresh (carry jobs job) now).1.key = job.key := by
  rw [planFresh_eq, carry_eq]
  rfl

/-- `other` stands for the same part of a manifest as `job`, and is planned at `now` or as `job`
was. -/
structure Replaces (now : Int) (job other : Job) : Prop where
  manifest : other.manifest = job.manifest
  key : other.key = job.key
  planned : other.nextFire = (plan other now false).1.nextFire ∨
    other.nextFire = job.nextFire ∧ ∀ now, (plan other now false).1.nextFire =
      (plan job now false).1.nextFire

theorem Replaces.of_plan {now : Int} {job mid : Job} (manifest : mid.manifest = job.manifest)
    (key : mid.key = job.key) : Replaces now job (plan mid now false).1 := by
  refine ⟨by simp [manifest], ?_, .inl ?_⟩
  · rw [plan_key, key]
  · rw [plan_plan]

theorem Replaces.of_same {now : Int} {job other : Job} (manifest : other.manifest = job.manifest)
    (key : other.key = job.key) (nextFire : other.nextFire = job.nextFire)
    (ready : other.isReady = job.isReady) (lastFire : other.state.lastFire = job.state.lastFire) :
    Replaces now job other := by
  refine ⟨manifest, key, .inr ⟨nextFire, fun now => ?_⟩⟩
  have schedule : other.schedule = job.schedule := congrArg (·.2.1) key
  rw [plan_nextFire, plan_nextFire, ready, lastFire, schedule]

variable {daemon after : Daemon} {host : Host} {guard : Guard}

/-- A move reads a manifest, drops jobs or changes one job. -/
theorem Move.jobs (move : Move guard host daemon after) :
    after.jobs = daemon.jobs ∨ (∃ watched, after.jobs = (daemon.install host watched
        (jobsOf host.load watched daemon.states)).jobs) ∨
      (∃ keep : Path → Bool, after.jobs = daemon.jobs.filter fun job => keep job.manifest) ∨
      ∃ index job other, daemon.jobs[index]? = some job ∧ Replaces host.now job other ∧
        after.jobs = daemon.jobs.set index other := by
  cases move with
  | reload watched allowed => exact .inr (.inl ⟨watched, rfl⟩)
  | add watched allowed _ => exact .inr (.inl ⟨watched, rfl⟩)
  | retain keep => exact .inr (.inr (.inl ⟨keep, rfl⟩))
  | remove manifest allowed => exact .inr (.inr (.inl ⟨(· ≠ manifest), rfl⟩))
  | fire _ found _ =>
    refine .inr (.inr (.inr ⟨_, _, _, found, ?_, congrArg Daemon.jobs (fire_of_found found host)⟩))
    exact .of_plan (Action.on_manifest _ _) (Action.on_key _ _)
  | startWaiting _ _ found _ =>
    refine .inr (.inr (.inr ⟨_, _, _, found, ?_, congrArg Daemon.jobs (start_of_found found _)⟩))
    exact .of_same rfl rfl rfl rfl rfl
  | trigger _ found _ _ =>
    refine .inr (.inr (.inr ⟨_, _, _, found, ?_, congrArg Daemon.jobs (start_of_found found _)⟩))
    exact .of_same rfl rfl rfl rfl rfl
  | settle found allowed outcome =>
    rename_i thread run
    cases here : daemon.position run.run.id with
    | none =>
      rw [settle_of_none here]
      exact .inl rfl
    | some place =>
      obtain ⟨job, held, -⟩ := found_of_position here
      refine .inr (.inr (.inr ⟨place, job, job.ended outcome, held, ?_,
        congrArg Daemon.jobs (settle_of_found here held host thread outcome)⟩))
      exact .of_same rfl rfl rfl rfl rfl
  | hold here paused =>
    obtain ⟨job, found, -⟩ := found_of_position here
    refine .inr (.inr (.inr ⟨_, job, _, found, ?_,
      congrArg Daemon.jobs (hold_of_found found host paused)⟩))
    exact .of_plan rfl rfl
  | load _ _ _ => exact .inl rfl
  | rest => exact .inl rfl

/-! ## The jobs of a manifest stay together -/

theorem Built.install (built : Built daemon) (watched : Watched) :
    Built (daemon.install host watched (jobsOf host.load watched daemon.states)) := by
  let fresh := jobsOf host.load watched daemon.states
  let planned := fresh.map fun job => (planFresh (carry daemon.jobs job) host.now).1
  have jobs : (daemon.install host watched fresh).jobs =
      daemon.jobs.filter (·.manifest ≠ watched.path) ++ planned := by
    simp [Daemon.install, rememberModified, planned]
  have own : ∀ job ∈ planned, job.manifest = watched.path := by
    intro job mem
    obtain ⟨built, hbuilt, rfl⟩ := List.mem_map.mp mem
    simp [jobsOf_manifest hbuilt]
  intro path known
  rw [jobs] at known ⊢
  rw [List.filter_append, List.filter_filter, List.map_append]
  by_cases here : path = watched.path
  · subst here
    refine ⟨host.load watched.path, ?_⟩
    have before : daemon.jobs.filter (fun job =>
        decide (job.manifest = watched.path) && decide (job.manifest ≠ watched.path)) = [] := by
      simp
    rw [before, filter_of_manifest own, List.map_nil, List.nil_append,
      ← jobsOf_key host.load watched daemon.states, List.map_map]
    exact List.map_congr_left fun job _ => planFresh_carry_key _ _ _
  · have before : daemon.jobs.filter (fun job =>
        decide (job.manifest = path) && decide (job.manifest ≠ watched.path)) =
          daemon.jobs.filter (·.manifest = path) := by
      refine List.filter_congr fun job _ => ?_
      by_cases at_path : job.manifest = path
      · simp [at_path, here]
      · simp [at_path]
    have apart : ∀ job ∈ planned, job.manifest ≠ path := by
      intro job mem
      rw [own job mem]
      exact Ne.symm here
    rw [before, filter_of_apart apart, List.map_nil, List.append_nil]
    refine built path ?_
    obtain ⟨held, mem, rfl⟩ := known
    rcases List.mem_append.mp mem with mem | mem
    · exact ⟨held, List.mem_of_mem_filter mem, rfl⟩
    · exact absurd (own held mem) here

theorem Move.built (move : Move guard host daemon after) (built : Built daemon) : Built after := by
  rcases move.jobs with same | ⟨watched, same⟩ | ⟨keep, same⟩ |
    ⟨index, job, other, found, replaces, same⟩
  · intro path
    rw [same]
    exact built path
  · intro path
    rw [same]
    exact built.install watched path
  · exact built.filter keep same
  · exact built.set found replaces.manifest replaces.key same

/-! ## What has no fire planned has ended -/

/-- Where no fire is planned, none is found at `clock`. -/
def Spent (clock : Int) (daemon : Daemon) : Prop :=
  ∀ job ∈ daemon.jobs, job.nextFire = none → (plan job clock false).1.nextFire = none

theorem Spent.later (ends : crate.Ends) {clock later : Int} (spent : Spent clock daemon)
    (le : clock ≤ later) : Spent later daemon := by
  intro job mem none
  have ended := spent job mem none
  rw [plan_nextFire] at *
  split
  · rename_i ready
    rw [if_pos ready, Option.bind_eq_none_iff] at ended
    rw [Option.bind_eq_none_iff]
    exact fun schedule hschedule => JobSchedule.planned_ends ends le (ended schedule hschedule)
  · rfl

theorem Move.spent (move : Move guard host daemon after) (spent : Spent host.now daemon) :
    Spent host.now after := by
  intro job mem none
  rcases move.jobs with same | ⟨watched, same⟩ | ⟨keep, same⟩ |
    ⟨index, held, other, found, replaces, same⟩
  · exact spent job (same ▸ mem) none
  · rw [same] at mem
    change job ∈ daemon.jobs.filter (·.manifest ≠ watched.path) ++ _ at mem
    rcases List.mem_append.mp mem with mem | mem
    · exact spent job (List.mem_of_mem_filter mem) none
    · obtain ⟨planned, hplanned, rfl⟩ := List.mem_map.mp mem
      obtain ⟨fresh, -, rfl⟩ := List.mem_map.mp hplanned
      unfold planFresh at *
      split at none
      · rw [if_pos ‹_›, plan_plan]
        exact none
      · rename_i some
        exact absurd (Option.isNone_iff_eq_none.mpr none) some
  · rw [same] at mem
    exact spent job (List.mem_of_mem_filter mem) none
  · rw [same] at mem
    rcases List.mem_or_eq_of_mem_set mem with mem | rfl
    · exact spent job mem none
    · rcases replaces.planned with planned | ⟨nextFire, planned⟩
      · exact planned.symm.trans none
      · rw [planned]
        exact spent held (List.mem_of_getElem? found) (nextFire ▸ none)

/-! ## One read -/

/-- What the job that had its ID gives a job that is built again. -/
theorem planFresh_again {fresh old : Job} (distinct : (ids daemon.jobs).Nodup) (held : Held daemon)
    (spent : Spent host.now daemon) (mem : old ∈ daemon.jobs) (key : old.key = fresh.key)
    (manifest : old.manifest = fresh.manifest) (state : fresh.state = daemon.states.get fresh.id) :
    (planFresh (carry daemon.jobs fresh) host.now).1.anywhere = old.anywhere := by
  simp only [Job.key, Prod.mk.injEq] at key
  obtain ⟨id, schedule, error, source⟩ := key
  rw [← id, held old mem] at state
  have carried : (carry daemon.jobs fresh).anywhere = old.anywhere := by
    rw [carry_of_mem distinct mem id, if_pos schedule]
    simp only [Job.anywhere, id, schedule, error, source, manifest, state]
  unfold planFresh
  split
  · rename_i none
    have planned := (Job.anywhere_eq carried).2.1
    rw [Option.isNone_iff_eq_none, planned] at none
    have ended := spent old mem none
    have again : (plan (carry daemon.jobs fresh) host.now false).1.nextFire = old.nextFire := by
      rw [none, ← ended, ← plan_anywhere, carried, plan_anywhere]
    rw [plan_eq, again, ← planned]
    exact carried
  · exact carried

theorem reload_same {watched : Watched} (distinct : (ids daemon.jobs).Nodup) (held : Held daemon)
    (spent : Spent host.now daemon) (built : Built daemon)
    (unchanged : Unchanged host daemon watched.path) :
    SameJobs daemon (reload host daemon watched) := by
  let fresh := jobsOf host.load watched daemon.states
  have jobs : (reload host daemon watched).jobs = daemon.jobs.filter (·.manifest ≠ watched.path) ++
      fresh.map fun job => (planFresh (carry daemon.jobs job) host.now).1 := by
    simp [reload, install, rememberModified, fresh]
  have again : (fresh.map fun job => (planFresh (carry daemon.jobs job) host.now).1).map
      Job.anywhere = (daemon.jobs.filter (·.manifest = watched.path)).map Job.anywhere := by
    rw [List.map_map]
    refine (map_eq_of_map_eq (built.again unchanged) fun old hold job hjob key => ?_).symm
    obtain ⟨mem, hpath⟩ := List.mem_filter.mp hold
    refine (planFresh_again distinct held spent mem key ?_ (jobsOf_new hjob).1).symm
    rw [jobsOf_manifest hjob]
    simpa using hpath
  unfold SameJobs
  rw [jobs, List.map_append, again, ← List.map_append]
  refine List.Perm.map _ (List.perm_append_comm.trans ?_)
  have parts := List.filter_append_perm (fun job : Job => decide (job.manifest = watched.path))
    daemon.jobs
  simpa only [ne_eq, decide_not] using parts

/-! ## Several reads -/

theorem Spent.reload (spent : Spent host.now daemon) (watched : Watched) :
    Spent host.now (reload host daemon watched) :=
  @Move.spent _ _ _ host (everything True) (.reload watched trivial) spent

theorem Spent.reloads (spent : Spent host.now daemon) (watched : List Watched) :
    Spent host.now (runAll (Daemon.reload host) daemon watched) := by
  induction watched generalizing daemon with
  | nil => exact spent
  | cons first rest ih => exact ih (spent.reload first)

theorem Built.reloads (built : Built daemon) (watched : List Watched) :
    Built (runAll (reload host) daemon watched) := by
  induction watched generalizing daemon with
  | nil => exact built
  | cons first rest ih => exact ih (built.install first)

theorem reloads_same {watched : List Watched} (distinct : (ids daemon.jobs).Nodup)
    (held : Held daemon) (spent : Spent host.now daemon) (built : Built daemon)
    (unchanged : ∀ entry ∈ watched, Unchanged host daemon entry.path) :
    SameJobs daemon (runAll (reload host) daemon watched) := by
  induction watched generalizing daemon with
  | nil => exact .refl daemon
  | cons first rest ih =>
    have once := reload_same distinct held spent built (unchanged first (by simp))
    refine once.trans (ih ?_ (held.install first host.load) (spent.reload first)
      (built.install first) fun entry mem => ?_)
    · exact once.ids.nodup_iff.mpr distinct
    · exact (unchanged entry (by simp [mem])).of_same once

/-! ## The start -/

theorem plan_of_catchUp {job : Job} {now : Int} (h : (plan job now true).1.nextFire = none) :
    (plan job now false).1.nextFire = none := by
  unfold plan at *
  dsimp only at *
  split
  · rfl
  · rename_i ready
    rw [if_neg ready] at h
    cases hschedule : job.schedule with
    | none => rfl
    | some schedule =>
      simp only [hschedule] at h ⊢
      cases hnext : schedule.schedule.nextAfter (job.state.lastFire.getD
          (if schedule.schedule.isRecurring then now else 0)) with
      | none => rfl
      | some next =>
        simp only [hnext] at h ⊢
        split
        · rename_i ahead
          rw [if_pos ahead] at h
          cases h
        · rename_i passed
          rw [if_neg passed] at h
          split at h
          · cases h
          · exact h

theorem Spent.opened {root : Path} {limit : Nat} {files : Files}
    (opened : openDaemon host root limit files = some daemon) : Spent host.now daemon := by
  obtain ⟨registry, states, -, -, -, jobs⟩ := openDaemon_built opened
  intro job mem none
  rw [jobs] at mem
  obtain ⟨built, -, rfl⟩ := List.mem_map.mp mem
  rw [plan_plan]
  exact plan_of_catchUp none

theorem Built.opened {root : Path} {limit : Nat} {files : Files}
    (opened : openDaemon host root limit files = some daemon)
    (distinct : (ids daemon.jobs).Nodup) : Built daemon := by
  obtain ⟨registry, states, listed, -, -, jobs⟩ := openDaemon_built opened
  rw [openDaemon_ids opened listed, listedIds] at distinct
  intro path known
  rw [jobs] at known ⊢
  obtain ⟨_, mem, rfl⟩ := known
  obtain ⟨built, hbuilt, rfl⟩ := List.mem_map.mp mem
  obtain ⟨watched, hwatched, hjob⟩ := List.mem_flatMap.mp hbuilt
  rw [plan_manifest, jobsOf_manifest hjob]
  refine ⟨host.load watched.path, ?_⟩
  obtain ⟨front, back, hregistry⟩ := List.append_of_mem hwatched
  rw [hregistry] at distinct
  have none : ∀ part : List Watched, (∀ entry ∈ part, entry ∈ front ++ back) →
      ((part.flatMap fun entry => jobsOf host.load entry states).filter
        (·.manifest = watched.path)) = [] := by
    intro part inside
    refine filter_of_apart fun job mem => ?_
    obtain ⟨entry, hentry, hjob⟩ := List.mem_flatMap.mp mem
    rw [jobsOf_manifest hjob]
    exact paths_apart distinct entry (inside entry hentry)
  have whole : (jobsOf host.load watched states).filter (·.manifest = watched.path) =
      jobsOf host.load watched states := filter_of_manifest fun job mem => jobsOf_manifest mem
  rw [List.filter_map, List.map_map]
  simp only [Function.comp_def, plan_manifest, plan_key]
  simp only [build, hregistry, List.flatMap_append, List.flatMap_cons, List.filter_append,
    none front fun entry mem => List.mem_append_left _ mem,
    none back fun entry mem => List.mem_append_right _ mem, whole, List.nil_append, List.append_nil]
  exact jobsOf_key _ _ _

/-! ## Every history -/

/-- What the clock says at the events, in order. -/
def clocks (inputs : List Input) : List Int :=
  inputs.filterMap fun input => input.host.map (·.now)

theorem Spent.step (ends : crate.Ends) {clock : Int} {input : Input} (spent : Spent clock daemon)
    (forward : ∀ host, input.host = some host → clock ≤ host.now) :
    Spent ((input.host.map (·.now)).getD clock) (daemon.step input) := by
  let host := input.host.getD { (default : Host) with now := clock }
  have time : host.now = (input.host.map (·.now)).getD clock := by
    cases hhost : input.host <;> simp [host, hhost]
  have le : clock ≤ host.now := by
    rw [time]
    cases hhost : input.host with
    | none => exact le_refl _
    | some own => exact forward own hhost
  have moves : Moves (everything True) host daemon (daemon.step input) :=
    step_moves (fun _ => everything_allows (.inl trivial)) fun other h => by simp [host, h]
  rw [← time]
  exact moves.keeps (fun _ _ move => move.spent) (spent.later ends le)

theorem Spent.runAll (ends : crate.Ends) {clock last : Int} {inputs : List Input}
    (spent : Spent clock daemon)
    (forward : (clock :: (clocks inputs ++ [last])).Pairwise (· ≤ ·)) :
    Spent last (runAll Daemon.step daemon inputs) := by
  induction inputs generalizing daemon clock with
  | nil => exact spent.later ends (List.rel_of_pairwise_cons forward (by simp [clocks]))
  | cons input rest ih =>
    cases hhost : input.host with
    | none =>
      have once := @Spent.step _ _ ends _ input spent (by simp [hhost])
      rw [hhost] at once
      exact ih once (by simpa [clocks, hhost] using forward)
    | some host =>
      have once := @Spent.step _ _ ends _ input spent fun own h => by
        refine List.rel_of_pairwise_cons forward ?_
        simp [clocks, h]
      rw [hhost] at once
      have later := forward.of_cons
      exact ih once (by simpa [clocks, hhost] using later)

/-- The state in the midst of a rescan, or of a pass over the whole list. -/
def Midway (host : Host) (daemon read : Daemon) : Prop :=
  ∃ front, read = Lib.runAll (reload host) daemon front ∨
    read = Lib.runAll (reload host) daemon.reloadRegistry front

/-- What leaves the jobs alone where the manifests that are read did not change. -/
structure RereadsSame (host : Host) (daemon : Daemon) : Prop where
  reload : ∀ read watched, Midway host daemon read → (ids read.jobs).Nodup →
    Unchanged host read watched.path → SameJobs read (reload host read watched)
  rescan : (∀ watched ∈ daemon.changed host, Unchanged host daemon watched.path) →
    SameJobs daemon (daemon.rescan host)
  /-- No manifest left the list or joined it. -/
  reloadAll : (∀ job ∈ daemon.jobs, daemon.reloadRegistry.registry.watches job.manifest = true) →
    (∀ watched ∈ daemon.reloadRegistry.registry.manifests, Unchanged host daemon watched.path) →
    SameJobs daemon (daemon.reloadAll host).2
  add : ∀ watched, Unchanged host daemon watched.path → SameJobs daemon (daemon.add host watched).2

/-- As long as the IDs stay distinct and the clock does not run back, reading a manifest again that
did not change leaves every job as it is. -/
theorem reread_same {root : Path} {limit : Nat} {files : Files} {inputs : List Input}
    (ends : crate.Ends) (opened : openDaemon host root limit files = some daemon)
    (distinct : (ids daemon.jobs).Nodup)
    (apart : Along Daemon.step (fun daemon input => (ids (daemon.step input).jobs).Nodup)
      daemon inputs) (again : Host)
    (forward : (host.now :: (clocks inputs ++ [again.now])).Pairwise (· ≤ ·)) :
    RereadsSame again (Lib.runAll Daemon.step daemon inputs) := by
  let reached := Lib.runAll Daemon.step daemon inputs
  obtain ⟨held, told⟩ : Held reached ∧ (ids reached.jobs).Nodup :=
    (Held.opened opened).runAll distinct apart
  have spent : Spent again.now reached := (Spent.opened opened).runAll ends forward
  have built : Built reached := keeps_always (fun _ _ _ move => move.built)
    (Built.opened opened distinct) inputs
  have listed : Held reached.reloadRegistry := fun job mem => held job (List.mem_of_mem_filter mem)
  have listedSpent : Spent again.now reached.reloadRegistry :=
    fun job mem => spent job (List.mem_of_mem_filter mem)
  have listedBuilt : Built reached.reloadRegistry :=
    built.filter (fun path => reached.reloadRegistry.registry.watches path) rfl
  refine ⟨?_, reloads_same told held spent built, ?_, ?_⟩
  · rintro read watched ⟨front, rfl | rfl⟩ distinct unchanged
    · exact reload_same distinct (held.reloads front) (spent.reloads front) (built.reloads front)
        unchanged
    · exact reload_same distinct (listed.reloads front) (listedSpent.reloads front)
        (listedBuilt.reloads front) unchanged
  · intro stay unchanged
    have whole : SameJobs reached reached.reloadRegistry := by
      have all : reached.reloadRegistry.jobs = reached.jobs := List.filter_eq_self.mpr stay
      unfold SameJobs
      rw [all]
    refine whole.trans (reloads_same ?_ listed listedSpent listedBuilt fun watched mem => ?_)
    · exact whole.ids.nodup_iff.mpr told
    · exact (unchanged watched mem).of_same whole
  · intro watched unchanged
    rcases @add_leaves reached again _ watched with same | same | ⟨-, -, same⟩
    · rw [same]
      exact .refl reached
    · rw [same]
      exact .refl reached
    · rw [same]
      have read := reload_same told held spent built unchanged
      exact read

end

/-! ## Where a read changes a job -/

/-- The fire of the job has passed when the daemon opens. -/
def missedNightly : Daemon :=
  (@openDaemon .unused (lateHost 60000000001 0) ["root"] 1 ⟨.ok nightly, ⟨[]⟩⟩).get (by decide +kernel)

theorem missedNightly_opened :
    @openDaemon .unused (lateHost 60000000001 0) ["root"] 1 ⟨.ok nightly, ⟨[]⟩⟩ =
      some missedNightly :=
  (Option.some_get _).symm

/-- A manifest breaks and takes the ID of a job of another, the job that has the ID is held back, and
the broken manifest is removed. -/
def removedAfterClash : List Input :=
  [.pass (hostAt 1 1 oneBroken), .command (hostAt 1 1 oneBroken) (.pause "nightly".toList),
    .pass (hostAt 1 1 oneBroken),
    .command (hostAt 1 1 oneBroken) (.remove ["a", "nightly.yaml"])]

/-- A clock that runs back plans a fire again, and a job takes over what happened to another while
both had its ID. -/
theorem reread_moves :
    (@openDaemon .unused (lateHost 60000000001 0) ["root"] 1 ⟨.ok nightly, ⟨[]⟩⟩ =
        some missedNightly ∧
      (ids missedNightly.jobs).Nodup ∧
      (∀ watched ∈ missedNightly.changed (lateHost 0 1),
        Unchanged (lateHost 0 1) missedNightly watched.path) ∧
      ¬ SameJobs missedNightly (@rescan .unused missedNightly (lateHost 0 1))) ∧
    @openDaemon .unused early ["root"] 2 ⟨.ok twoNightly, ⟨[]⟩⟩ = some twoNightlyDaemon ∧
      let reached := @runAll _ _ (@step .unused) twoNightlyDaemon removedAfterClash
      (ids reached.jobs).Nodup ∧
      (∀ watched ∈ reached.changed (hostAt 2 2 oneBroken),
        Unchanged (hostAt 2 2 oneBroken) reached watched.path) ∧
      ¬ SameJobs reached (@rescan .unused reached (hostAt 2 2 oneBroken)) := by
  refine ⟨⟨missedNightly_opened, by decide +kernel, ?_, fun same => ?_⟩, twoNightlyDaemon_opened,
    by decide +kernel, ?_, fun same => ?_⟩
  · decide +kernel
  · exact absurd (same.map (f := Job.nextFire) fun _ => rfl) (by decide +kernel)
  · decide +kernel
  · exact absurd (same.map (f := Job.state) fun _ => rfl) (by decide +kernel)

/-- A minute passes, and the job fires. -/
theorem reread_same_fired :
    @RereadsSame .unused (lateHost 60000000001 1)
      (@runAll _ _ (@step .unused) nightlyDaemon [.pass (lateHost 60000000000 0)]) := by
  let _ : CronCrate := .unused
  refine reread_same ?_ nightlyDaemon_opened (by decide +kernel) ?_ _ ?_
  · exact fun _ _ _ _ _ _ => rfl
  · exact ⟨by decide +kernel, trivial⟩
  · decide +kernel

end Daemon

end Beez
