import Beez.Daemon.Moves

/-! # One job for one ID -/

open Beez.Core Beez.Lib

namespace Beez.Daemon

/-! ## The IDs of one manifest -/

theorem idOf_injOn (stem : Text) {schedules : List JobSchedule} (apart : NamedApart schedules) :
    (schedules.map (idOf stem)).Nodup := by
  by_cases few : schedules.length ≤ 1
  · rcases schedules with _ | ⟨schedule, _ | ⟨other, rest⟩⟩
    · exact .nil
    · simp
    · simp at few
  · have named := apart.named (by omega)
    have distinct := apart.distinct
    clear apart few
    induction schedules with
    | nil => exact .nil
    | cons schedule rest ih =>
      obtain ⟨name, hname⟩ := Option.ne_none_iff_exists'.mp (named schedule (by simp))
      rw [List.filterMap_cons, hname, List.nodup_cons] at distinct
      rw [List.map_cons, List.nodup_cons]
      refine ⟨fun hmem => distinct.1 ?_, ih (fun s hs => named s (by simp [hs])) distinct.2⟩
      obtain ⟨other, hother, hid⟩ := List.mem_map.mp hmem
      obtain ⟨name', hname'⟩ := Option.ne_none_iff_exists'.mp (named other (by simp [hother]))
      simp only [idOf, hname, hname'] at hid
      refine List.mem_filterMap.mpr ⟨other, hother, ?_⟩
      simpa [hname'] using hid

theorem jobsOf_ids_nodup (load : Path → Except Text Manifest) (watched : Watched)
    (states : States) : (ids (jobsOf load watched states)).Nodup := by
  unfold jobsOf
  split
  · simp [ids]
  · rename_i manifest _
    split
    · simp [ids]
    · have := idOf_injOn (stem watched.path) manifest.namedApart
      simpa [ids, jobOf, Job.new, Function.comp_def] using this

theorem ids_jobsOf (load : Path → Except Text Manifest) (watched : Watched)
    (states states' : States) : ids (jobsOf load watched states) = ids (jobsOf load watched states')
    := by
  unfold jobsOf
  split
  · rfl
  · split
    · rfl
    · simp [ids, jobOf, Job.new]

/-! ## What keeps the IDs apart -/

/-- A read may not bring an ID that a job of another manifest holds. -/
def ownIds : Guard where
  read := fun host daemon watched =>
    ∀ id ∈ ids (jobsOf host.load watched daemon.states), id ∉ daemon.othersIds watched
  added := fun _ _ _ => True
  removed := fun _ _ => True
  ended := fun _ _ => True
  loads := fun _ _ => True

section

variable {daemon after : Daemon} {host : Host}

theorem ids_set {index : Nat} {job other : Job} (found : daemon.jobs[index]? = some job)
    (same : other.id = job.id) : ids (daemon.jobs.set index other) = ids daemon.jobs :=
  map_set_of_found found same

theorem start_ids {index : Nat} {job : Job} (found : daemon.jobs[index]? = some job) (time : Int) :
    ids (daemon.start index time).jobs = ids daemon.jobs := by
  rw [start_of_found found]
  exact ids_set found rfl

theorem settle_ids (thread : Nat) (id : Text) (outcome : RunOutcome) :
    ids (daemon.settle host thread id outcome).jobs = ids daemon.jobs := by
  cases here : daemon.position id with
  | none => rw [settle_of_none here]
  | some position =>
    obtain ⟨job, found, -⟩ := found_of_position here
    rw [settle_of_found here found]
    exact ids_set found rfl

theorem admitJobs_own {jobs : List Job} {others names : List Text}
    (admitted : admitJobs jobs others = .ok names) : ∀ id ∈ ids jobs, id ∉ others := by
  unfold admitJobs at admitted
  split at admitted
  · cases admitted
  · split at admitted
    · cases admitted
    · rename_i absent
      intro id hid hother
      exact List.find?_eq_none.mp absent id hother (by simpa using hid)

variable [CronCrate]

theorem fire_ids {index : Nat} {job : Job} (found : daemon.jobs[index]? = some job) :
    ids (fire host daemon index).jobs = ids daemon.jobs := by
  rw [fire_of_found found]
  exact ids_set found (by simp)

theorem hold_ids {id : Text} {index : Nat} (here : daemon.position id = some index)
    (paused : Bool) :
    ids (((daemon.holdJob index paused).saveState host index).planJob index host.now false).jobs
      = ids daemon.jobs := by
  obtain ⟨job, found, -⟩ := found_of_position here
  rw [hold_of_found found]
  exact ids_set found (by simp [Job.held])

theorem ids_install (watched : Watched) (fresh : List Job) :
    ids (daemon.install host watched fresh).jobs = daemon.othersIds watched ++ ids fresh := by
  unfold install othersIds
  simp [ids, rememberModified, Function.comp_def]

theorem install_distinct {watched : Watched} (distinct : (ids daemon.jobs).Nodup)
    (own : ∀ id ∈ ids (jobsOf host.load watched daemon.states), id ∉ daemon.othersIds watched) :
    (ids (reload host daemon watched).jobs).Nodup := by
  unfold reload
  rw [ids_install, List.nodup_append]
  refine ⟨distinct.sublist (List.filter_sublist.map _), jobsOf_ids_nodup _ _ _, ?_⟩
  exact fun id hother other hfresh same => own other hfresh (same ▸ hother)

/-- Under every guard that refuses reads with an ID of another manifest. -/
theorem move_distinct {guard : Guard} (move : Move guard host daemon after)
    (own : ∀ watched, guard.read host daemon watched → ownIds.read host daemon watched)
    (distinct : (ids daemon.jobs).Nodup) : (ids after.jobs).Nodup := by
  cases move with
  | reload watched allowed => exact install_distinct distinct (own watched allowed)
  | add watched _ admitted => exact install_distinct distinct (admitJobs_own admitted)
  | retain keep => exact distinct.sublist (List.filter_sublist.map _)
  | remove manifest _ => exact distinct.sublist (List.filter_sublist.map _)
  | fire _ found _ => rwa [fire_ids found]
  | startWaiting _ _ found _ => rwa [start_ids found]
  | trigger _ found _ _ => rwa [start_ids found]
  | settle _ _ _ => rwa [settle_ids]
  | hold here paused => rwa [hold_ids here]
  | load _ _ _ => exact distinct
  | rest => exact distinct

/-- The IDs that the manifests of a list give. -/
def listedIds (load : Path → Except Text Manifest) (registry : Registry) : List Text :=
  registry.manifests.flatMap fun watched => ids (jobsOf load watched ⟨[]⟩)

theorem openDaemon_ids {root : Path} {limit : Nat} {files : Files} {registry : Registry}
    (opened : openDaemon host root limit files = some daemon)
    (listed : files.registry = .ok registry) :
    ids daemon.jobs = listedIds host.load registry := by
  obtain ⟨registry', states, listed', -, -, hjobs⟩ := openDaemon_built opened
  obtain rfl : registry = registry' := Except.ok.inj (listed.symm.trans listed')
  rw [hjobs]
  simp only [ids, List.map_map, Function.comp_def, plan_id, build, listedIds, List.map_flatMap]
  exact List.flatMap_congr fun watched _ => ids_jobsOf host.load watched states _

/-- As long as no read brings an ID of another manifest, the IDs stay distinct. -/
theorem ids_distinct {root : Path} {limit : Nat} {files : Files} {registry : Registry}
    {inputs : List Input} (opened : openDaemon host root limit files = some daemon)
    (listed : files.registry = .ok registry) (distinct : (listedIds host.load registry).Nodup)
    (own : ownIds.AllowsAll daemon inputs) : (ids (runAll step daemon inputs).jobs).Nodup :=
  own.keeps (fun _ _ _ move => move_distinct move fun _ allowed => allowed) (openDaemon_ids opened listed ▸ distinct)

end

/-! ## A manifest that breaks takes the ID of another -/

def backupTask : TaskDefinition := ⟨⟨"backup".toList, by decide⟩, [], .command "tar".toList [], none⟩

def oneTime (name : Option Text) (instant : Int) : JobSchedule :=
  ⟨name, .once instant, .skip, false, true, true⟩

def oneTask (schedule : JobSchedule) : Except Text Manifest :=
  Manifest.ofDocument ⟨[.ok schedule], .ok [backupTask]⟩

/-- A host at `now` whose manifests last changed at `changed`. -/
def hostAt (now changed : Int) (load : Path → Except Text Manifest) : Host :=
  ⟨now, fun _ => some changed, load, fun _ => some changed, .ok (), fun _ => true⟩

def nightlyIn (directory : String) : Watched := ⟨[directory, "nightly.yaml"], [directory]⟩

/-- `/a/nightly.yaml` and `/b/nightly.yaml`. -/
def twoNightly : Registry := ⟨[nightlyIn "a", nightlyIn "b"]⟩

/-- Only `/a/nightly.yaml` names its schedule. -/
def oneNamed (name : Text) (path : Path) : Except Text Manifest :=
  if path = ["a", "nightly.yaml"] then oneTask (oneTime (some name) 60)
  else oneTask (oneTime none 60)

/-- `/a/nightly.yaml` no longer loads. -/
def oneBroken (path : Path) : Except Text Manifest :=
  if path = ["a", "nightly.yaml"] then .error "invalid".toList else oneTask (oneTime none 60)

def early : Host := hostAt 0 0 (oneNamed "early".toList)

def twoNightlyDaemon : Daemon :=
  (@openDaemon .unused early ["root"] 2 ⟨.ok twoNightly, ⟨[]⟩⟩).get (by decide +kernel)

theorem twoNightlyDaemon_opened :
    @openDaemon .unused early ["root"] 2 ⟨.ok twoNightly, ⟨[]⟩⟩ = some twoNightlyDaemon :=
  (Option.some_get _).symm

theorem ids_clash :
    @openDaemon .unused early ["root"] 2 ⟨.ok twoNightly, ⟨[]⟩⟩ = some twoNightlyDaemon ∧
      (listedIds early.load twoNightly).Nodup ∧
      ¬ (ids (@step .unused twoNightlyDaemon (.pass (hostAt 1 1 oneBroken))).jobs).Nodup :=
  ⟨twoNightlyDaemon_opened, by decide +kernel, by decide +kernel⟩

/-- The same manifest may give its schedule another name. -/
theorem ids_distinct_renamed :
    (ids (@runAll _ _ (@step .unused) twoNightlyDaemon
      [.pass (hostAt 1 1 (oneNamed "late".toList))]).jobs).Nodup := by
  let _ : CronCrate := .unused
  refine ids_distinct twoNightlyDaemon_opened rfl (by decide +kernel) ⟨fun _ => ?_, trivial⟩
  have changed : twoNightlyDaemon.changed (hostAt 1 1 (oneNamed "late".toList)) =
      [nightlyIn "a", nightlyIn "b"] := by decide +kernel
  rw [Guard.allows]
  rw [changed]
  refine ⟨?_, ?_, trivial⟩
  · unfold ownIds
    decide +kernel
  · unfold ownIds
    decide +kernel

end Beez.Daemon
