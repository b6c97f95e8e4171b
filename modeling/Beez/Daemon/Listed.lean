import Beez.Daemon.Client
import Beez.Daemon.Identity

/-! # What a command changes in a daemon -/

open Beez.Lib

namespace Beez.Daemon

/-! ## Which manifest gives which job -/

/-- The jobs, each with the manifest that it comes from. -/
def places (jobs : List Job) : List (Path × Text) := jobs.map fun job => (job.manifest, job.id)

/-- The IDs that the manifest at `path` gives, where it is watched. -/
def idsOf (load : Path → Except Text Manifest) (path : Path) : List Text :=
  ids (jobsOf load ⟨path, []⟩ ⟨[]⟩)

/-- A manifest of the list gives the job. -/
def Registry.Gives (registry : Registry) (load : Path → Except Text Manifest) (place : Path × Text) :
    Prop :=
  registry.watches place.1 = true ∧ place.2 ∈ idsOf load place.1

section

variable {jobs : List Job} {load : Path → Except Text Manifest} {watched : Watched} {states : States}
  {registry : Registry} {id : Text} {place : Path × Text}

theorem ids_jobsOf_eq : ids (jobsOf load watched states) = idsOf load watched.path := by
  unfold idsOf jobsOf
  dsimp only
  split
  · rfl
  · split
    · rfl
    · simp [ids, jobOf, Job.new]

theorem mem_ids_iff : id ∈ ids jobs ↔ ∃ path, (path, id) ∈ places jobs := by
  simp [ids, places]

theorem mem_places_jobsOf : place ∈ places (jobsOf load watched states) ↔
    place.1 = watched.path ∧ place.2 ∈ idsOf load watched.path := by
  rw [← @ids_jobsOf_eq load watched states]
  simp only [places, ids, List.mem_map, Prod.ext_iff]
  constructor
  · rintro ⟨job, hjob, hpath, hid⟩
    exact ⟨hpath.symm.trans (jobsOf_manifest hjob), job, hjob, hid⟩
  · rintro ⟨hpath, job, hjob, hid⟩
    exact ⟨job, hjob, (jobsOf_manifest hjob).trans hpath.symm, hid⟩

theorem mem_places_filter (path : Path) : place ∈ places (jobs.filter (·.manifest ≠ path)) ↔
    place ∈ places jobs ∧ place.1 ≠ path := by
  simp only [places, List.mem_map, List.mem_filter, decide_eq_true_eq]
  constructor
  · rintro ⟨job, ⟨hjob, hne⟩, rfl⟩
    exact ⟨⟨job, hjob, rfl⟩, hne⟩
  · rintro ⟨⟨job, hjob, rfl⟩, hne⟩
    exact ⟨job, ⟨hjob, hne⟩, rfl⟩

theorem mem_places_build {modified : Path → Option Int} :
    place ∈ places (build load modified registry states).2 ↔ registry.Gives load place := by
  have hbuild : places (build load modified registry states).2 =
      registry.manifests.flatMap fun watched => places (jobsOf load watched states) := by
    simp [places, build, List.map_flatMap]
  simp only [hbuild, List.mem_flatMap, mem_places_jobsOf, Registry.Gives, Registry.watches_iff]
  constructor
  · rintro ⟨watched, hmem, hpath, hid⟩
    exact ⟨⟨watched, hmem, hpath.symm⟩, hpath ▸ hid⟩
  · rintro ⟨⟨watched, hmem, hpath⟩, hid⟩
    exact ⟨watched, hmem, hpath.symm, hpath ▸ hid⟩

theorem gives_add : (registry.add watched).2.Gives load place ↔
    (registry.Gives load place ∧ place.1 ≠ watched.path) ∨
      place ∈ places (jobsOf load watched states) := by
  rw [Registry.Gives, Registry.watches_add, mem_places_jobsOf, Registry.Gives]
  constructor
  · rintro ⟨⟨h, hne⟩ | heq, hid⟩
    · exact .inl ⟨⟨h, hid⟩, hne⟩
    · exact .inr ⟨heq, heq ▸ hid⟩
  · rintro (⟨⟨h, hid⟩, hne⟩ | ⟨heq, hid⟩)
    · exact ⟨.inl ⟨h, hne⟩, hid⟩
    · exact ⟨.inr heq, heq ▸ hid⟩

theorem gives_of_watches (h : registry.watches watched.path = true) : registry.Gives load place ↔
    (registry.Gives load place ∧ place.1 ≠ watched.path) ∨
      place ∈ places (jobsOf load watched states) := by
  rw [mem_places_jobsOf]
  constructor
  · intro hgives
    by_cases heq : place.1 = watched.path
    · exact .inr ⟨heq, heq ▸ hgives.2⟩
    · exact .inl ⟨hgives, heq⟩
  · rintro (⟨hgives, -⟩ | ⟨heq, hid⟩)
    · exact hgives
    · exact ⟨heq ▸ h, heq ▸ hid⟩

theorem gives_remove (path : Path) : (registry.remove path).2.Gives load place ↔
    registry.Gives load place ∧ place.1 ≠ path := by
  rw [Registry.Gives, Registry.watches_remove, Registry.Gives, and_right_comm]

end

/-! ## What reading a manifest changes -/

section

variable {daemon : Daemon} {host : Host} {watched : Watched}

theorem mem_manifests_rememberModified {entry : WatchedManifest}
    (h : entry ∈ (daemon.rememberModified host watched).manifests) :
    entry ∈ daemon.manifests ∨ entry.watched = watched := by
  unfold rememberModified at h
  dsimp only at h
  split at h
  · exact (List.mem_or_eq_of_mem_set h).imp id fun heq => by rw [heq]
  · rcases List.mem_append.mp h with h | h
    · exact .inl h
    · exact .inr (by rw [List.mem_singleton.mp h])

variable [CronCrate]

theorem mem_places_install {fresh : List Job} {place : Path × Text} :
    place ∈ places (daemon.install host watched fresh).jobs ↔
      (place ∈ places daemon.jobs ∧ place.1 ≠ watched.path) ∨ place ∈ places fresh := by
  rw [← mem_places_filter]
  simp [install, rememberModified, places, Function.comp_def]

end

/-! ## What a command changes -/

section

variable {daemon : Daemon} {host : Host}

def removed (daemon : Daemon) (host : Host) (path : Path) : Daemon :=
  Daemon.pruneStates
    (Daemon.retainManifests
      { daemon with
        registry := (daemon.registry.remove path).2
        files := { daemon.files with registry := .ok (daemon.registry.remove path).2 } }
      (· ≠ path)) host

theorem remove_cases (writes : host.registryWrite = .ok ()) (path : Path) :
    (daemon.registry.watches path = true ∧ ∃ message,
      daemon.remove host path = (.done message, daemon.removed host path)) ∨
    (daemon.registry.watches path = false ∧ ∃ message,
      daemon.remove host path = (.error message, daemon)) := by
  unfold Daemon.remove unwatch
  cases hwatches : daemon.registry.watches path with
  | false =>
    refine .inr ⟨rfl, ?_⟩
    simp only [Registry.remove_of_not_watches hwatches]
    exact ⟨_, rfl⟩
  | true =>
    refine .inl ⟨rfl, ?_⟩
    have hremoved := (daemon.registry.remove_fst path).trans hwatches
    simp only [hremoved, writes, Bool.not_true, Bool.false_eq_true, if_false]
    exact ⟨_, rfl⟩

variable [CronCrate]

def added (daemon : Daemon) (host : Host) (watched : Watched) : Daemon :=
  Daemon.install
    { daemon with
      registry := (daemon.registry.add watched).2
      files := { daemon.files with registry := .ok (daemon.registry.add watched).2 } }
    host watched (jobsOf host.load watched daemon.states)

theorem add_cases (writes : host.registryWrite = .ok ()) (watched : Watched) :
    (∃ names message,
      admitJobs (jobsOf host.load watched daemon.states) (daemon.othersIds watched) = .ok names ∧
        daemon.add host watched = (.done message, daemon.added host watched)) ∨
    ∃ error,
      admitJobs (jobsOf host.load watched daemon.states) (daemon.othersIds watched) = .error error ∧
        daemon.add host watched = (.error error, daemon) := by
  unfold Daemon.add
  cases hadmitted : admitJobs (jobsOf host.load watched daemon.states) (daemon.othersIds watched) with
  | ok names =>
    simp only [hadmitted, watch, writes]
    exact .inl ⟨names, _, rfl, rfl⟩
  | error error =>
    simp only [hadmitted]
    exact .inr ⟨error, rfl, rfl⟩

def heldAt (daemon : Daemon) (host : Host) (index : Nat) (job : Job) (paused : Bool) : Daemon :=
  { daemon with
    jobs := daemon.jobs.set index (plan (job.held paused) host.now false).1
    states := daemon.states.set job.id (job.held paused).state
    files := (Daemon.writeStates
      { daemon with states := daemon.states.set job.id (job.held paused).state } host).files
    trace := daemon.trace ++ planLines [plan (job.held paused) host.now false] }

theorem hold_cases (id : Text) (paused : Bool) :
    (∃ index job, daemon.jobs[index]? = some job ∧ job.id = id ∧
      daemon.hold host id paused =
        (.done (Message.held id paused), daemon.heldAt host index job paused)) ∨
    (∀ job ∈ daemon.jobs, job.id ≠ id) ∧ daemon.hold host id paused = (.unknownJob id, daemon) := by
  unfold Daemon.hold
  cases hposition : daemon.position id with
  | none =>
    refine .inr ⟨?_, rfl⟩
    intro job hjob hid
    exact not_mem_of_position hposition (List.mem_map.mpr ⟨job, hjob, hid⟩)
  | some index =>
    obtain ⟨job, found, hid⟩ := found_of_position hposition
    refine .inl ⟨index, job, found, hid, ?_⟩
    rw [heldAt, ← hold_of_found found]

end

/-! ## A daemon whose memory is in its files -/

/-- The list and the paused flags in the files are those in memory. -/
structure InStep (daemon : Daemon) : Prop where
  written : daemon.files.registry = .ok daemon.registry
  saved : ∀ job, (daemon.files.states.get job).paused = (daemon.states.get job).paused

section

variable {daemon : Daemon} {host : Host}

theorem InStep.removed {path : Path}
    (saves : host.stateWrite (daemon.removed host path).states = true) :
    (daemon.removed host path).InStep := by
  refine ⟨rfl, fun job => ?_⟩
  simp only [Daemon.removed, pruneStates, writeStates] at *
  rw [if_pos saves]

variable [CronCrate]

theorem InStep.added (inStep : daemon.InStep) (watched : Watched) :
    (daemon.added host watched).InStep := ⟨rfl, inStep.saved⟩

theorem InStep.heldAt (inStep : daemon.InStep) {index : Nat} {job : Job} {paused : Bool}
    (saves : host.stateWrite (daemon.heldAt host index job paused).states = true) :
    (daemon.heldAt host index job paused).InStep := by
  refine ⟨inStep.written, fun other => ?_⟩
  simp only [Daemon.heldAt, writeStates] at *
  rw [if_pos saves]

theorem heldAt_paused (index : Nat) (job : Job) (paused : Bool) (other : Text) :
    ((daemon.heldAt host index job paused).states.get other).paused =
      if other = job.id then paused else (daemon.states.get other).paused := by
  rw [heldAt, States.get_set]
  split
  · rfl
  · rfl

end

theorem openDaemon_inStep [CronCrate] {host : Host} {root : Path} {limit : Nat} {files : Files}
    {daemon : Daemon} (opened : openDaemon host root limit files = some daemon) :
    daemon.InStep ∧ daemon.files = files := by
  unfold openDaemon at opened
  split at opened
  · next registry states hregistry hstates =>
    simp only [Option.some.injEq] at opened
    subst opened
    exact ⟨⟨hregistry, fun job => (JobState.reread_paused (States.get_reread hstates job)).symm⟩, rfl⟩
  · cases opened

/-- The jobs of the daemon are those that the manifests of its list give. -/
structure Listed (load : Path → Except Text Manifest) (daemon : Daemon) : Prop extends
    InStep daemon where
  places : ∀ place, place ∈ places daemon.jobs ↔ daemon.registry.Gives load place
  watched : ∀ entry ∈ daemon.manifests, daemon.registry.watches entry.watched.path = true

theorem listed_of_opened [CronCrate] {host : Host} {root : Path} {limit : Nat} {files : Files}
    {daemon : Daemon} (opened : openDaemon host root limit files = some daemon) :
    daemon.Listed host.load := by
  refine ⟨(openDaemon_inStep opened).1, ?_, ?_⟩
  all_goals
    unfold openDaemon at opened
    split at opened
  · next registry states _ _ =>
    simp only [Option.some.injEq] at opened
    subst opened
    intro place
    refine Iff.trans ?_ (@mem_places_build host.load states registry place host.modified)
    simp [planAll, places, Function.comp_def]
  · cases opened
  · next registry states _ _ =>
    simp only [Option.some.injEq] at opened
    subst opened
    intro entry hmem
    obtain ⟨watched, hwatched, rfl⟩ := List.mem_map.mp hmem
    exact Registry.watches_iff.mpr ⟨watched, hwatched, rfl⟩
  · cases opened

/-- The manifest loads, and no other manifest of the list gives one of its jobs. -/
def Registry.Admits (registry : Registry) (load : Path → Except Text Manifest) (watched : Watched) :
    Prop :=
  manifestError (jobsOf load watched ⟨[]⟩) = none ∧
    ∀ id ∈ idsOf load watched.path, ∀ path, path ≠ watched.path → ¬registry.Gives load (path, id)

theorem manifestError_jobsOf (load : Path → Except Text Manifest) (watched : Watched)
    (states states' : States) :
    manifestError (jobsOf load watched states) = manifestError (jobsOf load watched states') := by
  unfold jobsOf
  split
  · rfl
  · split
    · rfl
    · next manifest _ _ =>
      have hnone : ∀ states, manifestError (manifest.schedules.map (jobOf watched states manifest)) =
          none := by
        intro states
        unfold manifestError
        rw [List.find?_eq_none.mpr]
        · rfl
        · intro job hmem
          obtain ⟨schedule, -, rfl⟩ := List.mem_map.mp hmem
          simp [jobOf, Job.new]
      rw [hnone, hnone]

/-- What a manifest that a command adds is checked for. -/
theorem admitJobs_iff {registry : Registry} {load : Path → Except Text Manifest} {watched : Watched}
    {others : List Text} (states : States)
    (hothers : ∀ id, id ∈ others ↔ ∃ path, path ≠ watched.path ∧ registry.Gives load (path, id)) :
    (registry.Admits load watched ∧
      admitJobs (jobsOf load watched states) others = .ok (ids (jobsOf load watched states))) ∨
    (¬registry.Admits load watched ∧
      ∃ error, admitJobs (jobsOf load watched states) others = .error error) := by
  rw [Registry.Admits, manifestError_jobsOf load watched ⟨[]⟩ states,
    ← @ids_jobsOf_eq load watched states]
  unfold admitJobs
  cases manifestError (jobsOf load watched states) with
  | some error =>
    refine .inr ⟨?_, error, rfl⟩
    rintro ⟨hnone, -⟩
    cases hnone
  | none =>
    dsimp only
    cases htaken : others.find? (· ∈ ids (jobsOf load watched states)) with
    | some taken =>
      refine .inr ⟨fun h => ?_, _, rfl⟩
      obtain ⟨path, hne, hgives⟩ := (hothers taken).mp (List.mem_of_find?_eq_some htaken)
      exact h.2 taken (by simpa using List.find?_some htaken) path hne hgives
    | none =>
      refine .inl ⟨⟨rfl, fun id hid path hne hgives => ?_⟩, rfl⟩
      have := List.find?_eq_none.mp htaken id ((hothers id).mpr ⟨path, hne, hgives⟩)
      simp [hid] at this

namespace Listed

variable {daemon : Daemon} {host : Host} {watched : Watched} {states : States}

theorem mem_others (listed : daemon.Listed host.load) (watched : Watched) (id : Text) :
    id ∈ daemon.othersIds watched ↔
      ∃ path, path ≠ watched.path ∧ daemon.registry.Gives host.load (path, id) := by
  rw [othersIds, mem_ids_iff]
  refine exists_congr fun path => ?_
  rw [mem_places_filter, listed.places, and_comm]

theorem remove (listed : daemon.Listed host.load) (writes : host.registryWrite = .ok ())
    (saves : ∀ states, host.stateWrite states = true) (path : Path) :
    (daemon.registry.watches path = true ∧ ∃ message after,
      daemon.remove host path = (.done message, after) ∧ after.Listed host.load ∧
        after.registry = (daemon.registry.remove path).2 ∧
        after.states = daemon.states.keepOnly (ids (daemon.jobs.filter (·.manifest ≠ path)))) ∨
    (daemon.registry.watches path = false ∧ ∃ message,
      daemon.remove host path = (.error message, daemon)) := by
  refine (remove_cases writes path).imp_left ?_
  rintro ⟨hwatches, message, hremove⟩
  refine ⟨hwatches, message, _, hremove, ⟨InStep.removed (saves _), ?_, ?_⟩, rfl, rfl⟩
  · intro place
    change place ∈ Daemon.places (daemon.jobs.filter fun job => decide (job.manifest ≠ path)) ↔ _
    rw [mem_places_filter, listed.places]
    exact (gives_remove path).symm
  · intro entry hmem
    obtain ⟨hmem, hne⟩ := List.mem_filter.mp hmem
    exact Registry.watches_remove.mpr ⟨listed.watched entry hmem, by simpa using hne⟩

variable [CronCrate]

theorem install (inStep : daemon.InStep)
    (gives : ∀ place, daemon.registry.Gives host.load place ↔
      (place ∈ Daemon.places daemon.jobs ∧ place.1 ≠ watched.path) ∨
        place ∈ Daemon.places (jobsOf host.load watched states))
    (others : ∀ entry ∈ daemon.manifests, daemon.registry.watches entry.watched.path = true)
    (own : daemon.registry.watches watched.path = true) :
    (daemon.install host watched (jobsOf host.load watched states)).Listed host.load := by
  refine ⟨⟨inStep.written, inStep.saved⟩, ?_, ?_⟩
  · intro place
    rw [mem_places_install]
    exact (gives place).symm
  · intro entry hmem
    rcases mem_manifests_rememberModified hmem with hmem | heq
    · exact others entry hmem
    · rw [heq]
      exact own

theorem reloaded (listed : daemon.Listed host.load)
    (own : daemon.registry.watches watched.path = true) :
    (Daemon.reload host daemon watched).Listed host.load := by
  refine install listed.toInStep ?_ listed.watched own
  intro place
  rw [listed.places]
  exact gives_of_watches own

/-- Reading manifests of the list again keeps what the daemon knows of them. -/
theorem rescanned (host : Host) (listed : daemon.Listed host.load) :
    (daemon.rescan host).Listed host.load ∧ (daemon.rescan host).registry = daemon.registry ∧
      (daemon.rescan host).states = daemon.states := by
  have hchanged : ∀ watched ∈ daemon.changed host, daemon.registry.watches watched.path = true := by
    intro watched hmem
    obtain ⟨entry, hentry, rfl⟩ := List.mem_map.mp hmem
    exact listed.watched entry (List.mem_of_mem_filter hentry)
  unfold rescan
  generalize daemon.changed host = changed at hchanged
  induction changed generalizing daemon with
  | nil => exact ⟨listed, rfl, rfl⟩
  | cons watched rest ih =>
    exact ih (listed.reloaded (hchanged watched (by simp))) fun other hmem =>
      hchanged other (by simp [hmem])

theorem add (listed : daemon.Listed host.load) (writes : host.registryWrite = .ok ())
    (watched : Watched) :
    (daemon.registry.Admits host.load watched ∧ ∃ message after,
      daemon.add host watched = (.done message, after) ∧ after.Listed host.load ∧
        after.registry = (daemon.registry.add watched).2 ∧ after.states = daemon.states) ∨
    (¬daemon.registry.Admits host.load watched ∧ ∃ message,
      daemon.add host watched = (.error message, daemon)) := by
  have hadmitted := admitJobs_iff daemon.states (listed.mem_others watched)
  rcases add_cases writes watched with ⟨names, message, hnames, hadd⟩ | ⟨error, herror, hadd⟩
  · rw [hnames] at hadmitted
    rcases hadmitted with ⟨admits, -⟩ | ⟨-, error, hrefused⟩
    · refine .inl ⟨admits, message, _, hadd, ?_, rfl, rfl⟩
      refine install ⟨rfl, listed.saved⟩ ?_ ?_ ?_
      · intro place
        rw [listed.places]
        exact gives_add
      · intro entry hmem
        rw [Registry.watches_add]
        by_cases heq : entry.watched.path = watched.path
        · exact .inr heq
        · exact .inl ⟨listed.watched entry hmem, heq⟩
      · exact Registry.watches_add.mpr (.inr rfl)
    · cases hrefused
  · rw [herror] at hadmitted
    rcases hadmitted with ⟨-, hnames⟩ | ⟨refused, -⟩
    · cases hnames
    · exact .inr ⟨refused, error, hadd⟩

theorem hold (listed : daemon.Listed host.load) (saves : ∀ states, host.stateWrite states = true)
    (id : Text) (paused : Bool) :
    ((∃ path, daemon.registry.Gives host.load (path, id)) ∧ ∃ message after,
      daemon.hold host id paused = (.done message, after) ∧ after.Listed host.load ∧
        after.registry = daemon.registry ∧
        ∀ job, (after.states.get job).paused =
          if job = id then paused else (daemon.states.get job).paused) ∨
    ((¬∃ path, daemon.registry.Gives host.load (path, id)) ∧ ∃ message,
      daemon.hold host id paused = (.error message, daemon)) := by
  rcases hold_cases id paused with ⟨index, job, found, rfl, hhold⟩ | ⟨absent, hhold⟩
  · refine .inl ⟨⟨job.manifest, ?_⟩, _, _, hhold, ⟨listed.toInStep.heldAt (saves _), ?_,
      listed.watched⟩, rfl, heldAt_paused index job paused⟩
    · exact (listed.places _).mp (List.mem_map.mpr ⟨job, List.mem_of_getElem? found, rfl⟩)
    · have hplaces : Daemon.places (daemon.jobs.set index (plan (job.held paused) host.now false).1) =
          Daemon.places daemon.jobs := map_set_of_found found (by simp [Job.held])
      intro place
      exact (hplaces ▸ listed.places place :)
  · refine .inr ⟨?_, _, hhold⟩
    rintro ⟨path, hgives⟩
    obtain ⟨job, hjob, hplace⟩ := List.mem_map.mp ((listed.places _).mpr hgives)
    exact absent job hjob (Prod.mk.inj hplace).2

end Listed

end Beez.Daemon
