import Beez.Daemon.Listed

/-! # What a command that changes the list leaves alone -/

open Beez.Lib

namespace Beez.Daemon

variable {daemon : Daemon} {host : Host} {path : Path} {id : Text}

/-! ## A removal and the jobs of other manifests -/

/-- What already happened to the job is what it was, in memory and in a file that agreed. -/
structure SameState (before after : Daemon) (id : Text) : Prop where
  held : after.states.get id = before.states.get id
  saved : before.files.states.get id = before.states.get id →
    after.files.states.get id = after.states.get id

theorem SameState.refl (daemon : Daemon) (id : Text) : SameState daemon daemon id :=
  ⟨rfl, fun h => h⟩

/-- The IDs of the jobs that are left without the manifest at `path`. -/
def leftIds (daemon : Daemon) (path : Path) : List Text :=
  ids (daemon.jobs.filter (·.manifest ≠ path))

theorem removed_states : (daemon.removed host path).states =
    daemon.states.keepOnly (daemon.leftIds path) := rfl

theorem removed_saved : (daemon.removed host path).files.states = daemon.files.states ∨
    (daemon.removed host path).files.states = daemon.states.keepOnly (daemon.leftIds path) := by
  unfold removed pruneStates writeStates
  dsimp only
  split
  · exact .inr rfl
  · exact .inl rfl

theorem sameState_removed_iff : SameState daemon (daemon.removed host path) id ↔
    (daemon.states.get id ≠ .initial → id ∈ daemon.leftIds path) := by
  constructor
  · intro same hstate
    by_contra habsent
    have hheld := same.held
    rw [removed_states, States.get_keepOnly_of_not_mem habsent] at hheld
    exact hstate hheld.symm
  · intro h
    have hheld : (daemon.removed host path).states.get id = daemon.states.get id := by
      rw [removed_states]
      by_cases hmem : id ∈ daemon.leftIds path
      · exact States.get_keepOnly hmem _
      · rw [States.get_keepOnly_of_not_mem hmem]
        by_contra hne
        exact hmem (h (Ne.symm hne))
    refine ⟨hheld, fun hsaved => ?_⟩
    rcases @removed_saved daemon host path with hfile | hfile
    · rw [hfile, hsaved, hheld]
    · rw [hfile, removed_states]

/-- A removal that is refused, or cannot be written, touches no state. -/
theorem remove_refused (h : daemon.registry.watches path = false ∨ host.registryWrite ≠ .ok ()) :
    SameState daemon (daemon.remove host path).2 id := by
  unfold Daemon.remove unwatch
  cases hwatches : daemon.registry.watches path with
  | false =>
    simp only [Registry.remove_of_not_watches hwatches]
    exact .refl daemon id
  | true =>
    have hremoved := (daemon.registry.remove_fst path).trans hwatches
    cases hwrite : host.registryWrite with
    | ok =>
      rw [hwatches, hwrite] at h
      simp at h
    | error error =>
      simp only [hremoved, Bool.not_true, Bool.false_eq_true, if_false]
      exact ⟨rfl, fun h => h⟩

/-- When a removal keeps what happened to every job of every other watched manifest. `load` is
what these manifests hold, now or at any other time. -/
theorem remove_keeps_iff (daemon : Daemon) (host : Host) (path : Path)
    (load : Path → Except Text Manifest) :
    (∀ other id, other ≠ path → daemon.registry.Gives load (other, id) →
      SameState daemon (daemon.remove host path).2 id) ↔
    (daemon.registry.watches path = false ∨ host.registryWrite ≠ .ok () ∨
      ∀ other id, other ≠ path → daemon.registry.Gives load (other, id) →
        daemon.states.get id ≠ .initial → id ∈ daemon.leftIds path) := by
  by_cases hrefused : daemon.registry.watches path = false ∨ host.registryWrite ≠ .ok ()
  · constructor
    · intro _
      rcases hrefused with h | h
      · exact .inl h
      · exact .inr (.inl h)
    · intro _ other id _ _
      exact remove_refused hrefused
  · push Not at hrefused
    obtain ⟨hwatches, hwrite⟩ := hrefused
    obtain ⟨-, message, hremove⟩ := (remove_cases hwrite path).resolve_right fun h => hwatches h.1
    rw [or_iff_right hwatches, or_iff_right (not_not_intro hwrite)]
    simp only [hremove, sameState_removed_iff]

def weekly : Watched := ⟨["b", "weekly.yaml"], ["b"]⟩

/-- `/a/nightly.yaml`, which names its schedule, and `/b/weekly.yaml`. -/
def nightlyAndWeekly : Daemon :=
  (@openDaemon .unused early ["root"] 2 ⟨.ok ⟨[nightlyIn "a", weekly]⟩, ⟨[]⟩⟩).get (by decide +kernel)

theorem nightlyAndWeekly_opened :
    @openDaemon .unused early ["root"] 2 ⟨.ok ⟨[nightlyIn "a", weekly]⟩, ⟨[]⟩⟩ =
      some nightlyAndWeekly :=
  (Option.some_get _).symm

/-- The named job is held, and then its manifest stops loading. -/
def heldThenBroken : Daemon :=
  @runAll _ _ (@step .unused) nightlyAndWeekly [.pass early,
    .command early (.pause "nightly:early".toList), .pass (hostAt 1 1 oneBroken)]

theorem remove_forgets :
    @openDaemon .unused early ["root"] 2 ⟨.ok ⟨[nightlyIn "a", weekly]⟩, ⟨[]⟩⟩ = some nightlyAndWeekly ∧
      (heldThenBroken.remove (hostAt 2 1 oneBroken) weekly.path).1 =
        .done "stopped watching /b/weekly.yaml".toList ∧
      ¬ ∀ other id, other ≠ weekly.path →
        heldThenBroken.registry.Gives early.load (other, id) →
        SameState heldThenBroken (heldThenBroken.remove (hostAt 2 1 oneBroken) weekly.path).2 id := by
  refine ⟨nightlyAndWeekly_opened, by decide +kernel, fun h => ?_⟩
  have same := h (nightlyIn "a").path "nightly:early".toList (by decide)
    ⟨by decide +kernel, by decide +kernel⟩
  exact absurd same.held (by decide +kernel)

/-! ## A command that is refused -/

/-- A failed write leaves the list that was meant to be written in memory. -/
theorem remove_failed {error : Text} (hwrite : host.registryWrite = .error error) (path : Path) :
    (daemon.registry.watches path = true ∧ daemon.remove host path =
      (.error (Message.unwritableRegistry error),
        { daemon with registry := (daemon.registry.remove path).2 })) ∨
    (daemon.registry.watches path = false ∧
      daemon.remove host path = (.error (Message.notWatched path), daemon)) := by
  unfold Daemon.remove unwatch
  cases hwatches : daemon.registry.watches path with
  | false =>
    right
    simp [Registry.remove_of_not_watches hwatches]
  | true =>
    left
    have hremoved := (daemon.registry.remove_fst path).trans hwatches
    simp [hremoved, hwrite]

/-- A removal does nothing, forgets the manifest without writing that down, or does both and
prunes. -/
theorem remove_leaves (path : Path) :
    (daemon.remove host path).2 = daemon ∨
    (daemon.remove host path).2 = { daemon with registry := (daemon.registry.remove path).2 } ∨
    (daemon.remove host path).2 = daemon.removed host path := by
  cases hwrite : host.registryWrite with
  | ok =>
    rcases @remove_cases daemon host hwrite path with ⟨-, _, hremove⟩ | ⟨-, _, hremove⟩
    · exact .inr (.inr (by rw [hremove]))
    · exact .inl (by rw [hremove])
  | error error =>
    rcases @remove_failed daemon host error hwrite path with ⟨-, hremove⟩ | ⟨-, hremove⟩
    · exact .inr (.inl (by rw [hremove]))
    · exact .inl (by rw [hremove])

theorem registry_eq_iff {registry : Registry} :
    { daemon with registry } = daemon ↔ registry = daemon.registry := by
  constructor
  · intro h
    exact congrArg Daemon.registry h
  · rintro rfl
    rfl

theorem trigger_error {error : Text} (h : (daemon.trigger host id).1 = .error error) :
    (daemon.trigger host id).2 = daemon := by
  rcases trigger_cases daemon host id with ⟨_, same, -⟩ | ⟨_, _, -, -, -, -, -, starts⟩
  · rw [same]
  · rw [starts] at h
    cases h

section

variable [CronCrate]

theorem add_failed {error : Text} (hwrite : host.registryWrite = .error error) (watched : Watched) :
    (∃ names, admitJobs (jobsOf host.load watched daemon.states) (daemon.othersIds watched) = .ok names ∧
      daemon.add host watched = (.error (Message.unwritableRegistry error),
        { daemon with registry := (daemon.registry.add watched).2 })) ∨
    ∃ refused, admitJobs (jobsOf host.load watched daemon.states) (daemon.othersIds watched) =
      .error refused ∧ daemon.add host watched = (.error refused, daemon) := by
  unfold Daemon.add
  cases hadmitted : admitJobs (jobsOf host.load watched daemon.states) (daemon.othersIds watched) with
  | ok names => simp [hadmitted, watch, hwrite]
  | error refused => simp [hadmitted]

theorem add_leaves (watched : Watched) :
    (daemon.add host watched).2 = daemon ∨
    (daemon.add host watched).2 = { daemon with registry := (daemon.registry.add watched).2 } ∨
    (∃ names, admitJobs (jobsOf host.load watched daemon.states) (daemon.othersIds watched) =
      .ok names) ∧ host.registryWrite = .ok () ∧
      (daemon.add host watched).2 = daemon.added host watched := by
  cases hwrite : host.registryWrite with
  | ok =>
    rcases @add_cases daemon host _ hwrite watched with ⟨names, _, admitted, hadd⟩ | ⟨_, -, hadd⟩
    · exact .inr (.inr ⟨⟨names, admitted⟩, rfl, by rw [hadd]⟩)
    · exact .inl (by rw [hadd])
  | error error =>
    rcases @add_failed daemon host _ error hwrite watched with ⟨_, -, hadd⟩ | ⟨_, -, hadd⟩
    · exact .inr (.inl (by rw [hadd]))
    · exact .inl (by rw [hadd])

/-- The list that the command writes, when it gets to writing one. -/
def wanted (daemon : Daemon) (host : Host) : Request → Option Registry
  | .add manifest workingDirectory =>
    let watched : Watched := ⟨manifest, workingDirectory⟩
    match admitJobs (jobsOf host.load watched daemon.states) (daemon.othersIds watched) with
    | .error _ => none
    | .ok _ => some (daemon.registry.add watched).2
  | .remove manifest =>
    if daemon.registry.watches manifest then some (daemon.registry.remove manifest).2 else none
  | _ => none

/-- When a command that answers with an error leaves the daemon as it was. -/
theorem command_error_iff (daemon : Daemon) (host : Host) (request : Request) :
    (∀ error, (daemon.command host request).1 = .error error →
      (daemon.command host request).2 = daemon) ↔
    (host.registryWrite = .ok () ∨
      ∀ registry, daemon.wanted host request = some registry → registry = daemon.registry) := by
  have hheld : ∀ id paused error, (daemon.hold host id paused).1 = .error error →
      (daemon.hold host id paused).2 = daemon := by
    intro id paused error h
    rcases hold_cases id paused with ⟨index, job, -, -, hhold⟩ | ⟨-, hhold⟩
    · rw [hhold] at h
      cases h
    · rw [hhold]
  cases request with
  | status => simp [command, wanted]
  | add manifest directory =>
    cases hwrite : host.registryWrite with
    | ok =>
      simp only [command, true_or, iff_true]
      rcases @add_cases daemon host _ hwrite ⟨manifest, directory⟩ with ⟨_, _, -, hadd⟩ | ⟨_, -, hadd⟩
      · simp [hadd]
      · simp [hadd]
    | error error =>
      rcases @add_failed daemon host _ error hwrite ⟨manifest, directory⟩ with
        ⟨_, hadmitted, hadd⟩ | ⟨_, hadmitted, hadd⟩
      · simp [command, hadd, wanted, hadmitted, registry_eq_iff]
      · simp [command, hadd, wanted, hadmitted]
  | remove manifest =>
    cases hwrite : host.registryWrite with
    | ok =>
      simp only [command, true_or, iff_true]
      rcases @remove_cases daemon host hwrite manifest with ⟨-, _, hremove⟩ | ⟨-, _, hremove⟩
      · simp [hremove]
      · simp [hremove]
    | error error =>
      rcases @remove_failed daemon host error hwrite manifest with
        ⟨hwatches, hremove⟩ | ⟨hwatches, hremove⟩
      · simp [command, hremove, wanted, hwatches, registry_eq_iff]
      · simp [command, hremove, wanted, hwatches]
  | pause job => simpa [command, wanted] using hheld job true
  | resume job => simpa [command, wanted] using hheld job false
  | trigger job => simpa [command, wanted] using fun error => trigger_error
  | reload => simp [command, wanted]
  | stop => simp [command, wanted]

end

def fullDisk : Host := { early with registryWrite := .error "No space left on device".toList }

/-- A removal that could not be written is written by the next command that changes the list. -/
theorem failed_remove_persists :
    let failed := nightlyAndWeekly.remove fullDisk weekly.path
    failed.1 = .error (Message.unwritableRegistry "No space left on device".toList) ∧
      failed.2 ≠ nightlyAndWeekly ∧
      (failed.2.remove early weekly.path).1 = .error (Message.notWatched weekly.path) ∧
      nightlyAndWeekly.files.registry = .ok ⟨[nightlyIn "a", weekly]⟩ ∧
      (@Daemon.add .unused failed.2 early (nightlyIn "a")).2.files.registry =
        .ok ⟨[nightlyIn "a"]⟩ := by
  refine ⟨by decide +kernel, fun h => ?_, by decide +kernel, by decide +kernel, by decide +kernel⟩
  exact absurd (congrArg (·.registry.manifests.length) h) (by decide +kernel)

end Beez.Daemon
