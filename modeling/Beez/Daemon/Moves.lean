import Beez.Daemon.Effects
import Mathlib.Logic.Relation

/-! # What one step of the daemon is made of

Every step is a chain of moves, and each move changes the jobs in one way. An invariant that
every move keeps is one that every history keeps.
-/

open Beez.Lib Relation

namespace Beez.Daemon

/-! ## What a result asks of the history -/

/-- What a result asks of the state right before a manifest is read again, before a command
adds or removes one, before the end of a run is handled, and before a run reads its manifest. -/
structure Guard where
  read : Host → Daemon → Watched → Prop
  added : Host → Daemon → Watched → Prop
  removed : Daemon → Path → Prop
  ended : Daemon → RunThread → Prop
  loads : RunThread → Except Text Manifest → Prop

section

variable [CronCrate]

/-- Every manifest that a step reads meets the guard in the state that finds it, and so does the
run that the step is about. -/
def Guard.allows (guard : Guard) (daemon : Daemon) : Input → Prop
  | .pass host => Along (reload host) (guard.read host) daemon (daemon.changed host)
  | .command host (.add manifest workingDirectory) =>
    guard.added host daemon ⟨manifest, workingDirectory⟩
  | .command _ (.remove manifest) => guard.removed daemon manifest
  | .command host .reload => Along (reload host) (guard.read host) daemon.reloadRegistry
    daemon.reloadRegistry.registry.manifests
  | .finished _ index _ => ∀ thread, daemon.threads[index]? = some thread → guard.ended daemon thread
  | .loads index content =>
    ∀ thread, daemon.threads[index]? = some thread → guard.loads thread content
  | _ => True

/-- The guard allows every step that the daemon takes. -/
def Guard.AllowsAll (guard : Guard) (daemon : Daemon) (inputs : List Input) : Prop :=
  Along step (fun daemon input => daemon.takes input = true → guard.allows daemon input)
    daemon inputs

/-! ## Moves -/

/-- One change to the jobs, the runs or the saved states. -/
inductive Move (guard : Guard) (host : Host) : Daemon → Daemon → Prop where
  | reload {daemon : Daemon} (watched : Watched) (allowed : guard.read host daemon watched) :
      Move guard host daemon (reload host daemon watched)
  | add {daemon : Daemon} (watched : Watched) (allowed : guard.added host daemon watched)
      {names : List Text}
      (admitted : admitJobs (jobsOf host.load watched daemon.states) (daemon.othersIds watched)
        = .ok names) :
      Move guard host daemon
        (daemon.install host watched (jobsOf host.load watched daemon.states))
  | retain {daemon : Daemon} (keep : Path → Bool) :
      Move guard host daemon (daemon.retainManifests keep)
  | remove {daemon : Daemon} (manifest : Path) (allowed : guard.removed daemon manifest) :
      Move guard host daemon ((daemon.retainManifests (· ≠ manifest)).pruneStates host)
  | fire {daemon : Daemon} {index : Nat} {job : Job} (going : daemon.stopping = false)
      (found : daemon.jobs[index]? = some job) (due : isDue host.now job = true) :
      Move guard host daemon (fire host daemon index)
  | startWaiting {daemon : Daemon} {index : Nat} {job : Job} (going : daemon.stopping = false)
      (room : daemon.running < daemon.limit) (found : daemon.jobs[index]? = some job)
      (waits : mayStart job = true) :
      Move guard host daemon (daemon.start index (job.state.lastFire.getD host.now))
  | trigger {daemon : Daemon} {index : Nat} {job : Job} (room : daemon.running < daemon.limit)
      (found : daemon.jobs[index]? = some job) (whole : job.error = none)
      (idle : job.running = false) : Move guard host daemon (daemon.start index host.now)
  | settle {daemon : Daemon} {index : Nat} {thread : RunThread}
      (found : daemon.threads[index]? = some thread) (allowed : guard.ended daemon thread)
      (outcome : RunOutcome) :
      Move guard host daemon (daemon.settle host index thread.run.id outcome)
  | hold {daemon : Daemon} {id : Text} {index : Nat} (found : daemon.position id = some index)
      (paused : Bool) :
      Move guard host daemon
        (((daemon.holdJob index paused).saveState host index).planJob index host.now false)
  | load {daemon : Daemon} (index : Nat) (content : Except Text Manifest)
      (allowed : ∀ thread, daemon.threads[index]? = some thread → guard.loads thread content) :
      Move guard host daemon (daemon.load index content)
  /-- What no job depends on. -/
  | rest {daemon : Daemon} (registry : Registry) (manifests : List WatchedManifest)
      (stopping exiting waiting : Bool) (file : Except Text Registry) :
      Move guard host daemon { daemon with
        registry := registry, manifests := manifests, stopping := stopping, exiting := exiting,
        waiting := waiting, files := { daemon.files with registry := file } }

/-- A chain of moves. -/
def Moves (guard : Guard) (host : Host) : Daemon → Daemon → Prop :=
  ReflTransGen (Move guard host)

section

variable {guard : Guard} {host : Host} {daemon : Daemon}

theorem Moves.keeps {inv : Daemon → Prop} {after : Daemon}
    (keep : ∀ before after, Move guard host before after → inv before → inv after)
    (moves : Moves guard host daemon after) (start : inv daemon) : inv after := by
  induction moves with
  | refl => exact start
  | tail _ move ih => exact keep _ _ move ih

/-! ## Every step is a chain of moves -/

theorem reload_moves {watched : List Watched}
    (allowed : Along (reload host) (guard.read host) daemon watched) :
    Moves guard host daemon (runAll (reload host) daemon watched) := by
  induction watched generalizing daemon with
  | nil => exact .refl
  | cons first rest ih => exact .head (.reload first allowed.1) (ih allowed.2)

/-- A fire leaves the other jobs alone, so what was due stays due. -/
theorem fireAll_moves {due : List Nat} (apart : due.Nodup) (going : daemon.stopping = false)
    (ready : ∀ index ∈ due, ∃ job, daemon.jobs[index]? = some job ∧ isDue host.now job = true) :
    Moves guard host daemon (runAll (fire host) daemon due) := by
  induction due generalizing daemon with
  | nil => exact .refl
  | cons index rest ih =>
    obtain ⟨job, found, due⟩ := ready index (by simp)
    rw [List.nodup_cons] at apart
    refine .head (.fire going found due) (ih apart.2 ?_ fun other hother => ?_)
    · rw [fire_of_found found]
      exact going
    · obtain ⟨job', found', due'⟩ := ready other (by simp [hother])
      refine ⟨job', ?_, due'⟩
      have hne : index ≠ other := fun h => apart.1 (h ▸ hother)
      rw [fire_of_found found, List.getElem?_set_ne hne, found']

theorem fireDue_moves : Moves guard host daemon (daemon.fireDue host) := by
  unfold fireDue
  split
  · exact .refl
  · rename_i going
    apply fireAll_moves
    · exact List.Nodup.filter _ List.nodup_range
    · simpa using going
    · exact fun index h => mem_due h

theorem startWaiting_moves {room : Nat} (going : daemon.stopping = false)
    (free : daemon.running + room ≤ daemon.limit) :
    Moves guard host daemon (daemon.startWaiting host.now room) := by
  induction room generalizing daemon with
  | zero => exact .refl
  | succ room ih =>
    rw [startWaiting]
    split
    · exact .refl
    · rename_i index here
      obtain ⟨job, found, waits⟩ := found_of_findIdx? here
      simp only [found, Option.bind_some]
      refine .head (.startWaiting going (by omega) found waits) (ih ?_ ?_)
      · rw [start_of_found found]
        exact going
      · rw [start_of_found found]
        simp only
        omega

theorem startQueued_moves : Moves guard host daemon (daemon.startQueued host.now) := by
  unfold startQueued
  split
  · exact .refl
  · rename_i going
    by_cases full : daemon.running ≤ daemon.limit
    · exact startWaiting_moves (by simpa using going) (by omega)
    · rw [Nat.sub_eq_zero_of_le (by omega)]
      exact .refl

/-- What no job depends on may change at any time. -/
theorem Moves.rest {after : Daemon} (registry : Registry) (manifests : List WatchedManifest)
    (stopping exiting waiting : Bool) (file : Except Text Registry)
    (h : after = { daemon with
      registry := registry, manifests := manifests, stopping := stopping, exiting := exiting,
      waiting := waiting, files := { daemon.files with registry := file } }) :
    Moves guard host daemon after := by
  subst h
  exact .single (.rest registry manifests stopping exiting waiting file)

theorem add_moves {watched : Watched} (allowed : guard.added host daemon watched) :
    Moves guard host daemon (daemon.add host watched).2 := by
  unfold add watch
  dsimp only
  split
  · exact .refl
  · rename_i names admitted
    cases host.registryWrite with
    | error error => exact .rest _ _ _ _ _ _ rfl
    | ok _ => exact .tail (.single (.add watched allowed admitted)) (.rest _ _ _ _ _ _)

theorem remove_moves {manifest : Path} (allowed : guard.removed daemon manifest) :
    Moves guard host daemon (daemon.remove host manifest).2 := by
  unfold remove unwatch
  cases removed : (daemon.registry.remove manifest).1 with
  | false =>
    simp only [removed, Bool.not_false, if_true]
    exact .rest _ _ _ _ _ _ rfl
  | true =>
    simp only [removed, Bool.not_true, Bool.false_eq_true, if_false]
    cases host.registryWrite with
    | error error => exact .rest _ _ _ _ _ _ rfl
    | ok _ => exact .tail (.single (.remove manifest allowed)) (.rest _ _ _ _ _ _)

theorem trigger_moves (id : Text) : Moves guard host daemon (daemon.trigger host id).2 := by
  rcases trigger_cases daemon host id with
    ⟨error, same, -⟩ | ⟨_, _, -, found, whole, idle, room, starts⟩
  · rw [same]
    exact .refl
  · rw [starts]
    exact .single (.trigger room found whole idle)

theorem hold_moves (id : Text) (paused : Bool) :
    Moves guard host daemon (daemon.hold host id paused).2 := by
  unfold hold
  cases here : daemon.position id with
  | none => exact .refl
  | some index => exact .single (.hold here paused)

theorem command_moves {request : Request}
    (allowed : guard.allows daemon (.command host request)) :
    Moves guard host daemon (daemon.command host request).2 := by
  cases request with
  | status => exact .refl
  | add manifest workingDirectory => exact add_moves allowed
  | remove manifest => exact remove_moves allowed
  | pause job => exact hold_moves job true
  | resume job => exact hold_moves job false
  | trigger job => exact trigger_moves job
  | reload =>
    refine .trans ?_ (reload_moves allowed)
    unfold reloadRegistry
    exact .tail (.single (.rest _ _ _ _ _ _)) (.retain _)
  | stop => exact .rest _ _ _ _ _ _ rfl

theorem handleFinished_moves {index : Nat} {outcome : RunOutcome}
    (allowed : guard.allows daemon (.finished host index outcome)) :
    Moves guard host daemon (daemon.handleFinished host index outcome) := by
  rcases handleFinished_cases daemon host index outcome with ⟨-, same⟩ | ⟨thread, found, -, ends⟩
  · rw [same]
    exact .refl
  · have ended : Moves guard host daemon
        (daemon.finished host index thread.run.id (thread.outcome outcome)) :=
      .head (.settle found (allowed thread found) _) startQueued_moves
    rw [ends]
    exact .tail ended (.rest _ _ _ _ _ _)

theorem take_moves {input : Input} (allowed : guard.allows daemon input)
    (here : ∀ other, input.host = some other → other = host) :
    Moves guard host daemon (daemon.take input) := by
  cases input with
  | pass own =>
    cases here own rfl
    exact .tail (.trans (reload_moves allowed) fireDue_moves) (.rest _ _ _ _ _ _)
  | timeout => exact .rest _ _ _ _ _ _ rfl
  | command own request =>
    cases here own rfl
    exact .tail (command_moves allowed) (.rest _ _ _ _ _ _)
  | finished own index outcome =>
    cases here own rfl
    exact handleFinished_moves allowed
  | signal =>
    unfold take signal
    dsimp only
    split
    · exact .rest _ _ _ _ _ _ rfl
    · exact .rest _ _ _ _ _ _ rfl
  | loads index content => exact .single (.load index content allowed)
  | edited registry => exact .rest _ _ _ _ _ _ rfl

theorem step_moves {input : Input}
    (allowed : daemon.takes input = true → guard.allows daemon input)
    (here : ∀ other, input.host = some other → other = host) :
    Moves guard host daemon (daemon.step input) := by
  unfold step
  split
  · rename_i taken
    exact take_moves (allowed taken) here
  · exact .refl

/-- What every move keeps, every history keeps whose steps the guard allows. -/
theorem Guard.AllowsAll.keeps {inv : Daemon → Prop} {inputs : List Input}
    (keep : ∀ host before after, Move guard host before after → inv before → inv after)
    (allowed : guard.AllowsAll daemon inputs) (start : inv daemon) :
    inv (runAll step daemon inputs) := by
  refine runAll_invariant (fun before input holds allowed => ?_) start allowed
  have moves : Moves guard (input.host.getD default) before (before.step input) :=
    step_moves allowed fun other h => by rw [h]; rfl
  exact moves.keeps (keep _) holds

end

end

end Beez.Daemon
