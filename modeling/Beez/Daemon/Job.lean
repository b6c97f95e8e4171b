import Beez.Daemon.Control
import Beez.Daemon.Store
import Beez.Manifest

/-! # The jobs the daemon fires -/

open Beez.Core

namespace Beez.Daemon

/-- One job: one schedule of one manifest. `source` is the manifest the job was built from,
which the program does not keep. -/
structure Job where
  id : Text
  manifest : Path
  workingDirectory : Path
  schedule : Option JobSchedule
  error : Option Text
  nextFire : Option Int
  running : Bool
  queued : Bool
  state : JobState
  source : Option Manifest

namespace Job

/-- A job of one watched manifest that has not fired yet. -/
def new (id : Text) (watched : Watched) (schedule : Option JobSchedule) (error : Option Text)
    (states : States) (source : Option Manifest) : Job where
  id := id
  manifest := watched.path
  workingDirectory := watched.workingDirectory
  schedule := schedule
  error := error
  nextFire := none
  running := false
  queued := false
  state := states.get id
  source := source

def enabled (job : Job) : Bool := job.schedule.any (·.enabled)

def isReady (job : Job) : Bool := job.error.isNone && job.enabled && !job.state.paused

/-- The word `beez schedule list` prints for the job. -/
def condition (job : Job) : String :=
  if job.error.isSome then "broken"
  else if job.running then "running"
  else if job.state.paused then "paused"
  else if !job.enabled then "disabled"
  else if job.nextFire.isNone then "done"
  else if job.queued then "queued"
  else "waiting"

def report (job : Job) : JobReport where
  id := job.id
  manifest := job.manifest.display
  schedule := job.schedule.map (·.schedule)
  condition := job.condition
  nextFire := job.nextFire
  lastFire := job.state.lastFire
  lastRun := job.state.lastRun
  lastStatus := job.state.lastStatus
  error := job.error

end Job

/-- One watched manifest and what the daemon last read from it. -/
structure WatchedManifest where
  watched : Watched
  modified : Option Int

/-! ## From manifests to jobs -/

def everyTaskSandboxed (manifest : Manifest) : Bool :=
  manifest.workflow.tasks.all (·.sandbox.isSome)

def stem (manifest : Path) : Text := (manifest.fileStem.map (·.toList)).getD "workflow".toList

/-- A job that names its manifest's problem instead of running. -/
def broken (stem : Text) (watched : Watched) (states : States) (error : Text)
    (source : Option Manifest) : Job :=
  Job.new stem watched none (some error) states source

/-- The ID of the job that `schedule` describes. -/
def idOf (stem : Text) (schedule : JobSchedule) : Text :=
  match schedule.name with
  | some name => stem ++ ':' :: name
  | none => stem

def unsandboxedError : Text :=
  "every task must set a sandbox, or the schedule must set allow_unsandboxed: true".toList

def jobOf (watched : Watched) (states : States) (manifest : Manifest) (schedule : JobSchedule) :
    Job :=
  let error := if !everyTaskSandboxed manifest && !schedule.allowUnsandboxed then
    some unsandboxedError else none
  Job.new (idOf (stem watched.path) schedule) watched (some schedule) error states (some manifest)

/-- Builds the jobs of one manifest, which `load` reads. -/
def jobsOf (load : Path → Except Text Manifest) (watched : Watched) (states : States) : List Job :=
  match load watched.path with
  | .error error => [broken (stem watched.path) watched states error none]
  | .ok manifest =>
    if manifest.schedules = [] then
      [broken (stem watched.path) watched states "manifest has no schedule section".toList
        (some manifest)]
    else manifest.schedules.map (jobOf watched states manifest)

/-- Reads every manifest of the registry and builds its jobs. -/
def build (load : Path → Except Text Manifest) (modified : Path → Option Int) (registry : Registry)
    (states : States) : List WatchedManifest × List Job :=
  (registry.manifests.map fun watched => ⟨watched, modified watched.path⟩,
    registry.manifests.flatMap fun watched => jobsOf load watched states)

/-! ## Admission -/

def ids (jobs : List Job) : List Text := jobs.map (·.id)

def manifestError (jobs : List Job) : Option Text :=
  (jobs.find? (·.schedule.isNone)).bind (·.error)

/-- Checks the jobs of a manifest a command wants to watch, and names their IDs. -/
def admitJobs (jobs : List Job) (others : List Text) : Except Text (List Text) :=
  match manifestError jobs with
  | some error => .error error
  | none =>
    match others.find? (· ∈ ids jobs) with
    | some taken => .error (Message.takenId taken)
    | none => .ok (ids jobs)

/-! ## Planning -/

/-- What planning the next fire found. -/
inductive Plan where
  | catchUp (missed : Int)
  | missed (missed : Int)
deriving DecidableEq

/-- Plans the next fire of one job. -/
def plan [CronCrate] (job : Job) (now : Int) (allowCatchUp : Bool) : Job × Option Plan :=
  let job := { job with nextFire := none }
  if !job.isReady then (job, none)
  else match job.schedule with
    | none => (job, none)
    | some schedule =>
      -- A one-time schedule that never fired counts every past instant as missed.
      let base := job.state.lastFire.getD (if schedule.schedule.isRecurring then now else 0)
      match schedule.schedule.nextAfter base with
      | none => (job, none)
      | some next =>
        if now < next then ({ job with nextFire := some next }, none)
        else if allowCatchUp && schedule.catchUp then
          ({ job with nextFire := some now }, some (.catchUp next))
        else ({ job with nextFire := schedule.schedule.nextAfter now }, some (.missed next))

end Beez.Daemon
