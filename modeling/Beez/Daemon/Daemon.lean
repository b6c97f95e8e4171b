import Beez.Daemon.Job
import Beez.Lib.Machine

/-! # The daemon

One thread holds every decision. It takes a pass over its jobs, waits for one event, handles it
and starts over. The runs it starts go on beside it.
-/

open Beez.Lib

namespace Beez.Daemon

/-! ## Runs -/

/-- What one job needs to run. -/
structure JobRun where
  id : Text
  manifest : Path
  workingDirectory : Path
  logDirectory : Path
  fire : Int
deriving DecidableEq, Repr

/-- What one run produced. -/
structure RunOutcome where
  directory : Option Text
  status : Option Int
  summary : Text
  error : Option Text
deriving DecidableEq, Repr

def failure (error : Text) : RunOutcome := ⟨none, none, "0 passed".toList, some error⟩

/-- A run whose end the daemon has not handled yet. `source` is the manifest that its job was
built from, and `loaded` what the run itself read, once it did. -/
structure RunThread where
  run : JobRun
  source : Option Manifest
  loaded : Option (Except Text Manifest)

/-- What `execute` gives for a run that would produce `outcome`, had it loaded. -/
def RunThread.outcome (thread : RunThread) (outcome : RunOutcome) : RunOutcome :=
  match thread.loaded with
  | some (.error error) => failure error
  | _ => outcome

/-! ## The state of the daemon -/

/-- What a fire leads to. -/
inductive Action where
  | start
  | queue (reason : String)
  | skip
deriving DecidableEq, Repr

/-- What the daemon did to its jobs, with the job as it was before. -/
inductive Happening where
  | planned (job : Job) (found : Plan)
  | fired (job : Job) (fire : Int) (action : Action)
  | started (job : Job) (run : JobRun) (inFlight : List Text)

/-- `manifests.json` and `state.json`. -/
structure Files where
  registry : Except Text Registry
  states : States

/-- What the daemon finds outside itself while it takes one step. -/
structure Host where
  now : Int
  modified : Path → Option Int
  load : Path → Except Text Manifest
  /-- When a manifest that was just read last changed. -/
  remembered : Path → Option Int
  registryWrite : Except Text Unit
  stateWrite : States → Bool
deriving Inhabited

end Daemon

structure Daemon where
  root : Path
  registry : Daemon.Registry
  states : Daemon.States
  manifests : List Daemon.WatchedManifest
  jobs : List Daemon.Job
  running : Nat
  limit : Nat
  started : Int
  stopping : Bool
  exiting : Bool
  /-- The pass is over and the timer waits for an event. -/
  waiting : Bool
  files : Daemon.Files
  threads : List Daemon.RunThread
  trace : List Daemon.Happening

namespace Daemon

/-- The job ID of every run that has not been reported yet. -/
def inFlight (daemon : Daemon) : List Text := daemon.threads.map (·.run.id)

def position (daemon : Daemon) (id : Text) : Option Nat := daemon.jobs.findIdx? (·.id = id)

/-! ## Saving and planning -/

def writeStates (daemon : Daemon) (host : Host) : Daemon :=
  let written := if host.stateWrite daemon.states then daemon.states else daemon.files.states
  { daemon with files := { daemon.files with states := written } }

def saveState (daemon : Daemon) (host : Host) (index : Nat) : Daemon :=
  match daemon.jobs[index]? with
  | none => daemon
  | some job => { daemon with states := daemon.states.set job.id job.state }.writeStates host

def pruneStates (daemon : Daemon) (host : Host) : Daemon :=
  { daemon with states := daemon.states.keepOnly (ids daemon.jobs) }.writeStates host

/-- The lines that planning `jobs` reports. -/
def planLines (planned : List (Job × Option Plan)) : List Happening :=
  planned.flatMap fun (job, found) => found.toList.map (.planned job)

section

variable [CronCrate]

def planAll (daemon : Daemon) (now : Int) (allowCatchUp : Bool) : Daemon :=
  let planned := daemon.jobs.map fun job => plan job now allowCatchUp
  { daemon with jobs := planned.map (·.1), trace := daemon.trace ++ planLines planned }

def planJob (daemon : Daemon) (index : Nat) (now : Int) (allowCatchUp : Bool) : Daemon :=
  match daemon.jobs[index]? with
  | none => daemon
  | some job =>
    let planned := plan job now allowCatchUp
    { daemon with
      jobs := daemon.jobs.set index planned.1
      trace := daemon.trace ++ planLines [planned] }

/-- `Daemon::open`, with the limit that `run` gives it. Nothing when a file cannot be read. -/
def openDaemon (host : Host) (root : Path) (limit : Nat) (files : Files) : Option Daemon :=
  match files.registry, files.states.reread with
  | .ok registry, some states =>
    let built := build host.load host.modified registry states
    let daemon : Daemon := {
      root := root
      registry := registry
      states := states
      manifests := built.1
      jobs := built.2
      running := 0
      limit := max limit 1
      started := host.now
      stopping := false
      exiting := false
      waiting := false
      files := files
      threads := []
      trace := [] }
    some (daemon.planAll host.now true)
  | _, _ => none

end

/-! ## Reading manifests again -/

/-- What a job that was read again takes over from the job that had its ID. -/
def carry (jobs : List Job) (job : Job) : Job :=
  match jobs.find? (·.id = job.id) with
  | none => job
  | some old =>
    { job with
      running := old.running
      queued := old.queued
      -- A schedule that did not change keeps the fire it planned.
      nextFire := if old.schedule = job.schedule then old.nextFire else job.nextFire }

def rememberModified (daemon : Daemon) (host : Host) (watched : Watched) : Daemon :=
  let entry : WatchedManifest := ⟨watched, host.remembered watched.path⟩
  { daemon with
    manifests := match daemon.manifests.findIdx? (·.watched.path = watched.path) with
      | some index => daemon.manifests.set index entry
      | none => daemon.manifests ++ [entry] }

/-- Drops the jobs and the watch of every manifest `keep` refuses. -/
def retainManifests (daemon : Daemon) (keep : Path → Bool) : Daemon :=
  { daemon with
    jobs := daemon.jobs.filter fun job => keep job.manifest
    manifests := daemon.manifests.filter fun entry => keep entry.watched.path }

section

variable [CronCrate]

/-- Plans a job that has no fire planned. -/
def planFresh (job : Job) (now : Int) : Job × Option Plan :=
  if job.nextFire.isNone then plan job now false else (job, none)

/-- Replaces the jobs of one manifest with `fresh`, keeping what is going on. -/
def install (daemon : Daemon) (host : Host) (watched : Watched) (fresh : List Job) : Daemon :=
  let planned := fresh.map fun job => planFresh (carry daemon.jobs job) host.now
  let kept := daemon.jobs.filter (·.manifest ≠ watched.path)
  { daemon with
    jobs := kept ++ planned.map Prod.fst
    trace := daemon.trace ++ planLines planned }.rememberModified host watched

def reload (host : Host) (daemon : Daemon) (watched : Watched) : Daemon :=
  daemon.install host watched (jobsOf host.load watched daemon.states)

def changed (daemon : Daemon) (host : Host) : List Watched :=
  (daemon.manifests.filter fun entry =>
    host.modified entry.watched.path ≠ entry.modified).map (·.watched)

def rescan (daemon : Daemon) (host : Host) : Daemon :=
  runAll (reload host) daemon (daemon.changed host)

/-- The list of watched manifests, read again. Jobs that left the list are dropped. -/
def reloadRegistry (daemon : Daemon) : Daemon :=
  let registry := match daemon.files.registry with
    | .ok registry => registry
    | .error _ => daemon.registry
  { daemon with registry := registry }.retainManifests
    fun path => registry.manifests.any (·.path = path)

/-- Reads the list of watched manifests again, and then each manifest. -/
def reloadAll (daemon : Daemon) (host : Host) : Nat × Daemon :=
  let daemon := daemon.reloadRegistry
  (daemon.registry.manifests.length, runAll (reload host) daemon daemon.registry.manifests)

end

/-! ## Firing -/

def actionFor (daemon : Daemon) (job : Job) : Action :=
  -- The limit never drops work, so a fire waits instead.
  if daemon.running ≥ daemon.limit then .queue "the daemon is at its run limit"
  else if !job.running then .start
  else match (job.schedule.map (·.onOverlap)).getD .skip with
    | .skip => .skip
    | .queue => .queue "its last run has not ended"
    | .parallel => .start

/-- One waiting fire per job, so a stuck job cannot pile them up. -/
def queue (daemon : Daemon) (index : Nat) : Daemon :=
  match daemon.jobs[index]? with
  | none => daemon
  | some job => { daemon with jobs := daemon.jobs.set index { job with queued := true } }

def runOf (daemon : Daemon) (job : Job) (fire : Int) : JobRun where
  id := job.id
  manifest := job.manifest
  workingDirectory := job.workingDirectory
  logDirectory := daemon.root
  fire := fire

def start (daemon : Daemon) (index : Nat) (fire : Int) : Daemon :=
  match daemon.jobs[index]? with
  | none => daemon
  | some job =>
    let run := daemon.runOf job fire
    { daemon with
      jobs := daemon.jobs.set index { job with running := true, queued := false }
      running := daemon.running + 1
      threads := daemon.threads ++ [⟨run, job.source, none⟩]
      trace := daemon.trace ++ [.started job run daemon.inFlight] }

/-- What a fire leads to, once the schedule has moved on. -/
def act (daemon : Daemon) (index : Nat) (fire : Int) : Action → Daemon
  | .start => daemon.start index fire
  | .queue _ => daemon.queue index
  | .skip => daemon

/-- The job once its schedule has moved on to `fire`. -/
def Job.movedOn (job : Job) (fire : Int) : Job :=
  { job with state := { job.state with lastFire := some fire } }

/-- The fire happened, whatever comes of it, so the schedule moves on. -/
def moveOn (daemon : Daemon) (index : Nat) (job : Job) (fire : Int) (action : Action) : Daemon :=
  { daemon with
    jobs := daemon.jobs.set index (job.movedOn fire)
    trace := daemon.trace ++ [.fired job fire action] }

/-- True when a fire of the job may start at `now`. -/
def isDue (now : Int) (job : Job) : Bool := job.isReady && job.nextFire.any (· ≤ now)

/-- A waiting fire that a free place could start. -/
def mayStart (job : Job) : Bool := job.queued && job.isReady && !job.running

/-- Starts waiting fires while the daemon has room for them, which `room` counts. -/
def startWaiting (daemon : Daemon) (now : Int) : Nat → Daemon
  | 0 => daemon
  | room + 1 =>
    match daemon.jobs.findIdx? mayStart with
    | none => daemon
    | some index =>
      let fire := (daemon.jobs[index]?.bind (·.state.lastFire)).getD now
      (daemon.start index fire).startWaiting now room

def startQueued (daemon : Daemon) (now : Int) : Daemon :=
  if daemon.stopping then daemon else daemon.startWaiting now (daemon.limit - daemon.running)

section

variable [CronCrate]

/-- Starts, queues or drops one due fire, then plans the fire after it. -/
def fire (host : Host) (daemon : Daemon) (index : Nat) : Daemon :=
  match daemon.jobs[index]? with
  | none => daemon
  | some job =>
    let fire := job.nextFire.getD host.now
    let action := daemon.actionFor job
    let daemon := (daemon.moveOn index job fire action).act index fire action
    (daemon.saveState host index).planJob index host.now false

def due (daemon : Daemon) (now : Int) : List Nat :=
  (List.range daemon.jobs.length).filter fun index => daemon.jobs[index]?.any (isDue now)

def fireDue (daemon : Daemon) (host : Host) : Daemon :=
  if daemon.stopping then daemon else runAll (fire host) daemon (daemon.due host.now)

end

/-! ## The end of a run -/

/-- The run at `thread` is reported, and its job is told. -/
def settle (daemon : Daemon) (host : Host) (thread : Nat) (id : Text) (outcome : RunOutcome) :
    Daemon :=
  let daemon : Daemon := { daemon with
    running := daemon.running - 1
    threads := daemon.threads.eraseIdx thread }
  -- A manifest that stopped being watched while it ran has no job left.
  match daemon.position id with
  | none => daemon
  | some index =>
    { daemon with
      jobs := daemon.jobs.modify index fun job =>
        { job with
          running := false
          state := { job.state with lastRun := outcome.directory, lastStatus := outcome.status } }
      }.saveState host index

/-- One run ended. The sweep that follows touches no job. -/
def finished (daemon : Daemon) (host : Host) (thread : Nat) (id : Text) (outcome : RunOutcome) :
    Daemon :=
  (daemon.settle host thread id outcome).startQueued host.now

/-! ## Commands -/

def waitingMessage : Nat → Text
  | 0 => "stopping".toList
  | 1 => "stopping after 1 running run ends".toList
  | count => "stopping after ".toList ++ Nat.toDigits 10 count ++ " running runs end".toList

/-- Stops firing, and says how many runs the daemon waits for. -/
def beginStopping (daemon : Daemon) : Text × Daemon :=
  (waitingMessage daemon.running, { daemon with stopping := true })

def signal (daemon : Daemon) : Daemon :=
  if daemon.stopping then { daemon with exiting := true } else daemon.beginStopping.2

def watch (daemon : Daemon) (host : Host) (watched : Watched) : Except Text Text × Daemon :=
  let (added, registry) := daemon.registry.add watched
  let daemon := { daemon with registry := registry }
  match host.registryWrite with
  | .error error => (.error error, daemon)
  | .ok _ =>
    (.ok (Message.watching watched.path added),
      { daemon with files := { daemon.files with registry := .ok registry } })

def unwatch (daemon : Daemon) (host : Host) (manifest : Path) : Except Text Response × Daemon :=
  let (removed, registry) := daemon.registry.remove manifest
  let daemon := { daemon with registry := registry }
  if !removed then (.ok (.error (Message.notWatched manifest)), daemon)
  else match host.registryWrite with
    | .error error => (.error error, daemon)
    | .ok _ =>
      (.ok (.done (Message.stoppedWatching manifest)),
        { daemon with files := { daemon.files with registry := .ok registry } })

def remove (daemon : Daemon) (host : Host) (manifest : Path) : Response × Daemon :=
  match daemon.unwatch host manifest with
  | (.ok (.done message), daemon) =>
    (.done message, (daemon.retainManifests (· ≠ manifest)).pruneStates host)
  | (.ok response, daemon) => (response, daemon)
  | (.error error, daemon) => (.error (Message.unwritableRegistry error), daemon)

/-- Runs one job now, beside its schedule. A triggered run moves no fire. -/
def trigger (daemon : Daemon) (host : Host) (id : Text) : Response × Daemon :=
  match daemon.position id with
  | none => (.unknownJob id, daemon)
  | some index =>
    match daemon.jobs[index]? with
    | none => (.unknownJob id, daemon)
    | some job =>
      match job.error with
      | some error => (.error (id ++ " cannot run: ".toList ++ error), daemon)
      | none =>
        if job.running then (.error (id ++ " is already running".toList), daemon)
        else if daemon.running ≥ daemon.limit then
          (.error ("the daemon already runs ".toList ++ Nat.toDigits 10 daemon.limit ++
            " workflows".toList), daemon)
        else (.done ("running ".toList ++ id ++ " now".toList), daemon.start index host.now)

section

variable [CronCrate]

/-- The IDs of the jobs that other manifests hold. -/
def othersIds (daemon : Daemon) (watched : Watched) : List Text :=
  ids (daemon.jobs.filter (·.manifest ≠ watched.path))

def add (daemon : Daemon) (host : Host) (watched : Watched) : Response × Daemon :=
  let jobs := jobsOf host.load watched daemon.states
  match admitJobs jobs (daemon.othersIds watched) with
  | .error error => (.error error, daemon)
  | .ok names =>
    match daemon.watch host watched with
    | (.error error, daemon) => (.error (Message.unwritableRegistry error), daemon)
    | (.ok watching, daemon) =>
      (.done (watching ++ " as ".toList ++ List.intercalate ", ".toList names),
        daemon.install host watched jobs)

def holdJob (daemon : Daemon) (index : Nat) (paused : Bool) : Daemon :=
  { daemon with
    jobs := daemon.jobs.modify index fun job =>
      { job with state := { job.state with paused := paused } } }

def hold (daemon : Daemon) (host : Host) (id : Text) (paused : Bool) : Response × Daemon :=
  match daemon.position id with
  | none => (.unknownJob id, daemon)
  | some index =>
    (.done (Message.held id paused),
      ((daemon.holdJob index paused).saveState host index).planJob index host.now false)

def command (daemon : Daemon) (host : Host) : Request → Response × Daemon
  | .status => (.status daemon.started daemon.running (daemon.jobs.map (·.report)), daemon)
  | .add manifest workingDirectory => daemon.add host ⟨manifest, workingDirectory⟩
  | .remove manifest => daemon.remove host manifest
  | .pause job => daemon.hold host job true
  | .resume job => daemon.hold host job false
  | .trigger job => daemon.trigger host job
  | .reload =>
    let (count, daemon) := daemon.reloadAll host
    (.done ("read ".toList ++ Nat.toDigits 10 count ++ " manifests again".toList), daemon)
  | .stop =>
    let (message, daemon) := daemon.beginStopping
    (.done message, daemon)

end

/-! ## The loop -/

/-- What can happen to a daemon, and around it. -/
inductive Input where
  /-- The timer passes over the jobs. -/
  | pass (host : Host)
  | timeout
  | command (host : Host) (request : Request)
  /-- The run of one thread ended, with `outcome` unless its manifest did not load. -/
  | finished (host : Host) (thread : Nat) (outcome : RunOutcome)
  | signal
  /-- The run of one thread reads its manifest. -/
  | loads (thread : Nat) (content : Except Text Manifest)
  /-- Something else writes `manifests.json`. -/
  | edited (registry : Except Text Registry)

/-- What the daemon finds outside itself while it handles an input. -/
def Input.host : Input → Option Host
  | .pass host | .command host _ | .finished host _ _ => some host
  | _ => none

/-- The daemon gave up, or stops with nothing left to wait for. -/
def isOver (daemon : Daemon) : Bool := daemon.exiting || daemon.stopping && daemon.running == 0

/-- The run of `thread` keeps what it reads first. -/
def load (daemon : Daemon) (thread : Nat) (content : Except Text Manifest) : Daemon :=
  { daemon with
    threads := daemon.threads.modify thread fun thread =>
      { thread with loaded := some (thread.loaded.getD content) } }

/-- Handles the end of a thread that has run to it. -/
def handleFinished (daemon : Daemon) (host : Host) (thread : Nat) (outcome : RunOutcome) : Daemon :=
  match daemon.threads[thread]? with
  | none => daemon
  | some ended =>
    if ended.loaded.isSome then
      { daemon.finished host thread ended.run.id (ended.outcome outcome) with waiting := false }
    else daemon

/-- The loop takes a pass, then one event. What other threads do happens at any time. -/
def takes (daemon : Daemon) : Input → Bool
  | .pass _ => !daemon.waiting && !daemon.isOver
  | .loads .. | .edited _ => true
  | _ => daemon.waiting

section

variable [CronCrate]

def take (daemon : Daemon) : Input → Daemon
  | .pass host => { (daemon.rescan host).fireDue host with waiting := true }
  | .timeout => { daemon with waiting := false }
  | .command host request => { (daemon.command host request).2 with waiting := false }
  | .finished host thread outcome => daemon.handleFinished host thread outcome
  | .signal => { daemon.signal with waiting := false }
  | .loads thread content => daemon.load thread content
  | .edited registry => { daemon with files := { daemon.files with registry := registry } }

def step (daemon : Daemon) (input : Input) : Daemon :=
  if daemon.takes input then daemon.take input else daemon

end

end Beez.Daemon
